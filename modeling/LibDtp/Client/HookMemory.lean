import LibDtp.Client.Missing
import LibDtp.Client.SegmentHeap

/-!
# The hooks in memory

The hooks of `dtp_client_posix_session_hooks.c` again, this time with the pointers they follow, and
with `malloc` and `free`.

## The model

`SessionPtr` is a session whose `hook_ctx` is a pointer. What is in the files is as in the model
without pointers, and so is what is written to them; the `FILE` of the output file is a cell, which
`fopen` allocates and `fclose` frees. The meta file, which is closed by the call that opens it, and
the parameters of `apm_on_dump_info` are left out.

`OwnsHook` says which hook context a pointer stands for, in the sense of the model without pointers,
and which cells it owns.

## What is proved

* `startHook_spec`, `openOutput_spec`, `apmOnDataPacket_spec`, `apmOnEnd_spec`,
  `apmOnSerialize_spec`, `apmOnDeserialize_spec` — a hook does what the model without pointers says,
  if it finds a hook context it can use, and touches nothing that is not the session's own.
* `apmOnRelease_spec` — after `apm_on_release` the session owns nothing.
-/

namespace LibDtp

open Heaps Heaps.Heap Bytes Files

/-- `dtp_t`, with `hook_ctx` as a pointer. -/
structure SessionPtr where
  /-- The other fields; the `hookCtx` in here is not used. -/
  session : Session
  /-- `hooks.hook_ctx`. -/
  hook : Option ℕ

/-- Is it part of a list of segments? -/
def Cell.Listed : Cell → Prop
  | .segment _ _ => True
  | .ctx _ => True
  | _ => False

namespace Mem

/-- A pointer to a hook context is followed. -/
def loadHook (m : Mem) (p : Option ℕ) : Except HeapFault HookPtr :=
  match m.load p with
  | .ok (.hook k) => .ok k
  | .ok _ => .error .dangling
  | .error f => .error f

/-- A pointer to a `FILE` is followed. -/
def loadFile (m : Mem) (p : Option ℕ) : Except HeapFault Unit :=
  match m.load p with
  | .ok .file => .ok ()
  | .ok _ => .error .dangling
  | .error f => .error f

/-- What divides by the size of a chunk. -/
def divides (r : MetaReq) : Except HeapFault Unit :=
  if r.chunk = 0 then .error .undefined else .ok ()

/-- What is written of a packet: what comes after its header. If it has no header, the length of
what is written wraps. -/
def packetBytes (p : Packet) : Except HeapFault (List UInt8) :=
  if p.length < 8 then .error .undefined
  else .ok (p.data.take (p.length.toUInt64 - 8).toNat)

/-- What `apm_on_start` does about the hook context. -/
def startHook (m : Mem) (s : SessionPtr) : Except HeapFault (Mem × SessionPtr) :=
  match s.hook with
  | some _ => .ok (m, s)
  | none => do
    let (k, m) := m.alloc (.hook ⟨0, none, none, none⟩)
    let (segments, m) := m.alloc (.ctx initSegmentsCtx)
    let m ← m.store (some k) (.hook ⟨0, some segments, none, none⟩)
    return (m, { s with hook := some k })

/-- The output file is opened, if `fopen` succeeds. -/
def openOutput (m : Mem) (p : Option ℕ) (opens : Bool) : Except HeapFault Mem := do
  let k ← loadHook m p
  if opens then
    let (file, m) := m.alloc .file
    m.store p (.hook { k with output := some file })
  else m.store p (.hook { k with output := none })

/-- `apm_on_start`. -/
def apmOnStart (m : Mem) (s : SessionPtr) (d : Disk) (opens : Bool) :
    Except HeapFault (Mem × SessionPtr × Disk) := do
  let (m, s) ← startHook m s
  let m ← openOutput m s.hook opens
  let d := if s.session.bytesReceived > 0 ∨ opens = false then d else { d with output := [] }
  return (m, s, d)

/-- `apm_on_data_packet`. -/
def apmOnDataPacket (m : Mem) (s : SessionPtr) (d : Disk) (p : Packet) (now : UInt32) :
    Except HeapFault (Mem × Disk) := do
  let k ← loadHook m s.hook
  divides s.session.request
  let seq := packetSeq s.session.request p
  let ts :=
    if now - k.lastPacketTs > 150 ∨ s.session.bytesReceived = s.session.payloadSize then now
      else k.lastPacketTs
  let m ← m.store s.hook (.hook { k with lastPacketTs := ts })
  loadFile m k.output
  let bytes ← packetBytes p
  let m ← updateSegments m k.segments seq
  return (m, { d with
    output := writeAt d.output (seq.toUInt64 * s.session.request.chunk).toNat bytes })

/-- The output file is closed, if there is one. -/
def closeOutput (m : Mem) (p : Option ℕ) : Except HeapFault Mem :=
  if p = none then .ok m
  else do
    loadFile m p
    m.free p

/-- What `apm_on_end` does about the segments received in earlier sessions. -/
def mergeReceived (m : Mem) (hook : Option ℕ) (k : HookPtr) : Except HeapFault (Mem × Option ℕ) :=
  if k.receivedSegments = none then .ok (m, k.segments)
  else do
    let (m, merged) ← mergeSegments m k.segments k.receivedSegments
    let m ← freeSegments m k.segments
    let m ← m.store hook (.hook { k with segments := merged })
    return (m, merged)

/-- What `apm_on_end` does to print what is missing. -/
def printMissing (m : Mem) (s : SessionPtr) (segments : Option ℕ) : Except HeapFault Mem := do
  divides s.session.request
  let count := (s.session.payloadSize.toUInt64 / s.session.request.chunk).toUInt32
  let count := if s.session.payloadSize.toUInt64 % s.session.request.chunk ≠ 0 then count + 1
    else count
  let (m, complements) ← getComplementSegment m segments 0 (count - 1)
  let _ ← loadCtx m complements
  let _ ← printSegments m complements
  freeSegments m complements

/-- What `apm_on_end` does about the segments. -/
def endSegments (m : Mem) (s : SessionPtr) (k : HookPtr) : Except HeapFault Mem := do
  let m ← closeSegments m k.segments
  let _ ← loadCtx m k.segments
  let _ ← printSegments m k.segments
  let (m, segments) ← mergeReceived m s.hook k
  printMissing m s segments

/-- `apm_on_end`. -/
def apmOnEnd (m : Mem) (s : SessionPtr) : Except HeapFault Mem := do
  let k ← loadHook m s.hook
  let m ← closeOutput m k.output
  endSegments m s k

/-- `apm_on_serialize`. -/
def apmOnSerialize (host : ByteOrder) (m : Mem) (s : SessionPtr) (d : Disk) :
    Except HeapFault Disk := do
  let k ← loadHook m s.hook
  let c ← loadCtx m k.segments
  let l ← forEachSegment m k.segments (fun _ s l => (true, l ++ [s])) []
  return { d with
    metaFile := some (sessionBytes host s.session ⟨l, .null, c.nofSegments, c.started, false⟩) }

/-- The loop of `apm_on_deserialize` over the segments in the file. -/
def readSegments (host : ByteOrder) : ℕ → Mem → Option ℕ → List UInt8 → Except HeapFault Mem
  | 0, m, _, _ => .ok m
  | n + 1, m, p, f => do
    let (start, f) := fread32 host 0 f
    let (stop, f) := fread32 host 0 f
    let m ← addSegment m p start stop
    readSegments host n m p f

/-- The intervals `apm_on_deserialize` asks for. -/
def requestMissing (m : Mem) (r : MetaReq) (payloadSize : UInt32) (received : Option ℕ) :
    Except HeapFault (Mem × MetaReq) := do
  divides r
  let (m, segments) ← getComplementSegment m received 0 (payloadSize.toUInt64 / r.chunk).toUInt32
  let c ← loadCtx m segments
  let r ← if c.nofSegments ≠ 0 then forEachSegment m segments createMetaData r
    else pure { r with nofIntervals := 0 }
  let m ← freeSegments m segments
  return (m, r)

/-- `apm_on_deserialize`, from the version on, if it is the right one. -/
def readSession (host : ByteOrder) (m : Mem) (s : SessionPtr) (f : List UInt8) :
    Except HeapFault (Mem × SessionPtr) := do
  let (node, f) := fread16 host s.session.node f
  let (mtu, f) := fread16 host s.session.request.mtu f
  let (timeout, f) := fread8 s.session.timeout f
  let (throughput, f) := fread32 host s.session.request.throughput f
  let (payloadId, f) := fread8 s.session.request.payloadId f
  let (sessionId, f) := fread32 host s.session.request.sessionId f
  let (bytesReceived, f) := fread32 host s.session.bytesReceived f
  let (payloadSize, f) := fread32 host s.session.payloadSize f
  let (received, m) := m.alloc (.ctx initSegmentsCtx)
  let (k, m) := m.alloc (.hook ⟨0, none, none, none⟩)
  let (nofSegments, f) := fread32 host 0 f
  let m ← readSegments host nofSegments.toNat m (some received) f
  let (m, request) ← requestMissing m { s.session.request with
    mtu := mtu, throughput := throughput, payloadId := payloadId,
      sessionId := sessionId } payloadSize (some received)
  let (segments, m) := m.alloc (.ctx initSegmentsCtx)
  let m ← m.store (some k) (.hook ⟨0, some segments, some received, none⟩)
  return (m, ⟨{ s.session with
    node := node
    timeout := timeout
    bytesReceived := bytesReceived
    payloadSize := payloadSize
    request := request }, some k⟩)

/-- `apm_on_deserialize`. -/
def apmOnDeserialize (host : ByteOrder) (m : Mem) (s : SessionPtr) (d : Disk) :
    Except HeapFault (Mem × SessionPtr) :=
  match d.metaFile with
  | none => .ok (m, { s with session := { s.session with errno := .einval } })
  | some f =>
    let (version, f) := fread32 host 0 f
    if version ≠ dtpSessionVersion then .ok (m, s) else readSession host m s f

/-- `apm_on_release`. -/
def apmOnRelease (m : Mem) (s : SessionPtr) : Except HeapFault (Mem × SessionPtr) := do
  if s.hook = none then return (m, s)
  else
    let k ← loadHook m s.hook
    let m ← freeSegments m k.segments
    let m ← m.store s.hook (.hook { k with segments := none })
    let m ← freeSegments m k.receivedSegments
    let m ← m.store s.hook (.hook { k with segments := none, receivedSegments := none })
    let m ← m.free s.hook
    return (m, { s with hook := none })

/-! ### What a hook context stands for -/

/-- A pointer that is null where there is no context. -/
def OwnsOptional (m : Mem) (p : Option ℕ) (S : Finset ℕ) : Option SegmentsCtx → Prop
  | none => p = none ∧ S = ∅
  | some ctx => OwnsCtx m p ctx S

/-- A hook context: the cell at `a`, and what its two contexts own. -/
structure HookCells (m : Mem) (a : ℕ) (k : HookPtr) (ctx : HookCtx) (S R : Finset ℕ) : Prop where
  /-- The cell. -/
  cell : m.lookup a = some (.hook k)
  /-- `last_packet_ts`. -/
  lastPacketTs : k.lastPacketTs = ctx.lastPacketTs
  /-- `segments`. -/
  segments : OwnsCtx m k.segments ctx.segments S
  /-- `received_segments`. -/
  receivedSegments : OwnsOptional m k.receivedSegments R ctx.receivedSegments
  /-- The contexts share nothing. -/
  disjoint : Disjoint S R

/-- The hook context a pointer stands for, if any, the cells it owns, and its `output`, which it
does not own. -/
def OwnsHook (m : Mem) (p output : Option ℕ) (S : Finset ℕ) : Option HookCtx → Prop
  | none => p = none ∧ output = none ∧ S = ∅
  | some ctx =>
    ∃ a k T R, p = some a ∧ HookCells m a k ctx T R ∧ k.output = output ∧ S = insert a (T ∪ R)

section Specs

variable {m m' : Mem} {p q : Option ℕ} {a : ℕ} {x : Cell} {k : HookPtr} {ctx : HookCtx}
  {c c' : SegmentsCtx} {o : Option SegmentsCtx} {S S' R T T' : Finset ℕ} {s : SessionPtr}
  {t : Session} (host : ByteOrder)

theorem loadHook_eq (h : m.lookup a = some (.hook k)) : loadHook m (some a) = .ok k := by
  rw [loadHook, load_eq h]

theorem loadFile_eq (h : m.lookup a = some .file) : loadFile m (some a) = .ok () := by
  rw [loadFile, load_eq h]

theorem packetBytes_eq {p : Packet} (h : ¬ p.length < 8) :
    packetBytes p = .ok (p.data.take (p.length.toUInt64 - 8).toNat) := if_neg h

theorem divides_eq {r : MetaReq} (h : r.chunk ≠ 0) : divides r = .ok () := if_neg h

theorem OwnsCtx.not_mem (h : OwnsCtx m p c S) (ha : m.lookup a = some x) (hx : ¬ x.Listed) :
    a ∉ S := fun hmem => by
  obtain ⟨b, c₀, T, -, hb, hstores, rfl⟩ := h.stores
  rcases Finset.mem_insert.mp hmem with rfl | hmem
  · rw [ha] at hb
    obtain rfl := Option.some.inj hb
    exact hx trivial
  · obtain ⟨s, next, hs⟩ := hstores.segment hmem
    rw [ha] at hs
    obtain rfl := Option.some.inj hs
    exact hx trivial

theorem OwnsCtx.frame (h : OwnsCtx m p c S) (hmoves : Moves m m' T T') (hdisjoint : Disjoint T S) :
    OwnsCtx m' p c S ∧ Disjoint T' S := by
  obtain ⟨hsame, hdisjoint'⟩ := hmoves.frame (fun _ hb => h.lt hb) hdisjoint
  exact ⟨h.congr hsame, hdisjoint'⟩

theorem OwnsOptional.not_mem (h : OwnsOptional m p S o) (ha : m.lookup a = some x)
    (hx : ¬ x.Listed) : a ∉ S := by
  cases o with
  | none =>
    rw [h.2]
    exact Finset.notMem_empty a
  | some c => exact OwnsCtx.not_mem h ha hx

theorem OwnsOptional.congr (h : OwnsOptional m p S o) (hsame : ∀ a ∈ S, m'.lookup a = m.lookup a) :
    OwnsOptional m' p S o := by
  cases o with
  | none => exact h
  | some c => exact OwnsCtx.congr h hsame

theorem OwnsOptional.lt (h : OwnsOptional m p S o) (ha : a ∈ S) : a < m.next := by
  cases o with
  | none =>
    rw [h.2] at ha
    exact absurd ha (Finset.notMem_empty a)
  | some c => exact OwnsCtx.lt h ha

theorem OwnsOptional.frame (h : OwnsOptional m p S o) (hmoves : Moves m m' T T')
    (hdisjoint : Disjoint T S) :
    OwnsOptional m' p S o ∧ Disjoint T' S := by
  obtain ⟨hsame, hdisjoint'⟩ := hmoves.frame (fun _ hb => h.lt hb) hdisjoint
  exact ⟨h.congr hsame, hdisjoint'⟩

/-- What is not merged was not there. -/
theorem OwnsOptional.eq_none_iff (h : OwnsOptional m p S o) : p = none ↔ o = none := by
  cases o with
  | none => exact iff_of_true h.1 rfl
  | some c =>
    obtain ⟨b, -, -, rfl, -⟩ := OwnsCtx.stores h
    simp

/-- `free_segments`, of what may be null. -/
theorem OwnsOptional.freeSegments_spec (h : OwnsOptional m p S o)
    (hcur : ∀ c ∈ o, ∀ s, c.cur ≠ .own s) :
    ∃ m', freeSegments m p = .ok m' ∧ Moves m m' S ∅ := by
  cases o with
  | none =>
    obtain ⟨rfl, rfl⟩ := h
    exact ⟨m, rfl, .refl m _⟩
  | some c => exact Mem.freeSegments_spec h (hcur c rfl)

theorem HookCells.not_mem (h : HookCells m a k ctx S R) : a ∉ S ∪ R := by
  rw [Finset.mem_union, not_or]
  exact ⟨h.segments.not_mem h.cell id, h.receivedSegments.not_mem h.cell id⟩

theorem HookCells.congr (h : HookCells m a k ctx S R)
    (hsame : ∀ b ∈ insert a (S ∪ R), m'.lookup b = m.lookup b) :
    HookCells m' a k ctx S R := by
  refine ⟨?_, h.lastPacketTs, ?_, ?_, h.disjoint⟩
  · rw [hsame a (Finset.mem_insert_self ..), h.cell]
  · exact h.segments.congr fun b hb =>
      hsame b (Finset.mem_insert_of_mem (Finset.mem_union_left _ hb))
  · exact h.receivedSegments.congr fun b hb =>
      hsame b (Finset.mem_insert_of_mem (Finset.mem_union_right _ hb))

theorem HookCells.lt (h : HookCells m a k ctx S R) {b : ℕ} (hb : b ∈ insert a (S ∪ R)) :
    b < m.next := by
  rcases Finset.mem_insert.mp hb with rfl | hb
  · exact lt_of_lookup h.cell
  · rcases Finset.mem_union.mp hb with hb | hb
    · exact h.segments.lt hb
    · exact h.receivedSegments.lt hb

theorem OwnsHook.congr {h : Option HookCtx} (howns : OwnsHook m p q S h)
    (hsame : ∀ a ∈ S, m'.lookup a = m.lookup a) :
    OwnsHook m' p q S h := by
  cases h with
  | none => exact howns
  | some ctx =>
    obtain ⟨a, k, T, R, hp, hcells, hq, rfl⟩ := howns
    exact ⟨a, k, T, R, hp, hcells.congr hsame, hq, rfl⟩

theorem OwnsHook.lt {h : Option HookCtx} (howns : OwnsHook m p q S h) (ha : a ∈ S) :
    a < m.next := by
  cases h with
  | none =>
    obtain ⟨-, -, rfl⟩ := howns
    exact absurd ha (Finset.notMem_empty a)
  | some ctx =>
    obtain ⟨b, k, T, R, -, hcells, -, rfl⟩ := howns
    exact hcells.lt ha

/-- A file is none of its cells. -/
theorem OwnsHook.file_not_mem {h : Option HookCtx} (howns : OwnsHook m p q S h)
    (ha : m.lookup a = some .file) :
    a ∉ S := by
  cases h with
  | none =>
    obtain ⟨-, -, rfl⟩ := howns
    exact Finset.notMem_empty a
  | some ctx =>
    obtain ⟨b, k, T, R, -, hcells, -, rfl⟩ := howns
    simp only [Finset.mem_insert, Finset.mem_union, not_or]
    refine ⟨?_, hcells.segments.not_mem ha id, hcells.receivedSegments.not_mem ha id⟩
    rintro rfl
    rw [hcells.cell] at ha
    cases ha

/-! ### What a hook does to its cells -/

/-- The cell of a hook context is written. -/
theorem HookCells.put (h : HookCells m a k ctx S R) (ts : UInt32) (q : Option ℕ) :
    HookCells (m.put a (some (.hook { k with lastPacketTs := ts, output := q }))) a
        { k with lastPacketTs := ts, output := q } { ctx with lastPacketTs := ts } S R ∧
      Moves m (m.put a (some (.hook { k with lastPacketTs := ts, output := q }))) (insert a (S ∪ R))
        (insert a (S ∪ R)) := by
  have hput : Moves m (m.put a (some (.hook { k with lastPacketTs := ts, output := q }))) {a} {a} :=
    moves_put (Finset.mem_singleton_self a) _
  have hnot := h.not_mem
  rw [Finset.mem_union, not_or] at hnot
  refine ⟨⟨lookup_put_self h.cell _, rfl, ?_, ?_, h.disjoint⟩,
    moves_put (Finset.mem_insert_self ..) _⟩
  · exact (h.segments.frame hput (by simpa using hnot.1)).1
  · exact (h.receivedSegments.frame hput (by simpa using hnot.2)).1

/-- Its `output` is written. -/
theorem HookCells.putOutput (h : HookCells m a k ctx S R) (q : Option ℕ) :
    HookCells (m.put a (some (.hook { k with output := q }))) a { k with output := q } ctx S R ∧
      Moves m (m.put a (some (.hook { k with output := q }))) (insert a (S ∪ R))
      (insert a (S ∪ R)) := by
  have hput := h.put k.lastPacketTs q
  have hsame : ({ ctx with lastPacketTs := k.lastPacketTs } : HookCtx) = ctx := by
    rw [h.lastPacketTs]
  rwa [hsame] at hput

/-- The segments that are being received change. -/
theorem HookCells.change (h : HookCells m a k ctx S R) (hmoves : Moves m m' S S')
    (hsegments : OwnsCtx m' k.segments c' S') :
    HookCells m' a k { ctx with segments := c' } S' R ∧ Moves m m' (insert a (S ∪ R))
    (insert a (S' ∪ R)) := by
  obtain ⟨hcell, -⟩ := hmoves.keeps h.cell (h.segments.not_mem h.cell id)
  obtain ⟨hreceived, hdisjoint⟩ := h.receivedSegments.frame hmoves h.disjoint
  have hwide := hmoves.widen (insert a R)
  rw [Finset.union_insert, Finset.union_insert] at hwide
  exact ⟨⟨hcell, h.lastPacketTs, hsegments, hreceived, hdisjoint⟩, hwide⟩

/-- What is used for a while is freed again. -/
theorem HookCells.rest (h : HookCells m a k ctx S R) (hmoves : Moves m m' ∅ ∅) :
    HookCells m' a k ctx S R ∧ Moves m m' (insert a (S ∪ R)) (insert a (S ∪ R)) := by
  have hwide := hmoves.widen (insert a (S ∪ R))
  rw [Finset.empty_union] at hwide
  obtain ⟨hsame, -⟩ :=
    hmoves.frame (fun _ hb => h.lt hb) (Finset.disjoint_empty_left (insert a (S ∪ R)))
  exact ⟨h.congr hsame, hwide⟩

/-- A session with a pointer, and the session it stands for in the model without pointers. -/
structure Stands (m : Mem) (s : SessionPtr) (t : Session) (output : Option ℕ) (S : Finset ℕ) :
    Prop where
  /-- The fields. -/
  session : s.session = { t with hookCtx := none }
  /-- The hook context. -/
  hook : OwnsHook m s.hook output S t.hookCtx

/-- The cells of a session that has a hook context. -/
theorem Stands.cells (h : Stands m s t q S) (hctx : t.hookCtx = some ctx) :
    ∃ a k T R, s.hook = some a ∧ HookCells m a k ctx T R ∧ k.output = q ∧ S = insert a (T ∪ R) := by
  have hhook := h.hook
  rwa [hctx] at hhook

theorem startHook_spec (h : Stands m s t q S) (d : Disk) :
    ∃ m' s' S', startHook m s = .ok (m', s') ∧
    Stands m' s' (LibDtp.apmOnStart t d).1 q S' ∧ Moves m m' S S' := by
  cases hctx : t.hookCtx with
  | some ctx =>
    obtain ⟨a, k, T, R, ha, hcells, hq, rfl⟩ := h.cells hctx
    refine ⟨m, s, _, by rw [startHook, ha], ⟨by rw [h.session]; rfl, ?_⟩, .refl m _⟩
    simp only [LibDtp.apmOnStart, hctx, Option.getD_some]
    exact ⟨a, k, T, R, ha, hcells, hq, rfl⟩
  | none =>
    have hhook := h.hook
    rw [hctx] at hhook
    obtain ⟨hnone, rfl, rfl⟩ := hhook
    have hm₁ : Moves m (m.push (.hook ⟨0, none, none, none⟩)) ∅ {m.next} := moves_push m _ ∅
    have hcell : (m.push (.hook ⟨0, none, none, none⟩)).lookup m.next =
      some (.hook ⟨0, none, none, none⟩) :=
      lookup_push_self m _
    have hnext : (m.push (.hook ⟨0, none, none, none⟩)).next = m.next + 1 := next_push m _
    obtain ⟨howns, hm₂⟩ := ownsCtx_init (m.push (.hook ⟨0, none, none, none⟩))
    obtain ⟨hcell', hne⟩ := hm₂.keeps hcell (Finset.notMem_empty _)
    rw [hnext] at howns hm₂ hne
    have hput : Moves ((m.push (.hook ⟨0, none, none, none⟩)).push (.ctx initSegmentsCtx))
        (((m.push (.hook ⟨0, none, none, none⟩)).push (.ctx initSegmentsCtx)).put m.next
          (some (.hook ⟨0, some (m.next + 1), none, none⟩))) {m.next} {m.next} :=
      moves_put (Finset.mem_singleton_self m.next) _
    obtain ⟨hsegments, -⟩ := howns.frame hput (Finset.disjoint_singleton_left.mpr hne)
    have hwide₂ := hm₂.widen {m.next}
    have hwide₃ := hput.widen {m.next + 1}
    rw [Finset.empty_union, Finset.union_comm] at hwide₂
    refine ⟨_, { s with hook := some m.next }, _, ?_, ⟨?_, ?_⟩, hm₁.trans (hwide₂.trans hwide₃)⟩
    · simp only [startHook, hnone, alloc, next_push, store_eq hcell', bind, Except.bind]
      rfl
    · simp only [h.session]
      rfl
    · simp only [LibDtp.apmOnStart, hctx, Option.getD_none]
      exact ⟨m.next, _, {m.next + 1}, ∅, rfl,
        ⟨lookup_put_self hcell' _, rfl, hsegments, ⟨rfl, rfl⟩, Finset.disjoint_empty_right _⟩, rfl,
          rfl⟩

/-- The file that is opened is a new cell. -/
theorem openOutput_spec (h : Stands m s t q S) (hctx : t.hookCtx = some ctx) :
    ∃ m', openOutput m s.hook true = .ok m' ∧ Stands m' s t (some m.next) S ∧
      m'.lookup m.next = some .file ∧
      Moves m m' S (insert m.next S) := by
  obtain ⟨a, k, T, R, ha, hcells, -, rfl⟩ := h.cells hctx
  have hpush : Moves m (m.push .file) ∅ {m.next} := moves_push m _ ∅
  have hwide := hpush.widen (insert a (T ∪ R))
  rw [Finset.empty_union] at hwide
  obtain ⟨hsame, hdisjoint⟩ :=
    hpush.frame (fun _ hb => hcells.lt hb) (Finset.disjoint_empty_left (insert a (T ∪ R)))
  have hcells₁ := hcells.congr hsame
  obtain ⟨hcells₂, hput⟩ := hcells₁.putOutput (some m.next)
  have hfile : (m.push .file).lookup m.next = some .file := lookup_push_self m _
  obtain ⟨hfile', -⟩ := hput.keeps hfile (Finset.disjoint_singleton_left.mp hdisjoint)
  have hput' := hput.widen {m.next}
  rw [Finset.union_comm] at hput'
  refine ⟨_, ?_, ⟨h.session, ?_⟩, hfile', hwide.trans hput'⟩
  · simp only [openOutput, ha, loadHook_eq hcells.cell, alloc, store_eq hcells₁.cell, bind,
      Except.bind, if_true]
  · rw [hctx]
    exact ⟨a, _, T, R, ha, hcells₂, rfl, rfl⟩

/-- If there is none, nothing is opened. -/
theorem openOutput_fails (h : Stands m s t q S) (hctx : t.hookCtx = some ctx) :
    ∃ m', openOutput m s.hook false = .ok m' ∧ Stands m' s t none S ∧ Moves m m' S S := by
  obtain ⟨a, k, T, R, ha, hcells, -, rfl⟩ := h.cells hctx
  obtain ⟨hcells', hput⟩ := hcells.putOutput none
  refine ⟨_, ?_, ⟨h.session, ?_⟩, hput⟩
  · simp only [openOutput, ha, loadHook_eq hcells.cell, store_eq hcells.cell, bind, Except.bind]
    rfl
  · rw [hctx]
    exact ⟨a, _, T, R, ha, hcells', rfl, rfl⟩

/-- **`apm_on_data_packet`**, while the output file is open, for a packet with a header. -/
theorem apmOnDataPacket_spec (h : Stands m s t (some a) S) (hctx : t.hookCtx = some ctx) (d : Disk)
    (pkt : Packet) (now : UInt32) (hchunk : t.request.chunk ≠ 0) (hlength : ¬ pkt.length < 8)
    (hfile : m.lookup a = some .file)
    (hfirst : ctx.segments.started = false → ∀ s, ctx.segments.cur ≠ .own s)
    (hbroken : (LibDtp.updateSegments ctx.segments (packetSeq t.request pkt)).broken = false) :
    ∃ m' S', apmOnDataPacket m s d pkt now = .ok (m', (LibDtp.apmOnDataPacket t d pkt now).2) ∧
      Stands m' s (LibDtp.apmOnDataPacket t d pkt now).1 (some a) S' ∧ Moves m m' S S' := by
  have hnot := h.hook.file_not_mem hfile
  obtain ⟨b, k, T, R, hb, hcells, houtput, rfl⟩ := h.cells hctx
  have hrequest : s.session.request = t.request := by rw [h.session]
  have hbytes : s.session.bytesReceived = t.bytesReceived := by rw [h.session]
  have hsize : s.session.payloadSize = t.payloadSize := by rw [h.session]
  obtain ⟨ts, hts⟩ : ∃ ts, ts =
      if now - ctx.lastPacketTs > 150 ∨ t.bytesReceived = t.payloadSize then now
        else ctx.lastPacketTs := ⟨_, rfl⟩
  obtain ⟨hput, hmoves₁⟩ := hcells.put ts k.output
  obtain ⟨hfile₁, -⟩ := hmoves₁.keeps hfile hnot
  obtain ⟨m', T', hm', howns, hmoves₂⟩ := updateSegments_spec hput.segments hfirst hbroken
  obtain ⟨hcells', hmoves₃⟩ := hput.change hmoves₂ howns
  have hlist : LibDtp.apmOnDataPacket t d pkt now =
    ({ t with hookCtx := some ⟨ts, LibDtp.updateSegments ctx.segments
      (packetSeq t.request pkt), ctx.receivedSegments⟩ },
          (LibDtp.apmOnDataPacket t d pkt now).2) := by
    simp only [LibDtp.apmOnDataPacket, hctx, ← hts]
  refine ⟨m', _, ?_, ⟨?_, ?_⟩, hmoves₁.trans hmoves₃⟩
  · rw [houtput] at hfile₁ hm'
    simp only [apmOnDataPacket, hb, loadHook_eq hcells.cell, bind, Except.bind, hrequest,
      divides_eq hchunk, hbytes, hsize, hcells.lastPacketTs, ← hts, store_eq hcells.cell, houtput,
      loadFile_eq hfile₁, packetBytes_eq hlength, hm', LibDtp.apmOnDataPacket, hctx]
    rfl
  · rw [h.session, hlist]
  · rw [hlist]
    exact ⟨b, _, T', R, hb, hcells', houtput, rfl⟩

/-! ### The end of a transfer -/

/-- A hook context, with what was received in earlier sessions merged in. -/
def merged (ctx : HookCtx) : HookCtx :=
  match ctx.receivedSegments with
  | none => ctx
  | some received => { ctx with segments := LibDtp.mergeSegments ctx.segments received }

theorem mergeReceived_spec (h : HookCells m a k ctx S R) (hcur : ∀ s, ctx.segments.cur ≠ .own s) :
    ∃ m' k' T, mergeReceived m (some a) k = .ok (m', k'.segments) ∧ k'.output = k.output ∧
      HookCells m' a k' (merged ctx) T R ∧ Moves m m' (insert a (S ∪ R)) (insert a (T ∪ R)) := by
  have hreceived := h.receivedSegments
  cases ho : ctx.receivedSegments with
  | none =>
    rw [ho] at hreceived
    refine ⟨m, k, S, ?_, rfl, ?_, .refl m _⟩
    · rw [mergeReceived, if_pos hreceived.1]
    · simpa only [merged, ho] using h
  | some received =>
    rw [ho] at hreceived
    have hsome : k.receivedSegments ≠ none := fun hnone => by
      simpa [hnone] using hreceived.eq_none_iff
    obtain ⟨m₁, result, U, hm₁, howns, hmoves₁⟩ := mergeSegments_spec h.segments hreceived
    obtain ⟨hsegments₁, hdisjointU⟩ := h.segments.frame hmoves₁ (Finset.disjoint_empty_left S)
    obtain ⟨hreceived₁, hdisjointR⟩ :=
      OwnsOptional.frame (o := some received) hreceived hmoves₁ (Finset.disjoint_empty_left R)
    obtain ⟨hcell₁, hnotU⟩ := hmoves₁.keeps h.cell (Finset.notMem_empty a)
    obtain ⟨m₂, hm₂, hmoves₂⟩ := freeSegments_spec hsegments₁ hcur
    obtain ⟨howns₂, -⟩ := howns.frame hmoves₂ hdisjointU.symm
    obtain ⟨hreceived₂, -⟩ := hreceived₁.frame hmoves₂ h.disjoint
    obtain ⟨hcell₂, -⟩ := hmoves₂.keeps hcell₁ (h.segments.not_mem h.cell id)
    have hput : Moves m₂ (m₂.put a (some (.hook { k with segments := result }))) {a} {a} :=
      moves_put (Finset.mem_singleton_self a) _
    obtain ⟨howns₃, -⟩ := howns₂.frame hput (Finset.disjoint_singleton_left.mpr hnotU)
    obtain ⟨hreceived₃, -⟩ := hreceived₂.frame hput
      (Finset.disjoint_singleton_left.mpr (h.receivedSegments.not_mem h.cell id))
    have hmerged : merged ctx =
        ⟨ctx.lastPacketTs, LibDtp.mergeSegments ctx.segments received, some received⟩ := by
      simp only [merged, ho]
    rw [hmerged]
    refine ⟨_, { k with segments := result }, U, ?_, rfl,
      ⟨lookup_put_self hcell₂ _, h.lastPacketTs, howns₃, ?_, hdisjointR⟩, ?_⟩
    · simp only [mergeReceived, if_neg hsome, hm₁, hm₂, store_eq hcell₂, bind, Except.bind]
      rfl
    · exact hreceived₃
    · have hfirst := hmoves₁.widen (insert a (S ∪ R))
      have hsecond := hmoves₂.widen (insert a (U ∪ R))
      have hlast : Moves m₂ _ (insert a (U ∪ R)) (insert a (U ∪ R)) :=
        moves_put (Finset.mem_insert_self ..) (.hook { k with segments := result })
      have hboth : U ∪ insert a (S ∪ R) = S ∪ insert a (U ∪ R) := by
        rw [Finset.union_insert, Finset.union_insert, Finset.union_left_comm]
      rw [Finset.empty_union, hboth] at hfirst
      rw [Finset.empty_union] at hsecond
      exact hfirst.trans (hsecond.trans hlast)

/-- What is missing is computed, printed and freed. -/
theorem printMissing_spec (h : OwnsCtx m p c S) (hchunk : s.session.request.chunk ≠ 0) :
    ∃ m', printMissing m s p = .ok m' ∧ Moves m m' ∅ ∅ := by
  have hgo : ∀ stop, ∃ m₁ q m₂, getComplementSegment m p 0 stop = .ok (m₁, q) ∧
    (∃ c₀, loadCtx m₁ q = .ok c₀) ∧
      printSegments m₁ q = .ok () ∧ freeSegments m₁ q = .ok m₂ ∧ Moves m m₂ ∅ ∅ := fun stop => by
    obtain ⟨m₁, q, T, hm₁, howns, hcur, hmoves₁⟩ := getComplementSegment_spec h 0 stop
    obtain ⟨m₂, hm₂, hmoves₂⟩ := freeSegments_spec howns hcur
    obtain ⟨b, c₀, -, hb, hc₀, -⟩ := howns.stores
    exact ⟨m₁, q, m₂, hm₁,
      ⟨c₀, by rw [hb, loadCtx_eq hc₀]⟩, printSegments_spec howns, hm₂, hmoves₁.trans hmoves₂⟩
  simp only [printMissing]
  generalize (if s.session.payloadSize.toUInt64 % s.session.request.chunk ≠ 0 then _ else _) -
    (1 : UInt32) = stop
  obtain ⟨m₁, q, m₂, hm₁, ⟨c₀, hc₀⟩, hprint, hm₂, hmoves⟩ := hgo stop
  refine ⟨m₂, ?_, hmoves⟩
  simp only [divides_eq hchunk, hm₁, hc₀, hprint, bind, Except.bind]
  exact hm₂

theorem endSegments_spec (h : Stands m s t q S) (hctx : t.hookCtx = some ctx)
    (hg : Gathering ctx.segments) (hchunk : t.request.chunk ≠ 0) :
    ∃ k m' S', loadHook m s.hook = .ok k ∧ k.output = q ∧ endSegments m s k = .ok m' ∧
      Stands m' s (LibDtp.apmOnEnd t) q S' ∧ Moves m m' S S' := by
  obtain ⟨a, k, T, R, ha, hcells, hq, rfl⟩ := h.cells hctx
  obtain ⟨hbroken, hcur⟩ := hg.close
  obtain ⟨m₁, T₁, hm₁, howns₁, hclose⟩ := closeSegments_spec hcells.segments hbroken
  obtain ⟨hcells₁, hmoves₁⟩ := hcells.change hclose howns₁
  obtain ⟨b, c₀, -, hb, hc₀, -⟩ := howns₁.stores
  obtain ⟨m₂, k₂, T₂, hm₂, houtput, hcells₂, hmoves₂⟩ := mergeReceived_spec hcells₁ hcur
  obtain ⟨m₃, hm₃, hprint⟩ := printMissing_spec (s := s) hcells₂.segments (by rwa [h.session])
  obtain ⟨hcells₃, hmoves₃⟩ := hcells₂.rest hprint
  have hlist : LibDtp.apmOnEnd t =
      { t with hookCtx := some (merged { ctx with
          segments := LibDtp.closeSegments ctx.segments }) } := by
    cases ho : ctx.receivedSegments <;> simp only [LibDtp.apmOnEnd, hctx, merged, ho]
  refine ⟨k, m₃, _,
    by rw [ha, loadHook_eq hcells.cell], hq, ?_, ⟨?_, ?_⟩, hmoves₁.trans (hmoves₂.trans hmoves₃)⟩
  · have hload : loadCtx m₁ k.segments = .ok c₀ := by rw [hb, loadCtx_eq hc₀]
    simp only [endSegments, ha, hm₁, hload, printSegments_spec howns₁, hm₂, bind, Except.bind]
    exact hm₃
  · rw [h.session, hlist]
  · rw [hlist]
    exact ⟨a, k₂, T₂, R, ha, hcells₃, houtput.trans hq, rfl⟩

/-- **`apm_on_end`**, if no output file was opened. -/
theorem apmOnEnd_spec (h : Stands m s t none S) (hctx : t.hookCtx = some ctx)
    (hg : Gathering ctx.segments) (hchunk : t.request.chunk ≠ 0) :
    ∃ m' S', apmOnEnd m s = .ok m' ∧ Stands m' s (LibDtp.apmOnEnd t) none S' ∧ Moves m m' S S' := by
  obtain ⟨k, m', S', hk, hq, hm', hstands, hmoves⟩ := endSegments_spec h hctx hg hchunk
  refine ⟨m', S', ?_, hstands, hmoves⟩
  simp only [apmOnEnd, hk, closeOutput, hq, if_true, bind, Except.bind, hm']

/-- **`apm_on_end`**, if one was: it is closed. -/
theorem apmOnEnd_closes (h : Stands m s t (some a) S) (hctx : t.hookCtx = some ctx)
    (hg : Gathering ctx.segments) (hchunk : t.request.chunk ≠ 0) (hfile : m.lookup a = some .file) :
    ∃ m' S', apmOnEnd m s = .ok m' ∧ Stands m' s (LibDtp.apmOnEnd t) (some a) S' ∧
      Moves m m' (insert a S) S' := by
  have hnot := h.hook.file_not_mem hfile
  have hfree : Moves m (m.put a none) {a} ∅ := by
    have hfree := moves_free hfile (Finset.mem_singleton_self a)
    rwa [Finset.erase_singleton] at hfree
  obtain ⟨hsame, -⟩ :=
    hfree.frame (fun _ hb => h.hook.lt hb) (Finset.disjoint_singleton_left.mpr hnot)
  obtain ⟨b, k, T, R, hb, hcells, hq, -⟩ := h.cells hctx
  have hfreed : Stands (m.put a none) s t (some a) S := ⟨h.session, h.hook.congr hsame⟩
  obtain ⟨k', m', S', hk', -, hm', hstands, hmoves⟩ := endSegments_spec hfreed hctx hg hchunk
  have hwide := hfree.widen S
  rw [Finset.singleton_union, Finset.empty_union] at hwide
  have hne : b ≠ a := by
    rintro rfl
    rw [hcells.cell] at hfile
    cases hfile
  obtain rfl : k' = k := by
    rw [hb, loadHook_eq (by rw [lookup_put_ne hne, hcells.cell])] at hk'
    exact (Except.ok.inj hk').symm
  refine ⟨m', S', ?_, hstands, hwide.trans hmoves⟩
  have hsome : ¬ some a = none := by simp
  simp only [apmOnEnd, hb, loadHook_eq hcells.cell, closeOutput, hq, if_neg hsome,
    loadFile_eq hfile, free_eq hfile, bind, Except.bind, hm']

/-! ### Saving and reading back -/

theorem forEachSegment_collect (l l' : List Segment) (idx : ℕ) :
    LibDtp.forEachSegment (fun _ s l => (true, l ++ [s])) idx l l' = l' ++ l := by
  induction l generalizing l' idx with
  | nil => simp [LibDtp.forEachSegment]
  | cons s l ih => simp [LibDtp.forEachSegment, ih]

/-- **`apm_on_serialize`.** -/
theorem apmOnSerialize_spec (h : Stands m s t q S) (hctx : t.hookCtx = some ctx) (d : Disk) :
    apmOnSerialize host m s d = .ok (LibDtp.apmOnSerialize host t d) := by
  obtain ⟨a, k, T, R, ha, hcells, -, rfl⟩ := h.cells hctx
  obtain ⟨b, c₀, _, hb, hc₀, hstores, -⟩ := hcells.segments.stores
  have hload : loadCtx m k.segments = .ok c₀ := by rw [hb, loadCtx_eq hc₀]
  have hlist := forEachSegment_spec hcells.segments (fun _ s l => (true, l ++ [s])) []
  rw [forEachSegment_collect, List.nil_append] at hlist
  simp only [apmOnSerialize, ha, loadHook_eq hcells.cell, hload, hlist, bind, Except.bind, pure,
    Except.pure, LibDtp.apmOnSerialize, hctx, h.session, sessionBytes, hstores.nofSegments]

theorem cur_readSegments (n : ℕ) (c : SegmentsCtx) (f : List UInt8) :
    (LibDtp.readSegments host n c f).cur = c.cur := by
  induction n generalizing c f with
  | zero => rfl
  | succ n ih => exact ih _ _

theorem readSegments_spec (n : ℕ) (f : List UInt8) (h : OwnsCtx m p c S) (hcur : c.cur = .null) :
    ∃ m' S', readSegments host n m p f = .ok m' ∧ OwnsCtx m' p (LibDtp.readSegments host n c f) S' ∧
      Moves m m' S S' := by
  induction n generalizing m c S f with
  | zero => exact ⟨m, S, rfl, h, .refl m S⟩
  | succ n ih =>
    simp only [readSegments, LibDtp.readSegments]
    obtain ⟨m₁, S₁, hm₁, howns₁, hmoves₁⟩ :=
      addSegment_spec h hcur (fread32 host 0 f).1 (fread32 host 0 (fread32 host 0 f).2).1
    obtain ⟨m', S', hm', howns', hmoves'⟩ := ih (fread32 host 0 (fread32 host 0 f).2).2 howns₁ hcur
    rw [hm₁]
    exact ⟨m', S', hm', howns', hmoves₁.trans hmoves'⟩

theorem requestMissing_spec (h : OwnsCtx m p c S) {r r' : MetaReq} {payloadSize : UInt32}
    (hr : LibDtp.requestMissing r payloadSize c = .ok r') :
    ∃ m', requestMissing m r payloadSize p = .ok (m', r') ∧ Moves m m' ∅ ∅ := by
  obtain ⟨hchunk, rfl⟩ := requestMissing_of_ok hr
  obtain ⟨m₁, q, T, hm₁, howns, hcur, hmoves₁⟩ :=
    getComplementSegment_spec h 0 (payloadSize.toUInt64 / r.chunk).toUInt32
  obtain ⟨m₂, hm₂, hmoves₂⟩ := freeSegments_spec howns hcur
  obtain ⟨b, c₀, _, hb, hc₀, hstores, -⟩ := howns.stores
  have hload : loadCtx m₁ q = .ok c₀ := by rw [hb, loadCtx_eq hc₀]
  refine ⟨m₂, ?_, hmoves₁.trans hmoves₂⟩
  simp only [requestMissing, divides_eq hchunk, hm₁, hload, forEachSegment_spec howns, bind,
    Except.bind, pure, Except.pure, hstores.nofSegments, requestSegments]
  split <;> simp only [hm₂]

/-- What `apm_on_deserialize` allocates: the context of the segments in the file, the hook context,
and the context of those that will be received. -/
theorem readContexts_spec (m : Mem) (n : ℕ) (f : List UInt8) {r r' : MetaReq} {payloadSize : UInt32}
    (hr : LibDtp.requestMissing r payloadSize
      (LibDtp.readSegments host n LibDtp.initSegmentsCtx f) = .ok r') :
    ∃ m₃ m₄ m₅ S,
      readSegments host n ((m.push (.ctx initSegmentsCtx)).push (.hook ⟨0, none, none, none⟩))
      (some m.next) f =
        .ok m₃ ∧
      requestMissing m₃ r payloadSize (some m.next) = .ok (m₄, r') ∧
      (m₄.push (.ctx initSegmentsCtx)).store (some (m.next + 1))
      (.hook ⟨0, some m₄.next, some m.next, none⟩) =
        .ok m₅ ∧
      OwnsHook m₅ (some (m.next + 1)) none S
        (some ⟨0, LibDtp.initSegmentsCtx,
          some (LibDtp.readSegments host n LibDtp.initSegmentsCtx f)⟩) ∧
      Moves m m₅ ∅ S := by
  obtain ⟨howns₁, hmoves₁⟩ := ownsCtx_init m
  have hnext : (m.push (.ctx initSegmentsCtx)).next = m.next + 1 := next_push m _
  generalize m.push (.ctx initSegmentsCtx) = m₁ at howns₁ hmoves₁ hnext
  have hpush₂ : Moves m₁ (m₁.push (.hook ⟨0, none, none, none⟩)) ∅ {m₁.next} := moves_push m₁ _ ∅
  obtain ⟨howns₂, hne⟩ := howns₁.frame hpush₂ (Finset.disjoint_empty_left _)
  have hcell₂ : (m₁.push (.hook ⟨0, none, none, none⟩)).lookup m₁.next =
    some (.hook ⟨0, none, none, none⟩) :=
    lookup_push_self m₁ _
  generalize m₁.push (.hook ⟨0, none, none, none⟩) = m₂ at howns₂ hcell₂ hpush₂
  rw [hnext] at hcell₂ hne hpush₂
  obtain ⟨m₃, R, hm₃, hreceived₃, hmoves₃⟩ := readSegments_spec host n f howns₂ rfl
  obtain ⟨hcell₃, hnotR⟩ := hmoves₃.keeps hcell₂ (Finset.disjoint_singleton_left.mp hne)
  obtain ⟨m₄, hm₄, hmoves₄⟩ := requestMissing_spec hreceived₃ hr
  obtain ⟨hcell₄, -⟩ := hmoves₄.keeps hcell₃ (Finset.notMem_empty _)
  obtain ⟨hreceived₄, -⟩ := hreceived₃.frame hmoves₄ (Finset.disjoint_empty_left _)
  obtain ⟨howns₅, hmoves₅⟩ := ownsCtx_init m₄
  obtain ⟨hcell₅, hnot₅⟩ := hmoves₅.keeps hcell₄ (Finset.notMem_empty _)
  obtain ⟨hreceived₅, hdisjoint⟩ := hreceived₄.frame hmoves₅ (Finset.disjoint_empty_left _)
  have hput : Moves (m₄.push (.ctx initSegmentsCtx))
      ((m₄.push (.ctx initSegmentsCtx)).put (m.next + 1)
        (some (.hook ⟨0, some m₄.next, some m.next, none⟩)))
      {m.next + 1} {m.next + 1} := moves_put (Finset.mem_singleton_self _) _
  obtain ⟨howns₆, -⟩ := howns₅.frame hput (Finset.disjoint_singleton_left.mpr hnot₅)
  obtain ⟨hreceived₆, -⟩ := hreceived₅.frame hput (Finset.disjoint_singleton_left.mpr hnotR)
  refine ⟨m₃, m₄, _, _, hm₃, hm₄, store_eq hcell₅ _, ⟨m.next + 1, _, {m₄.next}, R, rfl,
    ⟨lookup_put_self hcell₅ _, rfl, howns₆, hreceived₆, hdisjoint⟩, rfl, rfl⟩, ?_⟩
  have hwide₂ := hpush₂.widen {m.next}
  have hwide₃ := hmoves₃.widen {m.next + 1}
  have hwide₄ := hmoves₄.widen (R ∪ {m.next + 1})
  have hwide₅ := hmoves₅.widen (R ∪ {m.next + 1})
  have hwide₆ := hput.widen ({m₄.next} ∪ R)
  rw [Finset.empty_union, Finset.union_comm] at hwide₂
  rw [Finset.empty_union] at hwide₄ hwide₅
  have hall : {m₄.next} ∪ (R ∪ {m.next + 1}) = {m.next + 1} ∪ ({m₄.next} ∪ R) := by
    rw [← Finset.union_assoc, Finset.union_comm]
  rw [hall] at hwide₅
  exact hmoves₁.trans (hwide₂.trans (hwide₃.trans (hwide₄.trans (hwide₅.trans hwide₆))))

theorem readSession_spec (h : Stands m s t q S) (hnone : t.hookCtx = none) {t' : Session}
    {f : List UInt8} (ht' : LibDtp.readSession host t f = .ok t') :
    ∃ m' s' S', readSession host m s f = .ok (m', s') ∧ Stands m' s' t' q S' ∧ Moves m m' S S' := by
  have hhook := h.hook
  rw [hnone] at hhook
  obtain ⟨-, rfl, rfl⟩ := hhook
  simp only [readSession, h.session, alloc, next_push]
  simp only [LibDtp.readSession] at ht'
  generalize fread16 host t.node f = node at ht' ⊢
  generalize fread16 host t.request.mtu node.2 = mtu at ht' ⊢
  generalize fread8 t.timeout mtu.2 = timeout at ht' ⊢
  generalize fread32 host t.request.throughput timeout.2 = throughput at ht' ⊢
  generalize fread8 t.request.payloadId throughput.2 = payloadId at ht' ⊢
  generalize fread32 host t.request.sessionId payloadId.2 = sessionId at ht' ⊢
  generalize fread32 host t.bytesReceived sessionId.2 = bytesReceived at ht' ⊢
  generalize fread32 host t.payloadSize bytesReceived.2 = payloadSize at ht' ⊢
  generalize fread32 host 0 payloadSize.2 = nofSegments at ht' ⊢
  obtain ⟨r, hr, ht'⟩ := exists_of_bind_eq_ok ht'
  obtain rfl := Except.ok.inj ht'
  obtain ⟨m₃, m₄, m₅, S', hm₃, hm₄, hm₅, howns, hmoves⟩ :=
    readContexts_spec host m nofSegments.1.toNat nofSegments.2 hr
  simp only [hm₃, hm₄, hm₅, bind, Except.bind]
  exact ⟨m₅, _, S', rfl, ⟨rfl, howns⟩, hmoves⟩

/-- **`apm_on_deserialize`**, for a session without a hook context. -/
theorem apmOnDeserialize_spec (h : Stands m s t q S) (hnone : t.hookCtx = none) {t' : Session}
    {d : Disk} (ht' : LibDtp.apmOnDeserialize host t d = .ok t') :
    ∃ m' s' S', apmOnDeserialize host m s d = .ok (m', s') ∧ Stands m' s' t' q S' ∧
      Moves m m' S S' := by
  simp only [apmOnDeserialize]
  simp only [LibDtp.apmOnDeserialize] at ht'
  cases hfile : d.metaFile with
  | none =>
    rw [hfile] at ht'
    obtain rfl := Except.ok.inj ht'
    exact ⟨m, _, S, rfl, ⟨by simp only [h.session], h.hook⟩, .refl m S⟩
  | some f =>
    rw [hfile] at ht'
    simp only at ht' ⊢
    split_ifs at ht' ⊢
    · obtain rfl := Except.ok.inj ht'
      exact ⟨m, s, S, rfl, h, .refl m S⟩
    · exact readSession_spec host h hnone ht'

/-- **`apm_on_release`.** -/
theorem apmOnRelease_spec (h : Stands m s t q S)
    (hcur : ∀ ctx ∈ t.hookCtx, (∀ s, ctx.segments.cur ≠ .own s) ∧ ∀ c ∈ ctx.receivedSegments, ∀ s,
      c.cur ≠ .own s) :
    ∃ m' s', apmOnRelease m s = .ok (m', s') ∧ Stands m' s' { t with hookCtx := none } none ∅ ∧
      Moves m m' S ∅ := by
  cases hctx : t.hookCtx with
  | none =>
    have hhook := h.hook
    rw [hctx] at hhook
    obtain ⟨hnone, rfl, rfl⟩ := hhook
    refine ⟨m, s, ?_, ⟨h.session, hnone, rfl, rfl⟩, .refl m _⟩
    rw [apmOnRelease, if_pos hnone]
    rfl
  | some ctx =>
    obtain ⟨a, k, T, R, ha, hcells, -, rfl⟩ := h.cells hctx
    obtain ⟨hcurT, hcurR⟩ := hcur ctx hctx
    obtain ⟨m₁, hm₁, hmoves₁⟩ := freeSegments_spec hcells.segments hcurT
    obtain ⟨hcell₁, -⟩ := hmoves₁.keeps hcells.cell (hcells.segments.not_mem hcells.cell id)
    obtain ⟨hreceived₁, -⟩ := hcells.receivedSegments.frame hmoves₁ hcells.disjoint
    have hput₂ : Moves m₁ (m₁.put a (some (.hook { k with segments := none }))) {a} {a} :=
      moves_put (Finset.mem_singleton_self a) _
    have hnotR := hcells.receivedSegments.not_mem hcells.cell id
    obtain ⟨hreceived₂, -⟩ := hreceived₁.frame hput₂ (Finset.disjoint_singleton_left.mpr hnotR)
    have hcell₂ := lookup_put_self hcell₁ (some (.hook { k with segments := none }))
    obtain ⟨m₃, hm₃, hmoves₃⟩ := hreceived₂.freeSegments_spec hcurR
    obtain ⟨hcell₃, -⟩ := hmoves₃.keeps hcell₂ hnotR
    have hput₄ : Moves m₃
      (m₃.put a (some (.hook { k with segments := none, receivedSegments := none }))) {a} {a} :=
      moves_put (Finset.mem_singleton_self a) _
    have hcell₄ :=
      lookup_put_self hcell₃ (some (.hook { k with segments := none, receivedSegments := none }))
    have hfree := moves_free hcell₄ (Finset.mem_singleton_self a)
    refine ⟨(m₃.put a (some (.hook { k with segments := none, receivedSegments := none }))).put a
      none,
      { s with hook := none }, ?_, ⟨h.session, rfl, rfl, rfl⟩, ?_⟩
    · have hsome : ¬ some a = (none : Option ℕ) := by simp
      simp only [apmOnRelease, ha, hsome, if_false, loadHook_eq hcells.cell, hm₁, store_eq hcell₁,
        hm₃, store_eq hcell₃, free_eq hcell₄, bind, Except.bind]
      rfl
    · have hfirst := hmoves₁.widen (insert a R)
      have hthird := hmoves₃.widen {a}
      have hsecond := hput₂.widen R
      rw [Finset.union_insert, Finset.empty_union] at hfirst
      rw [Finset.singleton_union] at hsecond
      rw [Finset.union_singleton, Finset.empty_union] at hthird
      rw [Finset.erase_singleton] at hfree
      exact hfirst.trans (hsecond.trans (hthird.trans (hput₄.trans hfree)))

end Specs

end Mem

end LibDtp

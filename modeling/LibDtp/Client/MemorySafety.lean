import LibDtp.Client.HookMemory
import LibDtp.Client.MetaFile

/-!
# Memory safety of the client

Any number of sessions that share the memory of a client, whose hooks are called in any order.

## The model

`SessionCall` is a call of a hook for a session, or anything else that is done to the fields of a
session. `Phase` is how far a session is, and which calls the client makes then: a session may be
read from its meta file before its transfer starts, the packets of the transfer come between its
start and its end, and only if its output file could be opened, and it is released when no transfer
is going on. Once a transfer has started, a session may be saved at any time.

`SessionFiles` is a session of the model without pointers, with what is known of its output file. A
call divides by the size of a chunk, or not, there too, and a packet has a header, or not.

`ClientMem` is the memory and the sessions. `Shared` says that each session stands for a session of
the model without pointers, that no two of them share a cell, and that every cell belongs to one.

## What is proved

* `hooks_memory_safe` — no call fails that returns in the model without pointers, every session is
  what its own calls make of it, and no cell belongs to two sessions, or to none.
* `transfer_follows` — what `dtp_start_transfer` does to a session is a sequence of such calls.
-/

namespace LibDtp

open Heaps Heaps.Heap Bytes Runs

/-- What is done to a session. -/
inductive SessionCall where
  /-- `apm_on_deserialize`. -/
  | deserialize
  /-- `apm_on_start`; does `fopen` succeed? -/
  | start (opens : Bool)
  /-- `apm_on_data_packet`. -/
  | packet (p : Packet) (now : UInt32)
  /-- `apm_on_end`. -/
  | finish
  /-- `apm_on_serialize`. -/
  | serialize
  /-- `apm_on_release`. -/
  | release
  /-- The fields are written, except for `hook_ctx`. -/
  | fields (s : Session)
  /-- The files are written by somebody else. -/
  | files (d : Disk)

/-- What `output` of a hook context is. -/
inductive OutputFile where
  /-- A null pointer, or there is no hook context. -/
  | null
  /-- A file that is open. -/
  | opened
  /-- A file that has been closed. -/
  | closed
  deriving DecidableEq, Repr

/-- A session and its files. -/
structure SessionFiles where
  /-- The session. -/
  session : Session
  /-- What is in its files. -/
  disk : Disk
  /-- Its output file. -/
  output : OutputFile
  /-- How many times its output file has been opened and not closed. -/
  unclosed : ℕ

/-- A call, in the model without pointers. -/
def SessionFiles.call (host : ByteOrder) (x : SessionFiles) :
    SessionCall → Except Fault SessionFiles
  | .deserialize => do
    let s ← apmOnDeserialize host x.session x.disk
    return { x with session := s }
  | .start true =>
    let (s, d) := apmOnStart x.session x.disk
    .ok ⟨s, d, .opened, x.unclosed + 1⟩
  | .start false => .ok ⟨(apmOnStart x.session x.disk).1, x.disk, .null, x.unclosed⟩
  | .packet p now =>
    if x.session.request.chunk = 0 then .error .divByZero
    else if p.length < 8 then .error .outOfRange
    else
      let (s, d) := apmOnDataPacket x.session x.disk p now
      .ok { x with session := s, disk := d }
  | .finish =>
    if x.session.request.chunk = 0 then .error .divByZero
    else if x.output = .opened then .ok ⟨apmOnEnd x.session, x.disk, .closed, x.unclosed - 1⟩
    else .ok { x with session := apmOnEnd x.session }
  | .serialize => .ok { x with disk := apmOnSerialize host x.session x.disk }
  | .release => .ok { x with session := { x.session with hookCtx := none }, output := .null }
  | .fields s => .ok { x with session := { s with hookCtx := x.session.hookCtx } }
  | .files d => .ok { x with disk := d }

/-- Some calls. -/
def SessionFiles.calls (host : ByteOrder) (x : SessionFiles) (cs : List SessionCall) :
    Except Fault SessionFiles :=
  cs.foldlM (SessionFiles.call host) x

/-- A call, with its pointers. -/
def Mem.call (host : ByteOrder) (m : Mem) (s : SessionPtr × Disk) :
    SessionCall → Except HeapFault (Mem × SessionPtr × Disk)
  | .deserialize => do
    let (m, t) ← m.apmOnDeserialize host s.1 s.2
    return (m, t, s.2)
  | .start opens => m.apmOnStart s.1 s.2 opens
  | .packet p now => do
    let (m, d) ← m.apmOnDataPacket s.1 s.2 p now
    return (m, s.1, d)
  | .finish => do
    let m ← m.apmOnEnd s.1
    return (m, s.1, s.2)
  | .serialize => do
    let d ← m.apmOnSerialize host s.1 s.2
    return (m, s.1, d)
  | .release => do
    let (m, t) ← m.apmOnRelease s.1
    return (m, t, s.2)
  | .fields t => return (m, ⟨{ t with hookCtx := none }, s.1.hook⟩, s.2)
  | .files d => return (m, s.1, d)

/-- How far a session is. -/
inductive Phase where
  /-- It has been released, or never been used. -/
  | idle
  /-- It has been read from the meta file, if there is one. -/
  | ready
  /-- A transfer has started, without an output file. -/
  | unopened
  /-- A transfer has started, and no packet has come. -/
  | started
  /-- There have been packets. -/
  | receiving
  /-- The transfer has ended. -/
  | ended
  deriving DecidableEq, Repr

/-- How far it is after a call, if the client makes that call. -/
def Phase.next : Phase → SessionCall → Option Phase
  | ph, .fields _ => some ph
  | ph, .files _ => some ph
  | .idle, .deserialize => some .ready
  | .idle, .start opens => some (if opens then .started else .unopened)
  | .ready, .start opens => some (if opens then .started else .unopened)
  | .started, .packet _ _ => some .receiving
  | .receiving, .packet _ _ => some .receiving
  | .unopened, .finish => some .ended
  | .started, .finish => some .ended
  | .receiving, .finish => some .ended
  | .unopened, .serialize => some .unopened
  | .started, .serialize => some .started
  | .receiving, .serialize => some .receiving
  | .ended, .serialize => some .ended
  | .idle, .release => some .idle
  | .ready, .release => some .idle
  | .unopened, .release => some .idle
  | .started, .release => some .idle
  | .ended, .release => some .idle
  | _, _ => none

/-- How far a session is after some calls. -/
def Phase.after (ph : Phase) (calls : List SessionCall) : Option Phase := calls.foldlM Phase.next ph

/-- The memory of a client and its sessions. -/
structure ClientMem (ι : Type) where
  /-- The memory. -/
  mem : Mem
  /-- The sessions, each with what is in its files. -/
  sessions : ι → SessionPtr × Disk

section Clients

variable {ι : Type} [DecidableEq ι] (host : ByteOrder)

/-- A call for one of the sessions. -/
def ClientMem.call (c : ClientMem ι) (x : ι × SessionCall) : Except HeapFault (ClientMem ι) := do
  let (m, s) ← c.mem.call host (c.sessions x.1) x.2
  return ⟨m, Function.update c.sessions x.1 s⟩

/-- Some calls. -/
def ClientMem.run (c : ClientMem ι) (calls : List (ι × SessionCall)) :
    Except HeapFault (ClientMem ι) :=
  calls.foldlM (ClientMem.call host) c

/-- How far the sessions are after some calls, if the client makes these calls. -/
def followAll (φ : ι → Phase) (calls : List (ι × SessionCall)) : Option (ι → Phase) :=
  calls.foldlM (fun φ x => ((φ x.1).next x.2).map (Function.update φ x.1)) φ

/-- The calls for one session. -/
def callsOf (i : ι) (calls : List (ι × SessionCall)) : List SessionCall :=
  (calls.filter (·.1 = i)).map Prod.snd

end Clients

/-! ### What a session has in a phase -/

/-- Its output file. -/
def Phase.Output : Phase → OutputFile → Prop
  | .started, o => o = .opened
  | .receiving, o => o = .opened
  | .ended, o => o ≠ .opened
  | _, o => o = .null

/-- A segment that is not in the list yet is there only while packets come. -/
structure Phase.Holds (ph : Phase) (x : SessionFiles) : Prop where
  /-- There is nothing before there is a session. -/
  idle : ph = .idle → x.session.hookCtx = none
  /-- There is a hook context from the start on. -/
  hooked : ph ≠ .idle → ph ≠ .ready → x.session.hookCtx.isSome
  /-- Until the end the segments are those of one transfer. -/
  gathering : ph ≠ .ended → ∀ k ∈ x.session.hookCtx, Mem.Gathering k.segments
  /-- Between transfers everything is in the list. -/
  closed : ph ≠ .receiving → ∀ k ∈ x.session.hookCtx, ∀ s, k.segments.cur ≠ .own s
  /-- What was received earlier is in its list. -/
  received : ∀ k ∈ x.session.hookCtx, ∀ c ∈ k.receivedSegments, ∀ s, c.cur ≠ .own s
  /-- The output file is open while packets may come. -/
  output : ph.Output x.output

section Calls

variable (host : ByteOrder) {ph ph' : Phase} {s t : Session} {d : Disk} {x y : SessionFiles}

/-- Nothing has been done for a session yet. -/
structure SessionFiles.Unused (x : SessionFiles) : Prop where
  /-- It has no hook context. -/
  hookCtx : x.session.hookCtx = none
  /-- Its output file is not open. -/
  output : x.output = .null
  /-- And it has never been. -/
  unclosed : x.unclosed = 0

theorem Phase.holds_idle (hctx : x.session.hookCtx = none) (houtput : x.output = .null) :
    Phase.idle.Holds x :=
  ⟨fun _ => hctx, by simp, by simp [hctx], by simp [hctx], by simp [hctx], houtput⟩

/-- Only the hook context and the output file matter. -/
theorem Phase.Holds.congr (h : ph.Holds x) (hctx : y.session.hookCtx = x.session.hookCtx)
    (houtput : y.output = x.output) : ph.Holds y := by
  obtain ⟨hidle, hhooked, hgathering, hclosed, hreceived, hfile⟩ := h
  rw [← hctx] at hidle hhooked hgathering hclosed hreceived
  rw [← houtput] at hfile
  exact ⟨hidle, hhooked, hgathering, hclosed, hreceived, hfile⟩

/-- What is read from the meta file is in the list of what was received earlier. -/
theorem hookCtx_apmOnDeserialize (h : apmOnDeserialize host s d = .ok t) : t.hookCtx = s.hookCtx ∨
    ∃ received, t.hookCtx = some ⟨0, initSegmentsCtx, some received⟩ ∧ received.cur = .null := by
  simp only [apmOnDeserialize] at h
  cases hfile : d.metaFile with
  | none =>
    rw [hfile] at h
    obtain rfl := Except.ok.inj h
    exact .inl rfl
  | some f =>
    rw [hfile] at h
    simp only at h
    split_ifs at h
    · obtain rfl := Except.ok.inj h
      exact .inl rfl
    · obtain ⟨r, -, h⟩ := exists_of_bind_eq_ok h
      obtain rfl := Except.ok.inj h
      exact .inr ⟨_, rfl, Mem.cur_readSegments host _ _ _⟩

theorem Phase.Holds.deserialize (h : Phase.idle.Holds x)
    (ht : apmOnDeserialize host x.session x.disk = .ok t) :
    Phase.ready.Holds { x with session := t } := by
  rcases hookCtx_apmOnDeserialize host ht with hctx | ⟨received, hctx, hcur⟩
  · rw [h.idle rfl] at hctx
    exact ⟨by simp, by simp, by simp [hctx], by simp [hctx], by simp [hctx], h.output⟩
  · refine ⟨by simp, by simp, fun _ k hk => ?_, fun _ k hk s => ?_, fun k hk c hc s => ?_, h.output⟩
    all_goals obtain rfl := Option.some.inj (hctx.symm.trans hk)
    · exact Mem.gathering_init
    · simp [initSegmentsCtx]
    · obtain rfl := Option.some.inj hc
      simp [hcur]

/-- A phase in which a transfer may start. -/
def Phase.Ready (ph : Phase) : Prop := ph = .idle ∨ ph = .ready

/-- A phase in which a transfer may end. -/
def Phase.Running (ph : Phase) : Prop := ph = .unopened ∨ ph = .started ∨ ph = .receiving

theorem Phase.Holds.start (h : ph.Holds x) (hph : ph.Ready) {opens : Bool}
    (hx : x.call host (.start opens) = .ok y) :
    (if opens then Phase.started else Phase.unopened).Holds y := by
  have hgathering := h.gathering (by rcases hph with rfl | rfl <;> simp)
  have hclosed := h.closed (by rcases hph with rfl | rfl <;> simp)
  have hctx : ∀ k ∈ (apmOnStart x.session x.disk).1.hookCtx, Mem.Gathering k.segments ∧
      (∀ s, k.segments.cur ≠ .own s) ∧ ∀ c ∈ k.receivedSegments, ∀ s, c.cur ≠ .own s := by
    intro k hk
    cases hctx : x.session.hookCtx with
    | none =>
      rw [apmOnStart, hctx] at hk
      obtain rfl := Option.some.inj hk
      exact ⟨Mem.gathering_init, by simp [initSegmentsCtx], by simp⟩
    | some ctx =>
      rw [apmOnStart, hctx] at hk
      obtain rfl := Option.some.inj hk
      exact ⟨hgathering ctx hctx, hclosed ctx hctx, h.received ctx hctx⟩
  cases opens with
  | true =>
    obtain rfl := Except.ok.inj hx
    exact ⟨by simp, by simp, fun _ k hk => (hctx k hk).1, fun _ k hk => (hctx k hk).2.1,
      fun k hk => (hctx k hk).2.2, rfl⟩
  | false =>
    obtain rfl := Except.ok.inj hx
    exact ⟨by simp, by simp [apmOnStart], fun _ k hk => (hctx k hk).1,
      fun _ k hk => (hctx k hk).2.1, fun k hk => (hctx k hk).2.2, rfl⟩

theorem SessionFiles.call_packet {p : Packet} {now : UInt32}
    (h : x.call host (.packet p now) = .ok y) :
    x.session.request.chunk ≠ 0 ∧ ¬ p.length < 8 ∧ y = { x with
      session := (apmOnDataPacket x.session x.disk p now).1
      disk := (apmOnDataPacket x.session x.disk p now).2 } := by
  rw [SessionFiles.call] at h
  split_ifs at h with hchunk hlength
  exact ⟨hchunk, hlength, (Except.ok.inj h).symm⟩

theorem Phase.Holds.packet (h : ph.Holds x) (hph : ph = .started ∨ ph = .receiving) {p : Packet}
    {now : UInt32} (hx : x.call host (.packet p now) = .ok y) : Phase.receiving.Holds y := by
  obtain ⟨ctx, hctx⟩ :=
    Option.isSome_iff_exists.mp (h.hooked (by rcases hph with rfl | rfl <;> simp)
    (by rcases hph with rfl | rfl <;> simp))
  have hg := h.gathering (by rcases hph with rfl | rfl <;> simp) ctx hctx
  have houtput : x.output = .opened := by rcases hph with rfl | rfl <;> exact h.output
  have hreceived := h.received ctx hctx
  obtain ⟨-, -, rfl⟩ := SessionFiles.call_packet host hx
  simp only [apmOnDataPacket, hctx]
  refine ⟨by simp, by simp, fun _ k hk => ?_, by simp, fun k hk => ?_, houtput⟩
  · obtain rfl := Option.some.inj hk
    exact hg.update _ _
  · obtain rfl := Option.some.inj hk
    exact hreceived

theorem SessionFiles.call_finish (h : x.call host .finish = .ok y) :
    x.session.request.chunk ≠ 0 ∧ y.session = apmOnEnd x.session ∧ y.disk = x.disk ∧
      (x.output = .opened ∧ y.output = .closed ∧ y.unclosed = x.unclosed - 1 ∨
        x.output ≠ .opened ∧ y.output = x.output ∧ y.unclosed = x.unclosed) := by
  rw [SessionFiles.call] at h
  split_ifs at h with hchunk hopened
  · obtain rfl := Except.ok.inj h
    exact ⟨hchunk, rfl, rfl, .inl ⟨hopened, rfl, rfl⟩⟩
  · obtain rfl := Except.ok.inj h
    exact ⟨hchunk, rfl, rfl, .inr ⟨hopened, rfl, rfl⟩⟩

theorem Phase.Holds.finish (h : ph.Holds x) (hph : ph.Running) (hx : x.call host .finish = .ok y) :
    Phase.ended.Holds y := by
  obtain ⟨ctx, hctx⟩ :=
    Option.isSome_iff_exists.mp (h.hooked (by rcases hph with rfl | rfl | rfl <;> simp)
    (by rcases hph with rfl | rfl | rfl <;> simp))
  have hg := h.gathering (by rcases hph with rfl | rfl | rfl <;> simp) ctx hctx
  have hreceived := h.received ctx hctx
  obtain ⟨-, hclosed⟩ := hg.close
  obtain ⟨-, hsession, -, houtput⟩ := SessionFiles.call_finish host hx
  have hy : y.output ≠ .opened := by
    rcases houtput with ⟨-, hy, -⟩ | ⟨hne, hy, -⟩
    · simp [hy]
    · rwa [hy]
  cases ho : ctx.receivedSegments with
  | none =>
    have hk' : y.session.hookCtx = some { ctx with segments := closeSegments ctx.segments } := by
      simp only [hsession, apmOnEnd, hctx, ho]
    refine ⟨by simp, by simp [hk'], by simp, fun _ k hk => ?_, fun k hk => ?_, hy⟩
    all_goals obtain rfl := Option.some.inj (hk'.symm.trans hk)
    · exact hclosed
    · simp [ho]
  | some received =>
    have hk' : y.session.hookCtx =
        some { ctx with segments := mergeSegments (closeSegments ctx.segments) received } := by
      simp only [hsession, apmOnEnd, hctx, ho]
    refine ⟨by simp, by simp [hk'], by simp, fun _ k hk => ?_, fun k hk => ?_, hy⟩
    all_goals obtain rfl := Option.some.inj (hk'.symm.trans hk)
    · exact Mem.mergeSegments_closed _ _
    · simpa [ho] using hreceived

end Calls

/-! ### What a session owns -/

/-- A session with pointers, and the one it stands for: `T` are the cells of its hook context, and
`F` the files that have been opened for it and not closed. -/
structure Mem.Holds (m : Mem) (p : SessionPtr × Disk) (x : SessionFiles) (q : Option ℕ)
    (T F : Finset ℕ) : Prop where
  /-- The session. -/
  session : m.Stands p.1 x.session q T
  /-- What is in its files. -/
  disk : p.2 = x.disk
  /-- The files that are open. -/
  file : ∀ a ∈ F, m.lookup a = some .file
  /-- How many they are. -/
  card : F.card = x.unclosed
  /-- `output` is null. -/
  null : x.output = .null → q = none
  /-- `output` is one of the files that are open. -/
  opened : x.output = .opened → ∃ a ∈ F, q = some a

/-- A session and its files stand for those of the model without pointers. -/
def Mem.StandsFor (m : Mem) (p : SessionPtr × Disk) (x : SessionFiles) (S : Finset ℕ) : Prop :=
  ∃ q T F, m.Holds p x q T F ∧ S = T ∪ F

section Owned

variable (host : ByteOrder) {ph ph' : Phase} {m m' : Mem} {p : SessionPtr × Disk}
  {x y : SessionFiles} {q : Option ℕ} {S T T' F : Finset ℕ} {a : ℕ} {call : SessionCall}

theorem Mem.Holds.disjoint (h : m.Holds p x q T F) : Disjoint T F :=
  Finset.disjoint_right.mpr fun _ ha => h.session.hook.file_not_mem (h.file _ ha)

theorem Mem.Holds.lt (h : m.Holds p x q T F) (ha : a ∈ T ∪ F) : a < m.next := by
  rcases Finset.mem_union.mp ha with ha | ha
  · exact h.session.hook.lt ha
  · exact lt_of_lookup (h.file a ha)

theorem Mem.StandsFor.lt (h : m.StandsFor p x S) (ha : a ∈ S) : a < m.next := by
  obtain ⟨q, T, F, h, rfl⟩ := h
  exact h.lt ha

theorem Mem.StandsFor.congr (h : m.StandsFor p x S) (hsame : ∀ a ∈ S, m'.lookup a = m.lookup a) :
    m'.StandsFor p x S := by
  obtain ⟨q, T, F, h, rfl⟩ := h
  refine ⟨q, T, F, ⟨⟨h.session.session, ?_⟩, h.disk, fun a ha => ?_, h.card, h.null, h.opened⟩, rfl⟩
  · exact h.session.hook.congr fun a ha => hsame a (Finset.mem_union_left F ha)
  · rw [hsame a (Finset.mem_union_right T ha), h.file a ha]

/-- What is done to the hook context leaves the files open that are. -/
theorem Mem.Holds.rest (h : m.Holds p x q T F) (hmoves : Moves m m' T T') :
    (∀ a ∈ F, m'.lookup a = some .file) ∧ Moves m m' (T ∪ F) (T' ∪ F) := by
  obtain ⟨hsame, -⟩ := hmoves.frame (fun a ha => lt_of_lookup (h.file a ha)) h.disjoint
  exact ⟨fun a ha => by rw [hsame a ha, h.file a ha], hmoves.widen F⟩

/-- A call that neither opens nor closes the output file. -/
theorem Mem.Holds.keep (h : m.Holds p x q T F) (hmoves : Moves m m' T T') {s : SessionPtr}
    {t : Session} {d : Disk} (hstands : m'.Stands s t q T') :
    m'.StandsFor (s, d) { x with session := t, disk := d } (T' ∪ F) ∧ Moves m m' (T ∪ F)
    (T' ∪ F) := by
  obtain ⟨hfile, hwide⟩ := h.rest hmoves
  exact ⟨⟨q, T', F, ⟨hstands, rfl, hfile, h.card, h.null, h.opened⟩, rfl⟩, hwide⟩

theorem Mem.call_start_spec (h : m.Holds p x q T F) {opens : Bool}
    (hx : x.call host (.start opens) = .ok y) :
    ∃ m' p' S', m.call host p (.start opens) = .ok (m', p') ∧ m'.StandsFor p' y S' ∧
      Moves m m' (T ∪ F) S' := by
  obtain ⟨p, dp⟩ := p
  obtain rfl : dp = x.disk := h.disk
  obtain ⟨m₁, p₁, T₁, hm₁, hstands₁, hmoves₁⟩ := startHook_spec h.session x.disk
  have hbytes₁ : p₁.session.bytesReceived = x.session.bytesReceived := by rw [hstands₁.session]; rfl
  obtain ⟨hfile₁, hwide₁⟩ := h.rest hmoves₁
  have hctx : (LibDtp.apmOnStart x.session x.disk).1.hookCtx =
      some (x.session.hookCtx.getD ⟨0, LibDtp.initSegmentsCtx, none⟩) := rfl
  cases opens with
  | true =>
    obtain rfl := Except.ok.inj hx
    obtain ⟨m₂, hm₂, hstands₂, hopened, hmoves₂⟩ := openOutput_spec hstands₁ hctx
    have hnew : m₁.next ∉ F := fun hmem => absurd (lt_of_lookup (hfile₁ _ hmem)) (lt_irrefl _)
    have hdisjoint : Disjoint T₁ F :=
      Finset.disjoint_right.mpr fun _ ha => hstands₁.hook.file_not_mem (hfile₁ _ ha)
    obtain ⟨hsame, -⟩ := hmoves₂.frame (fun a ha => lt_of_lookup (hfile₁ a ha)) hdisjoint
    have hwide₂ := hmoves₂.widen F
    have hall : insert m₁.next T₁ ∪ F = T₁ ∪ insert m₁.next F := by
      rw [Finset.insert_union, Finset.union_insert]
    rw [hall] at hwide₂
    refine ⟨m₂, (p₁, (LibDtp.apmOnStart x.session x.disk).2), _, ?_,
      ⟨some m₁.next, T₁, insert m₁.next F,
        ⟨hstands₂, rfl, ?_, ?_, by simp, fun _ => ⟨_, by simp, rfl⟩⟩, rfl⟩,
      hwide₁.trans hwide₂⟩
    · simp only [Mem.call, Mem.apmOnStart, hm₁, hm₂, bind, Except.bind, hbytes₁, LibDtp.apmOnStart]
      split_ifs <;> simp_all [pure, Except.pure]
    · simp only [Finset.mem_insert, forall_eq_or_imp]
      exact ⟨hopened, fun a ha => by rw [hsame a ha, hfile₁ a ha]⟩
    · rw [Finset.card_insert_of_notMem hnew, h.card]
  | false =>
    obtain rfl := Except.ok.inj hx
    obtain ⟨m₂, hm₂, hstands₂, hmoves₂⟩ := openOutput_fails hstands₁ hctx
    have hdisjoint : Disjoint T₁ F :=
      Finset.disjoint_right.mpr fun _ ha => hstands₁.hook.file_not_mem (hfile₁ _ ha)
    obtain ⟨hsame, -⟩ := hmoves₂.frame (fun a ha => lt_of_lookup (hfile₁ a ha)) hdisjoint
    refine ⟨m₂, (p₁, x.disk), _, ?_,
      ⟨none, T₁, F, ⟨hstands₂, rfl, ?_, h.card, fun _ => rfl, by simp⟩, rfl⟩,
      hwide₁.trans (hmoves₂.widen F)⟩
    · simp [Mem.call, Mem.apmOnStart, hm₁, hm₂, bind, Except.bind, pure, Except.pure]
    · exact fun a ha => by rw [hsame a ha, hfile₁ a ha]

theorem Mem.call_packet_spec (h : m.Holds p x q T F) (hph : ph.Holds x)
    (hbefore : ph = .started ∨ ph = .receiving) {pkt : Packet} {now : UInt32}
    (hx : x.call host (.packet pkt now) = .ok y) :
    ∃ m' p' S', m.call host p (.packet pkt now) = .ok (m', p') ∧ m'.StandsFor p' y S' ∧
      Moves m m' (T ∪ F) S' := by
  obtain ⟨p, dp⟩ := p
  obtain rfl : dp = x.disk := h.disk
  obtain ⟨hchunk, hlength, rfl⟩ := SessionFiles.call_packet host hx
  have houtput : x.output = .opened := by rcases hbefore with rfl | rfl <;> exact hph.output
  obtain ⟨ctx, hctx⟩ :=
    Option.isSome_iff_exists.mp (hph.hooked (by rcases hbefore with rfl | rfl <;> simp)
    (by rcases hbefore with rfl | rfl <;> simp))
  have hg := hph.gathering (by rcases hbefore with rfl | rfl <;> simp) ctx hctx
  obtain ⟨a, ha, hq⟩ := h.opened houtput
  have hstands := h.session
  rw [hq] at hstands
  obtain ⟨m', S', hm', hstands', hmoves⟩ :=
    apmOnDataPacket_spec hstands hctx x.disk pkt now hchunk hlength (h.file a ha) hg.first
      (hg.update _ _).broken
  rw [← hq] at hstands'
  obtain ⟨hkept, hwide⟩ := h.keep hmoves hstands'
  refine ⟨m', (p, _), _, ?_, hkept, hwide⟩
  simp only [Mem.call, hm', bind, Except.bind]
  rfl

theorem Mem.call_finish_spec (h : m.Holds p x q T F) (hph : ph.Holds x) (hbefore : ph.Running)
    (hx : x.call host .finish = .ok y) :
    ∃ m' p' S', m.call host p .finish = .ok (m', p') ∧ m'.StandsFor p' y S' ∧
      Moves m m' (T ∪ F) S' := by
  obtain ⟨p, dp⟩ := p
  obtain rfl : dp = x.disk := h.disk
  obtain ⟨hchunk, hsession, hdisk, hclosed⟩ := SessionFiles.call_finish host hx
  obtain ⟨ctx, hctx⟩ :=
    Option.isSome_iff_exists.mp (hph.hooked (by rcases hbefore with rfl | rfl | rfl <;> simp)
    (by rcases hbefore with rfl | rfl | rfl <;> simp))
  have hg := hph.gathering (by rcases hbefore with rfl | rfl | rfl <;> simp) ctx hctx
  have hstands := h.session
  rcases hclosed with ⟨hopened, houtput, hunclosed⟩ | ⟨hopened, houtput, hunclosed⟩
  · obtain ⟨a, ha, hq⟩ := h.opened hopened
    rw [hq] at hstands
    obtain ⟨m', S', hm', hstands', hmoves⟩ := apmOnEnd_closes hstands hctx hg hchunk (h.file a ha)
    have hdisjoint : Disjoint (insert a T) (F.erase a) := by
      rw [Finset.disjoint_insert_left]
      exact ⟨Finset.notMem_erase a F, h.disjoint.mono_right (Finset.erase_subset a F)⟩
    obtain ⟨hsame, -⟩ :=
      hmoves.frame (fun b hb => lt_of_lookup (h.file b (Finset.mem_of_mem_erase hb))) hdisjoint
    have hwide := hmoves.widen (F.erase a)
    rw [Finset.insert_union, ← Finset.union_insert, Finset.insert_erase ha] at hwide
    refine ⟨m', (p, x.disk), _, ?_,
      ⟨some a, S', F.erase a, ⟨?_, hdisk.symm, fun b hb => ?_, ?_, ?_, ?_⟩, rfl⟩, hwide⟩
    · simp only [Mem.call, hm', bind, Except.bind]
      rfl
    · rwa [hsession]
    · rw [hsame b hb, h.file b (Finset.mem_of_mem_erase hb)]
    · rw [Finset.card_erase_of_mem ha, h.card, hunclosed]
    · simp [houtput]
    · simp [houtput]
  · have hnull : x.output = .null := by
      rcases hbefore with rfl | rfl | rfl
      · exact hph.output
      · exact absurd hph.output hopened
      · exact absurd hph.output hopened
    have hq := h.null hnull
    rw [hq] at hstands
    obtain ⟨m', S', hm', hstands', hmoves⟩ := apmOnEnd_spec hstands hctx hg hchunk
    rw [← hq] at hstands'
    obtain ⟨hfile, hwide⟩ := h.rest hmoves
    refine ⟨m', (p, x.disk), _, ?_, ⟨q, S', F, ⟨?_, hdisk.symm, hfile, ?_, fun _ => hq, ?_⟩, rfl⟩,
      hwide⟩
    · simp only [Mem.call, hm', bind, Except.bind]
      rfl
    · rwa [hsession]
    · rw [h.card, hunclosed]
    · simp [houtput, hnull]

theorem Mem.call_deserialize_spec (h : m.Holds p x q T F) (hph : Phase.idle.Holds x)
    (hx : x.call host .deserialize = .ok y) :
    ∃ m' p' S', m.call host p .deserialize = .ok (m', p') ∧ m'.StandsFor p' y S' ∧
      Phase.ready.Holds y ∧ Moves m m' (T ∪ F) S' := by
  obtain ⟨p, dp⟩ := p
  obtain rfl : dp = x.disk := h.disk
  obtain ⟨t, ht, hy⟩ := exists_of_bind_eq_ok hx
  obtain rfl := Except.ok.inj hy
  obtain ⟨m', p', S', hm', hstands, hmoves⟩ :=
    apmOnDeserialize_spec host h.session (hph.idle rfl) ht
  obtain ⟨hkept, hwide⟩ := h.keep (d := x.disk) hmoves hstands
  refine ⟨m', (p', x.disk), _, ?_, hkept, hph.deserialize host ht, hwide⟩
  simp only [Mem.call, hm', bind, Except.bind]
  rfl

theorem Mem.call_release_spec (h : m.Holds p x q T F) (hph : ph.Holds x) (hbefore : ph ≠ .receiving)
    (hx : x.call host .release = .ok y) :
    ∃ m' p' S', m.call host p .release = .ok (m', p') ∧ m'.StandsFor p' y S' ∧
      Phase.idle.Holds y ∧ Moves m m' (T ∪ F) S' := by
  obtain ⟨p, dp⟩ := p
  obtain rfl : dp = x.disk := h.disk
  obtain rfl := Except.ok.inj hx
  obtain ⟨m', p', hm', hstands, hmoves⟩ :=
    apmOnRelease_spec h.session fun ctx hctx =>
      ⟨hph.closed hbefore ctx hctx, hph.received ctx hctx⟩
  obtain ⟨hfile, hwide⟩ := h.rest hmoves
  refine ⟨m', (p', x.disk), _, ?_,
    ⟨none, ∅, F, ⟨hstands, rfl, hfile, h.card, fun _ => rfl, by simp⟩, rfl⟩,
    Phase.holds_idle rfl rfl, hwide⟩
  simp only [Mem.call, hm', bind, Except.bind]
  rfl

/-- **A call** does what the model without pointers says. -/
theorem Mem.call_spec (h : m.StandsFor p x S) (hph : ph.Holds x) (hnext : ph.next call = some ph')
    (hx : x.call host call = .ok y) :
    ∃ m' p' S', m.call host p call = .ok (m', p') ∧ m'.StandsFor p' y S' ∧ ph'.Holds y ∧
      Moves m m' S S' := by
  obtain ⟨q, T, F, h, rfl⟩ := h
  obtain ⟨p, dp⟩ := p
  obtain rfl : dp = x.disk := h.disk
  cases call with
  | deserialize =>
    obtain ⟨rfl, rfl⟩ : ph = .idle ∧ ph' = .ready := by cases ph <;> simp_all [Phase.next]
    exact Mem.call_deserialize_spec host h hph hx
  | start opens =>
    obtain ⟨hbefore, rfl⟩ : ph.Ready ∧ ph' = if opens then .started else .unopened := by
      cases ph <;> simp_all [Phase.next, Phase.Ready]
    obtain ⟨m', p', S', hm', hstands, hmoves⟩ := Mem.call_start_spec host h hx
    exact ⟨m', p', S', hm', hstands, hph.start host hbefore hx, hmoves⟩
  | packet pkt now =>
    obtain ⟨hbefore, rfl⟩ : (ph = .started ∨ ph = .receiving) ∧ ph' = .receiving := by
      cases ph <;> simp_all [Phase.next]
    obtain ⟨m', p', S', hm', hstands, hmoves⟩ := Mem.call_packet_spec host h hph hbefore hx
    exact ⟨m', p', S', hm', hstands, hph.packet host hbefore hx, hmoves⟩
  | finish =>
    obtain ⟨hbefore, rfl⟩ : ph.Running ∧ ph' = .ended := by
      cases ph <;> simp_all [Phase.next, Phase.Running]
    obtain ⟨m', p', S', hm', hstands, hmoves⟩ := Mem.call_finish_spec host h hph hbefore hx
    exact ⟨m', p', S', hm', hstands, hph.finish host hbefore hx, hmoves⟩
  | serialize =>
    have hbefore : ph ≠ .idle ∧ ph ≠ .ready := by constructor <;> rintro rfl <;>
      simp [Phase.next] at hnext
    obtain rfl : ph' = ph := by cases ph <;> simp_all [Phase.next]
    obtain ⟨ctx, hctx⟩ := Option.isSome_iff_exists.mp (hph.hooked hbefore.1 hbefore.2)
    obtain rfl := Except.ok.inj hx
    obtain ⟨hkept, hwide⟩ := h.keep (.refl m T) h.session
    refine ⟨m, (p, _), _, ?_, hkept, hph.congr rfl rfl, hwide⟩
    simp only [Mem.call, apmOnSerialize_spec host h.session hctx, bind, Except.bind]
    rfl
  | release =>
    obtain rfl : ph' = .idle := by cases ph <;> simp_all [Phase.next]
    have hbefore : ph ≠ .receiving := by
      rintro rfl
      simp [Phase.next] at hnext
    exact Mem.call_release_spec host h hph hbefore hx
  | fields t =>
    obtain rfl : ph' = ph := by cases ph <;> simp_all [Phase.next]
    obtain rfl := Except.ok.inj hx
    obtain ⟨hkept, hwide⟩ := h.keep (.refl m T) (s := ⟨{ t with hookCtx := none }, p.hook⟩)
      (d := x.disk) (t := { t with hookCtx := x.session.hookCtx }) ⟨rfl, h.session.hook⟩
    exact ⟨m, _, _, rfl, hkept, hph.congr rfl rfl, hwide⟩
  | files d =>
    obtain rfl : ph' = ph := by cases ph <;> simp_all [Phase.next]
    obtain rfl := Except.ok.inj hx
    obtain ⟨hkept, hwide⟩ := h.keep (.refl m T) h.session
    exact ⟨m, _, _, rfl, hkept, hph.congr rfl rfl, hwide⟩

end Owned

/-! ### Runs -/

section Sessions

variable {ι : Type} (host : ByteOrder) {x y : ι → SessionFiles} {calls : List (ι × SessionCall)}
  {φ φ' : ι → Phase}

/-- A client whose sessions have never been used. -/
def ClientMem.initial (x : ι → SessionFiles) : ClientMem ι :=
  ⟨Heap.empty, fun i => (⟨{ (x i).session with hookCtx := none }, none⟩, (x i).disk)⟩

theorem shared_initial (hx : ∀ i, (x i).Unused) :
    Shared Mem.StandsFor (ClientMem.initial x).mem (ClientMem.initial x).sessions x fun _ => ∅ := by
  refine ⟨fun i => ⟨none, ∅, ∅, ⟨⟨rfl, ?_⟩, rfl, by simp, ?_, fun _ => rfl, ?_⟩, rfl⟩,
    fun _ _ _ => Finset.disjoint_empty_left _, fun a y hy => by cases hy⟩
  · rw [(hx i).hookCtx]
    exact ⟨rfl, rfl, rfl⟩
  · exact (hx i).unclosed.symm
  · simp [(hx i).output]

variable [DecidableEq ι]

theorem callsOf_cons (i j : ι) (call : SessionCall) (calls : List (ι × SessionCall)) :
    callsOf j ((i, call) :: calls) = if i = j then call :: callsOf j calls
      else callsOf j calls := by
  by_cases hij : i = j
  · simp [callsOf, hij]
  · simp [callsOf, hij]

theorem SessionFiles.calls_cons {x y : SessionFiles} {call : SessionCall} {cs : List SessionCall}
    (h : x.calls host (call :: cs) = .ok y) :
    ∃ x', x.call host call = .ok x' ∧ x'.calls host cs = .ok y := by
  rw [SessionFiles.calls, List.foldlM_cons] at h
  exact exists_of_bind_eq_ok h

/-- **A run**: it goes through, and every session is what its own calls make of it. -/
theorem runs_spec {c : ClientMem ι} {own : ι → Finset ℕ}
    (hs : Shared Mem.StandsFor c.mem c.sessions x own) (hph : ∀ i, (φ i).Holds (x i))
    (hfollow : followAll φ calls = some φ')
    (hcalls : ∀ i, (x i).calls host (callsOf i calls) = .ok (y i)) :
    ∃ c' own', c.run host calls = .ok c' ∧ Shared Mem.StandsFor c'.mem c'.sessions y own' ∧
      ∀ i, (φ' i).Holds (y i) := by
  induction calls generalizing c x own φ with
  | nil =>
    obtain rfl : φ = φ' := Option.some.inj hfollow
    obtain rfl : x = y := funext fun i => Except.ok.inj (hcalls i)
    exact ⟨c, own, rfl, hs, hph⟩
  | cons z calls ih =>
    obtain ⟨i, call⟩ := z
    rw [followAll, List.foldlM_cons] at hfollow
    obtain ⟨φ₁, hφ₁, hrest⟩ := Option.bind_eq_some_iff.mp hfollow
    obtain ⟨ph, hnext, rfl⟩ := Option.map_eq_some_iff.mp hφ₁
    have hfirst := hcalls i
    rw [callsOf_cons, if_pos rfl] at hfirst
    obtain ⟨x', hx', hcalls'⟩ := SessionFiles.calls_cons host hfirst
    obtain ⟨m, p, S, hm, hstands, hholds, hmoves⟩ :=
      Mem.call_spec host (hs.stands i) (hph i) hnext hx'
    have hshared :=
      @Shared.step _ _ _ _ Mem.StandsFor _ _ _ _ _ _ Mem.StandsFor.lt Mem.StandsFor.congr hs
      _ _ _ _ hmoves hstands
    obtain ⟨c', own', hc', hshared', hph'⟩ := @ih _ _ ⟨m, Function.update c.sessions i p⟩ _ hshared
        (fun j => by
      by_cases hij : j = i
      · subst hij
        simpa using hholds
      · simpa [hij] using hph j) hrest (fun j => by
      by_cases hij : j = i
      · subst hij
        simpa using hcalls'
      · have hother := hcalls j
        rw [callsOf_cons, if_neg (Ne.symm hij)] at hother
        simpa [hij] using hother)
    refine ⟨c', own', ?_, hshared', hph'⟩
    simp only [ClientMem.run, List.foldlM_cons, ClientMem.call, hm, bind, Except.bind, pure,
      Except.pure]
    exact hc'

/-- **The hooks are memory safe**: whatever the client calls for its sessions, and in whatever order
the calls come, none of them fails that returns in the model without pointers; every session is what
its own calls make of it there; and no cell belongs to two sessions, or to none. -/
theorem hooks_memory_safe (hx : ∀ i, (x i).Unused)
    (hfollow : followAll (fun _ => .idle) calls = some φ)
    (hcalls : ∀ i, (x i).calls host (callsOf i calls) = .ok (y i)) :
    ∃ c own, (ClientMem.initial x).run host calls = .ok c ∧
      Shared Mem.StandsFor c.mem c.sessions y own ∧
      ∀ i, (φ i).Holds (y i) :=
  runs_spec host (shared_initial hx)
    (fun i => Phase.holds_idle (hx i).hookCtx (hx i).output) hfollow hcalls

/-- What a session that has been released owns: the files that were not closed. -/
theorem Mem.StandsFor.idle {m : Mem} {p : SessionPtr × Disk} {x : SessionFiles} {S : Finset ℕ}
    (h : m.StandsFor p x S) (hph : Phase.idle.Holds x) :
    S.card = x.unclosed ∧ ∀ a ∈ S, m.lookup a = some .file := by
  obtain ⟨q, T, F, h, rfl⟩ := h
  have hhook := h.session.hook
  rw [hph.idle rfl] at hhook
  obtain ⟨-, -, rfl⟩ := hhook
  rw [Finset.empty_union]
  exact ⟨h.card, h.file⟩

end Sessions

/-! ### Transfers -/

/-- The hooks that are called for an event at the receiver, and the fields that are written before.
-/
def RecvState.hookCalls (s : RecvState) (e : RecvEvent) : List SessionCall :=
  match s.result with
  | some _ => []
  | none =>
    match e with
    | .stop => [.fields { s.session with active := false }]
    | .timeout => [.fields s.onTimeout.session]
    | .packet p _ hookNow =>
      if packetSeq s.session.request p = s.prevPacketSeq then []
      else
        [.fields { s.session with
          bytesReceived := (s.session.bytesReceived.toUInt64 + (p.length.toUInt64 - 8)).toUInt32 },
          .packet p hookNow]

/-- The hooks that are called for some events. -/
def RecvState.allHookCalls (s : RecvState) : List RecvEvent → List SessionCall
  | [] => []
  | e :: es => s.hookCalls e ++ (s.step e).allHookCalls es

/-- The hooks that `start_receiving_data` calls; does `fopen` succeed? -/
def receiveCalls (E : ErrorTest) (s : Session) (d : Disk) (bind : Bool) (now : UInt32)
    (es : List RecvEvent) (opens : Bool) : List SessionCall :=
  let received := if bind then
      match enterReceive E s d now with
      | .ok t => t.allHookCalls es ++ [.finish]
      | .error _ => []
    else []
  .start opens :: .fields { (apmOnStart s d).1 with active := true } :: received

/-- The hooks that `dtp_start_transfer` calls. -/
def transferCalls (E : ErrorTest) (env : TransferEnv) (s : Session) (d : Disk) (es : List RecvEvent)
    (opens : Bool) :
    List SessionCall :=
  if env.connect then
    if env.buffer then
      match env.response with
      | none => [.fields { s with errno := .connectionFailed }]
      | some resp =>
        .fields { s with payloadSize := resp.totalPayloadSize } ::
          receiveCalls E { s with payloadSize := resp.totalPayloadSize } d env.bind env.now es opens
    else []
  else [.fields { s with errno := .connectionFailed }]

/-- Does `start_receiving_data` leave its output file open? -/
def receiveLeaves (bind opens : Bool) : ℕ := if bind = false ∧ opens = true then 1 else 0

/-- Does `dtp_start_transfer` leave its output file open? -/
def transferLeaves (env : TransferEnv) (opens : Bool) : ℕ :=
  if env.connect = true ∧ env.buffer = true ∧ env.response.isSome then receiveLeaves env.bind opens
    else 0

/-- What arrives can be written: packets come only if the output file could be opened, and they
have a header. -/
def Writable (opens : Bool) (es : List RecvEvent) : Prop :=
  ∀ p ∈ packetsOf es, opens = true ∧ ¬ p.length < 8

instance (opens : Bool) (es : List RecvEvent) : Decidable (Writable opens es) :=
  inferInstanceAs (Decidable (∀ p ∈ packetsOf es, _))

/-- A phase in which a receiver waits. -/
def Phase.Waits (ph : Phase) (opens : Bool) : Prop :=
  opens = true ∧ (ph = .started ∨ ph = .receiving) ∨ opens = false ∧ ph = .unopened

/-- Some calls take a session from one phase to another. -/
structure SessionFiles.Goes (host : ByteOrder) (ph : Phase) (x : SessionFiles)
    (cs : List SessionCall) (ph' : Phase) (y : SessionFiles) : Prop where
  /-- The client may make these calls. -/
  follows : ph.after cs = some ph'
  /-- What they do. -/
  calls : x.calls host cs = .ok y

/-- A session that the hooks have made, and the receiver that has called them. -/
structure SessionFiles.Tracks (x : SessionFiles) (s : RecvState) (opens : Bool) (n : ℕ) : Prop where
  /-- The session. -/
  session : x.session = s.session
  /-- Its files, if the output file could be opened. -/
  disk : opens = true → x.disk = s.disk
  /-- The output file. -/
  output : x.output = if opens then .opened else .null
  /-- How many files are open. -/
  unclosed : x.unclosed = n
  /-- A division by the size of a chunk has a result. -/
  chunk : s.session.request.chunk ≠ 0

/-- What a transfer leaves: it has returned an error, or the session has come to its end. -/
structure Phase.Left (ph : Phase) (res : DtpResult) : Prop where
  /-- The session can be released. -/
  releasable : ph.next .release = some .idle
  /-- It has come to its end. -/
  ended : res ≠ .err → ph = .ended

section Transfers

variable (host : ByteOrder) {ph ph₁ ph₂ : Phase} {x x₁ x₂ : SessionFiles}
  {cs cs₁ cs₂ : List SessionCall} {E : ErrorTest} {s : RecvState} {e : RecvEvent}
  {es : List RecvEvent} {opens : Bool} {n : ℕ}

theorem Writable.tail (h : Writable opens (e :: es)) : Writable opens es := fun p hp => by
  refine h p ?_
  cases e with
  | packet q now hookNow => exact List.mem_cons_of_mem _ hp
  | stop => exact hp
  | timeout => exact hp

theorem SessionFiles.goes_nil (ph : Phase) (x : SessionFiles) : x.Goes host ph [] ph x := ⟨rfl, rfl⟩

theorem SessionFiles.Goes.append (h : x.Goes host ph cs₁ ph₁ x₁)
    (h' : x₁.Goes host ph₁ cs₂ ph₂ x₂) :
    x.Goes host ph (cs₁ ++ cs₂) ph₂ x₂ := by
  refine ⟨?_, ?_⟩
  · rw [Phase.after, List.foldlM_append]
    exact Option.bind_eq_some_iff.mpr ⟨ph₁, h.follows, h'.follows⟩
  · rw [SessionFiles.calls, List.foldlM_append]
    have hfirst := h.calls
    rw [SessionFiles.calls] at hfirst
    rw [hfirst]
    exact h'.calls

theorem SessionFiles.Goes.cons {call : SessionCall} (hnext : ph.next call = some ph₁)
    (hx : x.call host call = .ok x₁) (h : x₁.Goes host ph₁ cs ph₂ x₂) :
    x.Goes host ph (call :: cs) ph₂ x₂ := by
  refine ⟨?_, ?_⟩
  · rw [Phase.after, List.foldlM_cons]
    exact Option.bind_eq_some_iff.mpr ⟨ph₁, hnext, h.follows⟩
  · rw [SessionFiles.calls, List.foldlM_cons, hx]
    exact h.calls

theorem Phase.next_fields (ph : Phase) (t : Session) : ph.next (.fields t) = some ph := by
  cases ph <;> rfl

/-- The fields of a session are written. -/
theorem SessionFiles.goes_fields (ph : Phase) (x : SessionFiles) (t : Session) :
    x.Goes host ph [.fields t] ph { x with session := { t with hookCtx := x.session.hookCtx } } :=
  (SessionFiles.goes_nil host ph _).cons host (ph.next_fields t) rfl

theorem SessionFiles.Tracks.fields (h : x.Tracks s opens n) {t : RecvState}
    (hctx : t.session.hookCtx = s.session.hookCtx)
    (hrequest : t.session.request = s.session.request) (hdisk : t.disk = s.disk) :
    SessionFiles.Tracks { x with
      session := { t.session with hookCtx := x.session.hookCtx } } t opens n := by
  refine ⟨?_, fun ho => (h.disk ho).trans hdisk.symm, h.output, h.unclosed, ?_⟩
  · simp only [h.session, ← hctx]
  · rw [hrequest]
    exact h.chunk

theorem request_apmOnDataPacket (s : Session) (d : Disk) (p : Packet) (now : UInt32) :
    (apmOnDataPacket s d p now).1.request = s.request := by
  unfold apmOnDataPacket
  split <;> rfl

/-- One event at the receiver. -/
theorem step_follows (hx : x.Tracks s opens n) (hph : ph.Waits opens)
    (hes : Writable opens (e :: es)) :
    ∃ ph' y, x.Goes host ph (s.hookCalls e) ph' y ∧ y.Tracks (s.step e) opens n ∧
      ph'.Waits opens := by
  unfold RecvState.hookCalls RecvState.step
  cases hr : s.result with
  | some r => exact ⟨ph, x, SessionFiles.goes_nil host ph x, hx, hph⟩
  | none =>
    cases e with
    | stop =>
      exact ⟨ph, _, SessionFiles.goes_fields host ph x _,
        hx.fields (t := { s with session := { s.session with active := false } }) rfl rfl rfl, hph⟩
    | timeout =>
      refine ⟨ph, _, SessionFiles.goes_fields host ph x _, hx.fields (t := s.onTimeout) ?_ ?_ ?_,
        hph⟩ <;>
      · simp only [RecvState.onTimeout]
        split_ifs <;> rfl
    | packet p now hookNow =>
      simp only [RecvState.onPacket]
      split_ifs with hseq
      · exact ⟨ph, x, SessionFiles.goes_nil host ph x,
          ⟨hx.session, hx.disk, hx.output, hx.unclosed, hx.chunk⟩, hph⟩
      · obtain ⟨rfl, hlength⟩ := hes p (List.mem_cons_self ..)
        have hnext : ph.next (.packet p hookNow) = some .receiving := by
          rcases hph with ⟨-, rfl | rfl⟩ | ⟨ho, -⟩
          · rfl
          · rfl
          · cases ho
        obtain ⟨t, ht⟩ : ∃ t : Session, t = { s.session with
          bytesReceived := (s.session.bytesReceived.toUInt64 +
            (p.length.toUInt64 - 8)).toUInt32 } := ⟨_, rfl⟩
        have hfields := SessionFiles.goes_fields host ph x t
        have hsession : ({ t with hookCtx := x.session.hookCtx } : Session) = t := by
          rw [hx.session, ht]
        rw [hsession] at hfields
        have hchunk : t.request.chunk ≠ 0 := by rw [ht]; exact hx.chunk
        have hpacket : SessionFiles.call host { x with session := t } (.packet p hookNow) =
            .ok { x with session := (apmOnDataPacket t x.disk p hookNow).1
                         disk := (apmOnDataPacket t x.disk p hookNow).2 } :=
          (if_neg hchunk).trans (if_neg hlength)
        refine ⟨.receiving, { x with session := (apmOnDataPacket t x.disk p hookNow).1
                                     disk := (apmOnDataPacket t x.disk p hookNow).2 },
          ?_, ⟨?_, fun _ => ?_, hx.output, hx.unclosed, ?_⟩, .inl ⟨rfl, .inr rfl⟩⟩
        · rw [← ht]
          exact hfields.append host ((SessionFiles.goes_nil host _ _).cons host hnext hpacket)
        · rw [RecvState.session_afterPacket, RecvState.accept, hx.disk rfl, ht]
        · rw [RecvState.disk_afterPacket, RecvState.accept, hx.disk rfl, ht]
        · rw [RecvState.session_afterPacket, RecvState.accept, request_apmOnDataPacket]
          exact hx.chunk

theorem run_follows (hx : x.Tracks s opens n) (hph : ph.Waits opens) (hes : Writable opens es) :
    ∃ ph' y, x.Goes host ph (s.allHookCalls es) ph' y ∧ y.Tracks (run RecvState.step s es) opens n ∧
      ph'.Waits opens := by
  induction es generalizing x s ph with
  | nil => exact ⟨ph, x, SessionFiles.goes_nil host ph x, hx, hph⟩
  | cons e es ih =>
    obtain ⟨ph₁, x₁, hgoes₁, hx₁, hph₁⟩ := step_follows host hx hph hes
    obtain ⟨ph', y, hgoes, hy, hph'⟩ := ih hx₁ hph₁ hes.tail
    exact ⟨ph', y, hgoes₁.append host hgoes, hy, hph'⟩

/-- The end of a transfer. -/
theorem finish_follows (hx : x.Tracks s opens (if opens then n + 1 else n)) (hph : ph.Waits opens) :
    ∃ y, x.Goes host ph [.finish] .ended y ∧ y.session = apmOnEnd s.session ∧ y.disk = x.disk ∧
      y.unclosed = n := by
  have hchunk : ¬ x.session.request.chunk = 0 := by rw [hx.session]; exact hx.chunk
  have hnext : ph.next .finish = some .ended := by
    rcases hph with ⟨-, rfl | rfl⟩ | ⟨-, rfl⟩ <;> rfl
  cases opens with
  | true =>
    have hcall :
        x.call host .finish = .ok ⟨apmOnEnd x.session, x.disk, .closed, x.unclosed - 1⟩ := by
      have hopened : x.output = .opened := hx.output
      rw [SessionFiles.call, if_neg hchunk, if_pos hopened]
    refine ⟨_, (SessionFiles.goes_nil host _ _).cons host hnext hcall, ?_, rfl, ?_⟩
    · rw [hx.session]
    · simp [hx.unclosed]
  | false =>
    have hcall : x.call host .finish = .ok { x with session := apmOnEnd x.session } := by
      rw [SessionFiles.call, if_neg hchunk, if_neg (by rw [hx.output]; simp)]
    refine ⟨_, (SessionFiles.goes_nil host _ _).cons host hnext hcall, ?_, rfl, ?_⟩
    · rw [hx.session]
    · simp [hx.unclosed]

/-- `compute_dtp_metrics` divides by the size of a chunk. -/
theorem chunk_of_metrics {r : MetaReq} {size : UInt32} {m : Metrics}
    (h : computeDtpMetrics E r size = .ok m) :
    r.chunk ≠ 0 := by
  intro hchunk
  obtain ⟨pace, hpace, -⟩ := exists_of_bind_eq_ok h
  obtain ⟨a, ha, -⟩ := exists_of_bind_eq_ok hpace
  rw [hchunk] at ha
  cases ha

/-- **What is received** is a sequence of calls that the client may make. -/
theorem receive_follows {d : Disk} (hph : ph.Ready) (hd : x.disk = d) {bind : Bool} {now : UInt32}
    {r : Received} (hes : Writable opens es)
    (h : startReceivingData E x.session d bind now es = .ok (some r)) :
    ∃ ph' y, x.Goes host ph (receiveCalls E x.session d bind now es opens) ph' y ∧
      y.session = r.session ∧
      (opens = true → y.disk = r.disk) ∧ y.unclosed = x.unclosed + receiveLeaves bind opens ∧
        ph'.Left r.result := by
  subst hd
  have hstart : ph.next (.start opens) = some (if opens then .started else .unopened) := by
    rcases hph with rfl | rfl <;> rfl
  obtain ⟨x₁, hx₁, hsession₁, hdisk₁, houtput₁, hunclosed₁⟩ : ∃ x₁, x.call host (.start opens) =
    .ok x₁ ∧
      x₁.session = (apmOnStart x.session x.disk).1 ∧
        (opens = true → x₁.disk = (apmOnStart x.session x.disk).2) ∧
      x₁.output = (if opens then .opened else .null) ∧
      x₁.unclosed = if opens then x.unclosed + 1 else x.unclosed := by
    cases opens with
    | true => exact ⟨_, rfl, rfl, fun _ => rfl, rfl, rfl⟩
    | false => exact ⟨_, rfl, rfl, by simp, rfl, rfl⟩
  have hfields := SessionFiles.goes_fields host (if opens then Phase.started else Phase.unopened) x₁
    { (apmOnStart x.session x.disk).1 with active := true }
  have hbegin := hfields.cons host hstart hx₁
  have hactive : ({ (apmOnStart x.session x.disk).1 with
    active := true, hookCtx := x₁.session.hookCtx } : Session) =
      { (apmOnStart x.session x.disk).1 with active := true } := by rw [hsession₁]
  simp only [hactive] at hbegin
  cases bind with
  | false =>
    obtain rfl := Option.some.inj (Except.ok.inj h)
    refine ⟨_, _, hbegin, rfl, hdisk₁, ?_, ?_, fun hres => absurd rfl hres⟩
    · simp only [hunclosed₁, receiveLeaves]
      cases opens <;> rfl
    · cases opens <;> rfl
  | true =>
    obtain ⟨m, res, hm, -, rfl⟩ := startReceivingData_run h
    have henter : enterReceive E x.session x.disk now = .ok (.initial
        { (apmOnStart x.session x.disk).1 with active := true }
            (apmOnStart x.session x.disk).2 m now) := by
      have hmetrics : computeDtpMetrics E (apmOnStart x.session x.disk).1.request
          (apmOnStart x.session x.disk).1.payloadSize = .ok m := hm
      simp only [enterReceive, hmetrics, Bind.bind, Except.bind]
      rfl
    have htracks : SessionFiles.Tracks
      { x₁ with session := { (apmOnStart x.session x.disk).1 with active := true } }
        (.initial { (apmOnStart x.session x.disk).1 with active := true }
          (apmOnStart x.session x.disk).2 m now) opens
        (if opens then x.unclosed + 1 else x.unclosed) :=
          ⟨rfl, hdisk₁, houtput₁, hunclosed₁, chunk_of_metrics hm⟩
    have hwaits : (if opens then Phase.started else Phase.unopened).Waits opens := by
      cases opens with
      | true => exact .inl ⟨rfl, .inl rfl⟩
      | false => exact .inr ⟨rfl, rfl⟩
    obtain ⟨ph₂, x₂, hgoes₂, hx₂, hph₂⟩ := run_follows host htracks hwaits hes
    obtain ⟨y, hgoes, hsession, hdisk, hunclosed⟩ := finish_follows host hx₂ hph₂
    refine ⟨.ended, y, ?_, hsession, fun ho => hdisk.trans (hx₂.disk ho), ?_, rfl, fun _ => rfl⟩
    · simp only [receiveCalls, if_true, henter]
      exact hbegin.append host (hgoes₂.append host hgoes)
    · simp [hunclosed, receiveLeaves]

/-- **A transfer** is a sequence of calls that the client may make. -/
theorem transfer_follows {d : Disk} (hph : ph.Ready) (hd : x.disk = d) {env : TransferEnv}
    {r : Received} (hes : Writable opens es)
    (h : startTransfer E env x.session d es = .ok (some r)) :
    ∃ ph' y, x.Goes host ph (transferCalls E env x.session d es opens) ph' y ∧
      y.session = r.session ∧
      (opens = true → y.disk = r.disk) ∧ y.unclosed = x.unclosed + transferLeaves env opens ∧
        ph'.Left r.result := by
  have hleft : ph.Left .err := ⟨by rcases hph with rfl | rfl <;> rfl, fun hres => absurd rfl hres⟩
  unfold startTransfer at h
  unfold transferCalls
  split_ifs at h ⊢ with hconnect hbuffer
  · cases hresponse : env.response with
    | none =>
      rw [hresponse] at h
      obtain rfl := Option.some.inj (Except.ok.inj h)
      exact ⟨ph, _, SessionFiles.goes_fields host ph x _, rfl, fun _ => hd,
        by simp [transferLeaves, hresponse], hleft⟩
    | some resp =>
      rw [hresponse] at h
      have hfields :=
        SessionFiles.goes_fields host ph x { x.session with payloadSize := resp.totalPayloadSize }
      obtain ⟨ph', y, hgoes, hsession, hdisk, hunclosed, hph'⟩ :=
          receive_follows host (x := { x with
        session := { x.session with payloadSize := resp.totalPayloadSize } }) hph hd hes h
      refine ⟨ph', y, hfields.append host hgoes, hsession, hdisk, ?_, hph'⟩
      rw [hunclosed, transferLeaves, if_pos ⟨hconnect, hbuffer, by simp [hresponse]⟩]
  · obtain rfl := Option.some.inj (Except.ok.inj h)
    exact ⟨ph, x, SessionFiles.goes_nil host ph x, rfl, fun _ => hd,
      by simp [transferLeaves, hbuffer], hleft⟩
  · obtain rfl := Option.some.inj (Except.ok.inj h)
    exact ⟨ph, _, SessionFiles.goes_fields host ph x _, rfl, fun _ => hd,
      by simp [transferLeaves, hconnect], hleft⟩

end Transfers

end LibDtp

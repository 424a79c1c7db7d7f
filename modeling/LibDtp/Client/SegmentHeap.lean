import LibDtp.Client.Session
import LibDtp.Foundation.Heap
import Mathlib.Data.List.ModifyLast

/-!
# Segments in memory

The functions of `dtp_client_posix_segments_utils.c` again, this time with the pointers they follow,
and with `malloc` and `free`.

## The model

A cell is a `segment_t`, a `segments_ctx_t`, a `hook_ctx_t` or an open `FILE`. A function takes the
memory and returns it, or faults; a loop over a list faults if it goes on for longer than there are
cells. A cell is allocated with its contents, as the source always fills it in at once. `malloc` and
`calloc` succeed.

`Stores` says which list a context stands for, in the sense of the model without pointers, and which
cells it owns.

## What is proved

* `appendSegment_spec`, `updateSegmentsRange_spec`, `closeSegments_spec`,
  `getComplementSegment_spec`, `mergeSegments_spec`, `addSegment_spec`, `freeSegments_spec` — every
  function does what the model without pointers says, faults only where that is broken, frees what
  it no longer owns and touches nothing else.
* `remove_segment_faults_iff` — `remove_segment` reads a cell it has freed whenever the segment it
  removes is not the first.
-/

namespace LibDtp

open Heaps Heaps.Heap

/-- `segments_ctx_t`. -/
structure SegmentsPtr where
  /-- `segments`. -/
  segments : Option ℕ
  /-- `cur_segment`. -/
  curSegment : Option ℕ
  /-- `nof_segments`. -/
  nofSegments : UInt32
  /-- `started`. -/
  started : Bool
  deriving DecidableEq

/-- `hook_ctx_t`. -/
structure HookPtr where
  /-- `last_packet_ts`. -/
  lastPacketTs : UInt32
  /-- `segments`. -/
  segments : Option ℕ
  /-- `received_segments`. -/
  receivedSegments : Option ℕ
  /-- `output`. -/
  output : Option ℕ
  deriving DecidableEq

/-- What is allocated. -/
inductive Cell where
  /-- A `segment_t`, with its `next`. -/
  | segment (s : Segment) (next : Option ℕ)
  /-- A `segments_ctx_t`. -/
  | ctx (c : SegmentsPtr)
  /-- A `hook_ctx_t`. -/
  | hook (k : HookPtr)
  /-- A `FILE` that has been opened and not closed. -/
  | file
  deriving DecidableEq

/-- The memory of the client. -/
abbrev Mem := Heap Cell

namespace Mem

/-- A pointer to a segment is followed. -/
def loadSegment (m : Mem) (p : Option ℕ) : Except HeapFault (Segment × Option ℕ) :=
  match m.load p with
  | .ok (.segment s next) => .ok (s, next)
  | .ok _ => .error .dangling
  | .error f => .error f

/-- A pointer to a context is followed. -/
def loadCtx (m : Mem) (p : Option ℕ) : Except HeapFault SegmentsPtr :=
  match m.load p with
  | .ok (.ctx c) => .ok c
  | .ok _ => .error .dangling
  | .error f => .error f

/-- The loop of `append_segment`. -/
def appendLoop (m : Mem) (c : SegmentsPtr) : ℕ → Option ℕ → Except HeapFault (Mem × SegmentsPtr)
  | 0, _ => .error .endless
  | _ + 1, none => .ok (m, c)
  | fuel + 1, some runner => do
    let (cur, _) ← loadSegment m c.curSegment
    let (r, next) ← loadSegment m (some runner)
    if cur.start ≥ r.start ∧ cur.start ≤ r.stop ∧ cur.stop ≥ r.stop then
      let m ← m.store (some runner) (.segment { r with stop := cur.stop } next)
      let m ← m.free c.curSegment
      return (m, { c with curSegment := none })
    else if ¬ (cur.start ≥ r.start ∧ cur.start ≤ r.stop) ∧ cur.start ≤ r.start ∧
        cur.stop ≥ r.start then
      let m ← m.store (some runner) (.segment { r with start := cur.start } next)
      let m ← m.free c.curSegment
      return (m, { c with curSegment := none })
    else if next = none then
      let m ← m.store (some runner) (.segment r c.curSegment)
      return (m, { c with nofSegments := c.nofSegments + 1 })
    else appendLoop m c fuel next

/-- `append_segment`. -/
def appendSegment (m : Mem) (c : SegmentsPtr) : Except HeapFault (Mem × SegmentsPtr) :=
  if c.segments =
    none then .ok (m, { c with segments := c.curSegment, nofSegments := c.nofSegments + 1 })
  else appendLoop m c (m.next + 1) c.segments

/-- What `init_segments_ctx` puts into the cell it allocates. -/
def initSegmentsCtx : SegmentsPtr := ⟨none, none, 0, false⟩

/-- `update_segments_range`. -/
def updateSegmentsRange (m : Mem) (c : SegmentsPtr) (start stop : UInt32) :
    Except HeapFault (Mem × SegmentsPtr) :=
  if c.started = false then
    let (a, m) := m.alloc (.segment ⟨start, stop⟩ none)
    .ok (m, { c with nofSegments := 0, started := true, curSegment := some a })
  else do
    let (cur, next) ← loadSegment m c.curSegment
    if cur.stop + 1 ≥ start then
      if cur.stop ≥ stop then return (m, c)
      else
        let m ← m.store c.curSegment (.segment { cur with stop := stop } next)
        return (m, c)
    else
      let (m, c) ← appendSegment m c
      let (a, m) := m.alloc (.segment ⟨start, stop⟩ none)
      return (m, { c with curSegment := some a })

/-- `close_segments`, on what a context points to. -/
def closeSegmentsPtr (m : Mem) (c : SegmentsPtr) : Except HeapFault (Mem × SegmentsPtr) :=
  if c.curSegment = none then .ok (m, c) else appendSegment m c

/-- A function that changes what a context points to. -/
def onCtx (m : Mem) (ctx : Option ℕ)
    (f : Mem → SegmentsPtr → Except HeapFault (Mem × SegmentsPtr)) : Except HeapFault Mem := do
  let c ← loadCtx m ctx
  let (m, c) ← f m c
  m.store ctx (.ctx c)

/-- `update_segments`. -/
def updateSegments (m : Mem) (ctx : Option ℕ) (received : UInt32) : Except HeapFault Mem :=
  onCtx m ctx fun m c => updateSegmentsRange m c received received

/-- `close_segments`. -/
def closeSegments (m : Mem) (ctx : Option ℕ) : Except HeapFault Mem := onCtx m ctx closeSegmentsPtr

/-- The local variables of `get_complement_segment`. -/
structure ComplementPtr where
  /-- `seg_start`. -/
  segStart : UInt32
  /-- `seg_end`. -/
  segEnd : UInt32
  /-- What `complements` points to. -/
  complements : SegmentsPtr

/-- A segment is allocated, and appended to the complement. -/
def appendComplement (m : Mem) (c : SegmentsPtr) (start stop : UInt32) :
    Except HeapFault (Mem × SegmentsPtr) :=
  let (a, m) := m.alloc (.segment ⟨start, stop⟩ none)
  appendSegment m { c with curSegment := some a }

/-- The loop of `get_complement_segment`. -/
def complementLoop (start stop : UInt32) :
    ℕ → Option ℕ → Mem → ComplementPtr → Except HeapFault (Mem × ComplementPtr)
  | 0, _, _, _ => .error .endless
  | _ + 1, none, m, v => .ok (m, v)
  | fuel + 1, some runner, m, v => do
    let (r, next) ← loadSegment m (some runner)
    if r.start = start ∧ r.stop + 1 < stop then
      complementLoop start stop fuel next m { v with segStart := r.stop + 1 }
    else if r.start > 0 ∧ v.segStart ≤ r.start - 1 then
      let (m, c) ← appendComplement m v.complements v.segStart (r.start - 1)
      complementLoop start stop fuel next m ⟨r.stop + 1, r.start - 1, c⟩
    else complementLoop start stop fuel next m v

/-- `get_complement_segment`, after its loop. -/
def ComplementPtr.finish (m : Mem) (v : ComplementPtr) (stop : UInt32) :
    Except HeapFault (Mem × SegmentsPtr) :=
  if v.segStart < stop ∧ v.segEnd < v.segStart then appendComplement m v.complements v.segStart stop
  else .ok (m, v.complements)

/-- `get_complement_segment`. -/
def getComplementSegment (m : Mem) (ctx : Option ℕ) (start stop : UInt32) :
    Except HeapFault (Mem × Option ℕ) := do
  let (p, m) := m.alloc (.ctx initSegmentsCtx)
  let c ← loadCtx m ctx
  let (m, v) ← complementLoop start stop (m.next + 1) c.segments m ⟨0, 0, initSegmentsCtx⟩
  let (m, complements) ← ComplementPtr.finish m v stop
  let m ← m.store (some p) (.ctx complements)
  return (m, some p)

/-- The loop of `add_segment`: `s` is linked at the end. -/
def addLoop (m : Mem) (s : Option ℕ) : ℕ → Option ℕ → Except HeapFault Mem
  | 0, _ => .error .endless
  | _ + 1, none => .ok m
  | fuel + 1, some runner => do
    let (r, next) ← loadSegment m (some runner)
    if next = none then m.store (some runner) (.segment r s) else addLoop m s fuel next

/-- `add_segment`. -/
def addSegment (m : Mem) (ctx : Option ℕ) (start stop : UInt32) : Except HeapFault Mem := do
  let (a, m) := m.alloc (.segment ⟨start, stop⟩ none)
  let c ← loadCtx m ctx
  if c.segments =
    none then m.store ctx (.ctx { c with segments := some a, nofSegments := c.nofSegments + 1 })
  else
    let m ← addLoop m (some a) (m.next + 1) c.segments
    m.store ctx (.ctx { c with nofSegments := c.nofSegments + 1 })

/-- The loop of `merge_segments`. -/
def mergeLoop : ℕ → Option ℕ → Option ℕ → Mem → SegmentsPtr → Except HeapFault (Mem × SegmentsPtr)
  | 0, _, _, _, _ => .error .endless
  | _ + 1, none, none, m, res => .ok (m, res)
  | fuel + 1, some iterA, none, m, res => do
    let (s, next) ← loadSegment m (some iterA)
    let (m, res) ← updateSegmentsRange m res s.start s.stop
    mergeLoop fuel next none m res
  | fuel + 1, none, some iterB, m, res => do
    let (s, next) ← loadSegment m (some iterB)
    let (m, res) ← updateSegmentsRange m res s.start s.stop
    mergeLoop fuel none next m res
  | fuel + 1, some iterA, some iterB, m, res => do
    let (a, nextA) ← loadSegment m (some iterA)
    let (b, nextB) ← loadSegment m (some iterB)
    if a.start < b.start then
      let (m, res) ← updateSegmentsRange m res a.start a.stop
      mergeLoop fuel nextA (some iterB) m res
    else
      let (m, res) ← updateSegmentsRange m res b.start b.stop
      mergeLoop fuel (some iterA) nextB m res

/-- `merge_segments`. -/
def mergeSegments (m : Mem) (a b : Option ℕ) : Except HeapFault (Mem × Option ℕ) := do
  let (p, m) := m.alloc (.ctx initSegmentsCtx)
  let ca ← loadCtx m a
  let cb ← loadCtx m b
  let (m, res) ← mergeLoop (2 * m.next + 1) ca.segments cb.segments m initSegmentsCtx
  let (m, res) ← closeSegmentsPtr m res
  let m ← m.store (some p) (.ctx res)
  return (m, some p)

/-- The loop of `free_segments`. -/
def freeLoop : ℕ → Option ℕ → Mem → Except HeapFault Mem
  | 0, _, _ => .error .endless
  | _ + 1, none, m => .ok m
  | fuel + 1, some runner, m => do
    let (_, next) ← loadSegment m (some runner)
    let m ← m.free (some runner)
    freeLoop fuel next m

/-- `free_segments`. -/
def freeSegments (m : Mem) : Option ℕ → Except HeapFault Mem
  | none => .ok m
  | some p => do
    let c ← loadCtx m (some p)
    let m ← freeLoop (m.next + 1) c.segments m
    m.free (some p)

/-- The loop of `for_each_segment`, and of `print_segments`. -/
def forEachLoop {γ : Type} (m : Mem) (cb : ℕ → Segment → γ → Bool × γ) :
    ℕ → ℕ → Option ℕ → γ → Except HeapFault γ
  | 0, _, _, _ => .error .endless
  | _ + 1, _, none, x => .ok x
  | fuel + 1, idx, some runner, x => do
    let (s, next) ← loadSegment m (some runner)
    if (cb idx s x).1 then forEachLoop m cb fuel (idx + 1) next (cb idx s x).2
      else return (cb idx s x).2

/-- `for_each_segment`. -/
def forEachSegment {γ : Type} (m : Mem) (ctx : Option ℕ) (cb : ℕ → Segment → γ → Bool × γ) (x : γ) :
    Except HeapFault γ := do
  let c ← loadCtx m ctx
  forEachLoop m cb (m.next + 1) 0 c.segments x

/-- `print_segments`: it comes by every segment. -/
def printSegments (m : Mem) (ctx : Option ℕ) : Except HeapFault Unit :=
  forEachSegment m ctx (fun _ _ _ => (true, ())) ()

/-! ### What a context stands for -/

/-- The list from `segments` on. -/
def Links (m : Mem) (p : Option ℕ) (l : List (ℕ × Segment)) : Prop := Seg Cell.segment m p l none

/-- The segments of a list. -/
def segmentsOf (l : List (ℕ × Segment)) : List Segment := l.map Prod.snd

@[simp] theorem segmentsOf_nil : segmentsOf [] = [] := rfl

@[simp] theorem segmentsOf_cons (c : ℕ × Segment) (l : List (ℕ × Segment)) :
    segmentsOf (c :: l) = c.2 :: segmentsOf l := rfl

@[simp] theorem segmentsOf_append (l l' : List (ℕ × Segment)) :
    segmentsOf (l ++ l') = segmentsOf l ++ segmentsOf l' :=
  List.map_append

/-- What `cur_segment` points to, for a list with the cells `l`; and the cells that are owned. -/
def PointsTo (m : Mem) (l : List (ℕ × Segment)) (p : Option ℕ) (S : Finset ℕ) : Cur → Prop
  | .null => p = none ∧ S = addresses l
  | .own s => ∃ a, p = some a ∧ m.lookup a = some (.segment s none) ∧ a ∉ addresses l ∧
    S = insert a (addresses l)
  | .last => ∃ c, l.getLast? = some c ∧ p = some c.1 ∧ S = addresses l

/-- A context stands for one of the model without pointers that is not broken, and owns the cells in
`S`. -/
structure Stores (m : Mem) (c : SegmentsPtr) (ctx : SegmentsCtx) (S : Finset ℕ) : Prop where
  /-- The list, and the current segment. -/
  cells : ∃ l, Links m c.segments l ∧ segmentsOf l = ctx.segments ∧
    PointsTo m l c.curSegment S ctx.cur
  /-- `nof_segments`. -/
  nofSegments : c.nofSegments = ctx.nofSegments
  /-- `started`. -/
  started : c.started = ctx.started
  /-- Nothing has gone wrong. -/
  broken : ctx.broken = false

section Specs

variable {m m' : Mem} {c : SegmentsPtr} {ctx : SegmentsCtx} {S : Finset ℕ} {p : Option ℕ}
  {l l₁ l₂ : List (ℕ × Segment)} {a b : ℕ} {s r : Segment} {next : Option ℕ}

theorem segment_inj (x : Segment) (n : Option ℕ) (x' : Segment) (n' : Option ℕ)
    (h : Cell.segment x n = .segment x' n') :
    x = x' ∧ n = n' := Cell.segment.inj h

theorem Links.nodup (h : Links m p l) : (l.map Prod.fst).Nodup := Seg.nodup segment_inj h

theorem Links.length_le (h : Links m p l) : l.length ≤ m.next := Seg.length_le segment_inj h

theorem loadSegment_eq (h : m.lookup a = some (.segment s next)) :
    loadSegment m (some a) = .ok (s, next) := by
  rw [loadSegment, load_eq h]

theorem loadCtx_eq (h : m.lookup a = some (.ctx c)) : loadCtx m (some a) = .ok c := by
  rw [loadCtx, load_eq h]

theorem PointsTo.subset {cur : Cur} (h : PointsTo m l p S cur) : addresses l ⊆ S := by
  cases cur with
  | null =>
    rw [h.2]
  | own s =>
    obtain ⟨a, -, -, -, rfl⟩ := h
    exact Finset.subset_insert _ _
  | last =>
    obtain ⟨x, -, -, rfl⟩ := h
    exact Finset.Subset.refl _

theorem PointsTo.eq_addresses {cur : Cur} (h : PointsTo m l p S cur) (hcur : ∀ s, cur ≠ .own s) :
    S = addresses l := by
  cases cur with
  | null => exact h.2
  | own s => exact absurd rfl (hcur s)
  | last =>
    obtain ⟨x, -, -, hS⟩ := h
    exact hS

theorem PointsTo.congr {cur : Cur} (h : PointsTo m l p S cur)
    (hsame : ∀ a ∈ S, m'.lookup a = m.lookup a) :
    PointsTo m' l p S cur := by
  cases cur with
  | null => exact h
  | own s =>
    obtain ⟨a, hp, ha, hna, hS⟩ := h
    refine ⟨a, hp, ?_, hna, hS⟩
    rw [hsame a (by rw [hS]; exact Finset.mem_insert_self ..), ha]
  | last => exact h

/-- It depends on the cells it owns. -/
theorem Stores.congr (h : Stores m c ctx S) (hsame : ∀ a ∈ S, m'.lookup a = m.lookup a) :
    Stores m' c ctx S := by
  obtain ⟨l, hl, hsegs, hcur⟩ := h.cells
  exact ⟨⟨l, Seg.congr hl fun a ha => hsame a (hcur.subset ha), hsegs, hcur.congr hsame⟩,
    h.nofSegments, h.started, h.broken⟩

/-- The cells it owns are there. -/
theorem Stores.lt (h : Stores m c ctx S) (ha : a ∈ S) : a < m.next := by
  obtain ⟨l, hl, -, hcur⟩ := h.cells
  cases hc : ctx.cur with
  | null =>
    rw [hc] at hcur
    exact Seg.lt hl (hcur.2 ▸ ha)
  | own s =>
    rw [hc] at hcur
    obtain ⟨b, -, hb, -, rfl⟩ := hcur
    rcases Finset.mem_insert.mp ha with rfl | ha
    · exact lt_of_lookup hb
    · exact Seg.lt hl ha
  | last =>
    rw [hc] at hcur
    obtain ⟨x, -, -, rfl⟩ := hcur
    exact Seg.lt hl ha

/-! ### Appending -/

/-- A segment of the list takes in the current one, which is freed. -/
theorem absorb_spec (hl : Links m p (l₁ ++ (b, r) :: l₂)) (hb : m.lookup b = some (.segment r next))
    (hrest : Links m next l₂) (ha : m.lookup a = some (.segment s none))
    (hna : a ∉ addresses (l₁ ++ (b, r) :: l₂)) (r' : Segment) :
    (m.put b (some (.segment r' next))).lookup a = some (.segment s none) ∧
      Links ((m.put b (some (.segment r' next))).put a none) p (l₁ ++ (b, r') :: l₂) ∧
      Moves m ((m.put b (some (.segment r' next))).put a none)
      (insert a (addresses (l₁ ++ (b, r) :: l₂)))
        (addresses (l₁ ++ (b, r') :: l₂)) := by
  have hab : a ≠ b := by
    rintro rfl
    simp at hna
  have ha' : (m.put b (some (.segment r' next))).lookup a = some (.segment s none) := by
    rw [lookup_put_ne hab, ha]
  have haddr : addresses (l₁ ++ (b, r') :: l₂) = addresses (l₁ ++ (b, r) :: l₂) := by simp
  refine ⟨ha', ?_, ?_⟩
  · refine Seg.congr (Seg.setValue hl hl.nodup hb hrest) fun d hd => lookup_put_ne ?_ _
    rintro rfl
    exact hna (haddr ▸ hd)
  · have hput :
      Moves m (m.put b (some (.segment r' next))) (insert a (addresses (l₁ ++ (b, r) :: l₂)))
        (insert a (addresses (l₁ ++ (b, r) :: l₂))) :=
          moves_put (Finset.mem_insert_of_mem (by simp)) _
    have hfree := hput.trans (moves_free ha' (Finset.mem_insert_self ..))
    rw [Finset.erase_insert hna] at hfree
    rwa [haddr]

/-- What the loop of `append_segment` makes of the rest of a list, with the current segment at `a`:
the segment is linked at the end, or a segment of the list has taken it in and it is freed. -/
structure Appends (m : Mem) (c : SegmentsPtr) (l₁ l₂ : List (ℕ × Segment)) (a : ℕ) (s : Segment)
    (m' : Mem) (c' : SegmentsPtr) : Prop
    where
  /-- The segment is linked. -/
  linked : (appendWalk s (segmentsOf l₂)).2 = true →
    c' = { c with nofSegments := c.nofSegments + 1 } ∧
    (appendWalk s (segmentsOf l₂)).1 = segmentsOf (l₂ ++ [(a, s)]) ∧
      Links m' c.segments (l₁ ++ l₂ ++ [(a, s)]) ∧
    Moves m m' (insert a (addresses (l₁ ++ l₂))) (insert a (addresses (l₁ ++ l₂)))
  /-- It is taken in. -/
  taken : (appendWalk s (segmentsOf l₂)).2 = false → c' = { c with curSegment := none } ∧
    ∃ l', (appendWalk s (segmentsOf l₂)).1 = segmentsOf l' ∧ Links m' c.segments (l₁ ++ l') ∧
      Moves m m' (insert a (addresses (l₁ ++ l₂))) (addresses (l₁ ++ l'))

theorem appendLoop_spec {fuel : ℕ} (hl : Links m c.segments (l₁ ++ l₂)) (hp : Links m p l₂)
    (hne : l₂ ≠ []) (hcur : c.curSegment = some a) (ha : m.lookup a = some (.segment s none))
    (hna : a ∉ addresses (l₁ ++ l₂)) (hfuel : l₂.length < fuel) :
    ∃ m' c', appendLoop m c fuel p = .ok (m', c') ∧ Appends m c l₁ l₂ a s m' c' := by
  induction l₂ generalizing l₁ p fuel with
  | nil => exact absurd rfl hne
  | cons x rest ih =>
    obtain ⟨b, r⟩ := x
    obtain ⟨rfl, next, hb, hrest⟩ := hp
    cases fuel with
    | zero => exact absurd hfuel (Nat.not_lt_zero _)
    | succ fuel =>
      have hload : loadSegment m c.curSegment = .ok (s, none) := by rw [hcur, loadSegment_eq ha]
      simp only [appendLoop, hload, loadSegment_eq hb, bind, Except.bind]
      have htaken : ∀ r', appendWalk s (segmentsOf ((b, r) :: rest)) =
        (r' :: segmentsOf rest, false) →
          Appends m c l₁ ((b, r) :: rest) a s ((m.put b (some (.segment r' next))).put a none)
            { c with curSegment := none } := by
        intro r' hwalk
        obtain ⟨-, hlinks, hmoves⟩ := absorb_spec hl hb hrest ha hna r'
        refine ⟨fun h => ?_, fun _ => ⟨rfl, (b, r') :: rest, ?_, hlinks, hmoves⟩⟩
        · rw [hwalk] at h
          cases h
        · rw [hwalk]
          rfl
      have hfree : ∀ r', ((m.put b (some (.segment r' next))).free c.curSegment) =
          .ok ((m.put b (some (.segment r' next))).put a none) := fun r' => by
        rw [hcur, free_eq (absorb_spec hl hb hrest ha hna r').1]
      have hgo : appendWalk s (segmentsOf ((b, r) :: rest)) =
            (r :: (appendWalk s (segmentsOf rest)).1, (appendWalk s (segmentsOf rest)).2) →
          ∃ m' c', (if next = none then .ok (m.put b (some (.segment r c.curSegment)),
            { c with nofSegments := c.nofSegments + 1 })
            else appendLoop m c fuel next) = .ok (m', c') ∧
                Appends m c l₁ ((b, r) :: rest) a s m' c' := by
        intro hwalk
        by_cases hnext : next = none
        · subst hnext
          obtain rfl : rest = [] := by
            cases rest with
            | nil => rfl
            | cons x rest => cases hrest.1
          have hown : Links m (some a) [(a, s)] := ⟨rfl, none, ha, rfl⟩
          have hlink := Seg.link hl hl.nodup hown (a := b) (by
            rintro hmem
            obtain rfl : b = a := by simpa using hmem
            simp at hna)
          rw [if_pos rfl]
          refine ⟨_, _, rfl, fun _ => ⟨rfl, by rw [hwalk]; rfl, ?_, ?_⟩, fun h => ?_⟩
          · rw [hcur]
            exact hlink
          · exact moves_put (Finset.mem_insert_of_mem (by simp)) _
          · rw [hwalk] at h
            cases h
        · have hmore : rest ≠ [] := by
            rintro rfl
            exact hnext hrest
          rw [if_neg hnext]
          obtain ⟨m', c', hm', happends⟩ :=
            @ih next (l₁ ++ [(b, r)]) fuel (by simpa using hl) hrest hmore (by simpa using hna)
            (Nat.lt_of_succ_lt_succ hfuel)
          refine ⟨m', c', hm', fun h => ?_, fun h => ?_⟩
          · rw [hwalk] at h
            obtain ⟨hc', hsegs, hlinks, hmoves⟩ := happends.linked h
            refine ⟨hc', ?_, by simpa using hlinks, by simpa using hmoves⟩
            rw [hwalk]
            simp [hsegs]
          · rw [hwalk] at h
            obtain ⟨hc', l', hsegs, hlinks, hmoves⟩ := happends.taken h
            refine ⟨hc', (b, r) :: l', ?_, by simpa using hlinks, by simpa using hmoves⟩
            rw [hwalk]
            simp [hsegs]
      simp only [store_eq hb, hfree, pure, Except.pure]
      by_cases hinside : s.start ≥ r.start ∧ s.start ≤ r.stop
      · by_cases hreaches : s.stop ≥ r.stop
        · rw [if_pos ⟨hinside.1, hinside.2, hreaches⟩]
          exact ⟨_, _, rfl, htaken _ (by simp [appendWalk, hinside, hreaches])⟩
        · rw [if_neg fun h => hreaches h.2.2, if_neg fun h => h.1 hinside]
          refine hgo ?_
          simp only [segmentsOf_cons, appendWalk]
          rw [if_pos hinside, if_neg hreaches]
      · rw [if_neg fun h => hinside ⟨h.1, h.2.1⟩]
        by_cases hbefore : s.start ≤ r.start ∧ s.stop ≥ r.start
        · rw [if_pos ⟨hinside, hbefore⟩]
          refine ⟨_, _, rfl, htaken _ ?_⟩
          simp only [segmentsOf_cons, appendWalk]
          rw [if_neg hinside, if_pos hbefore]
        · rw [if_neg fun h => hbefore h.2]
          refine hgo ?_
          simp only [segmentsOf_cons, appendWalk]
          rw [if_neg hinside, if_neg hbefore]

/-- A function returns what the model without pointers says: `ctx`, in place of what owned the cells
in `S`. -/
def Returns (m : Mem) (S : Finset ℕ) (x : Except HeapFault (Mem × SegmentsPtr))
    (ctx : SegmentsCtx) : Prop :=
  ∃ m' c' S', x = .ok (m', c') ∧ Stores m' c' ctx S' ∧ Moves m m' S S'

/-- **`append_segment`.** -/
theorem appendSegment_spec (h : Stores m c ctx S)
    (hbroken : (LibDtp.appendSegment ctx).broken = false) :
    Returns m S (appendSegment m c) (LibDtp.appendSegment ctx) := by
  obtain ⟨l, hl, hsegs, hcur⟩ := h.cells
  cases hc : ctx.cur with
  | null => simp [LibDtp.appendSegment, hc] at hbroken
  | last =>
    simp only [LibDtp.appendSegment, hc] at hbroken
    split at hbroken <;> cases hbroken
  | own s =>
    rw [hc] at hcur
    obtain ⟨a, hp, ha, hna, rfl⟩ := hcur
    have hresult : LibDtp.appendSegment ctx = if (appendWalk s (segmentsOf l)).2 then
        { ctx with
          segments := (appendWalk s (segmentsOf l)).1, cur := .last,
            nofSegments := ctx.nofSegments + 1 }
        else { ctx with segments := (appendWalk s (segmentsOf l)).1, cur := .null } := by
      simp only [LibDtp.appendSegment, hc, hsegs]
    rw [hresult]
    cases l with
    | nil =>
      have hnone : c.segments = none := hl
      rw [appendSegment, if_pos hnone]
      refine ⟨m, _, _, rfl, ⟨⟨[(a, s)], ?_, rfl, (a, s), rfl, hp, rfl⟩, ?_, h.started, h.broken⟩,
        .refl m _⟩
      · exact ⟨hp, none, ha, rfl⟩
      · exact congrArg (· + 1) h.nofSegments
    | cons x rest =>
      obtain ⟨m', c', hm', happends⟩ :=
        @appendLoop_spec m c c.segments [] (x :: rest) a s (m.next + 1) hl hl (by simp) hp ha hna
        (Nat.lt_succ_of_le hl.length_le)
      have hsome : c.segments ≠ none := by rw [hl.1]; simp
      rw [appendSegment, if_neg hsome]
      cases hwalk : (appendWalk s (segmentsOf (x :: rest))).2 with
      | true =>
        obtain ⟨rfl, hsegs', hlinks, hmoves⟩ := happends.linked hwalk
        rw [List.nil_append, ← addresses_concat (x :: rest) (a, s)] at hmoves
        rw [if_pos rfl, ← addresses_concat (x :: rest) (a, s)]
        exact ⟨m', _, _, hm',
          ⟨⟨x :: rest ++ [(a, s)], hlinks, hsegs'.symm, (a, s), List.getLast?_concat, hp, rfl⟩,
          congrArg (· + 1) h.nofSegments, h.started, h.broken⟩, hmoves⟩
      | false =>
        obtain ⟨rfl, l', hsegs', hlinks, hmoves⟩ := happends.taken hwalk
        rw [if_neg Bool.false_ne_true]
        exact ⟨m', _, _, hm',
          ⟨⟨l', hlinks, hsegs'.symm, rfl, rfl⟩, h.nofSegments, h.started, h.broken⟩, hmoves⟩

/-! ### Updating -/

/-- Segment `s` is allocated to be the current one. -/
theorem Stores.new (h : Stores m c ctx S) (hcur : ∀ s, ctx.cur ≠ .own s) (s : Segment) :
    Stores (m.push (.segment s none)) { c with curSegment := some m.next }
    { ctx with cur := .own s } (insert m.next S) ∧
      Moves m (m.push (.segment s none)) S (insert m.next S) := by
  obtain ⟨l, hl, hsegs, hpoints⟩ := h.cells
  have hS : S = addresses l := hpoints.eq_addresses hcur
  have hna : m.next ∉ addresses l := fun hmem => absurd (Seg.lt hl hmem) (lt_irrefl _)
  refine ⟨⟨⟨l, ?_, hsegs, m.next, rfl, lookup_push_self m _, hna,
    by rw [hS]⟩, h.nofSegments, h.started, h.broken⟩,
    moves_push m _ S⟩
  exact Seg.congr hl fun a ha => lookup_push_of_lt (Seg.lt hl ha) _

/-- What `append_segment` leaves as the current segment. -/
theorem appendSegment_cur (ctx : SegmentsCtx) (hbroken : (LibDtp.appendSegment ctx).broken = false)
    (s : Segment) :
    (LibDtp.appendSegment ctx).cur ≠ .own s := by
  cases hc : ctx.cur with
  | null => simp [LibDtp.appendSegment, hc] at hbroken
  | own s =>
    simp only [LibDtp.appendSegment, hc]
    split <;> simp
  | last =>
    simp only [LibDtp.appendSegment, hc] at hbroken
    split at hbroken <;> cases hbroken

/-- The current segment is the one that `cur_segment` points to, and its end can be written. -/
theorem Stores.current (h : Stores m c ctx S) {cur : Segment} (hcur : ctx.current = some cur)
    (stop : UInt32) :
    ∃ a, c.curSegment = some a ∧ m.lookup a = some (.segment cur none) ∧
      Stores (m.put a (some (.segment { cur with stop := stop } none))) c
        (ctx.setCurrentEnd stop) S ∧
        Moves m (m.put a (some (.segment { cur with stop := stop } none))) S S := by
  obtain ⟨l, hl, hsegs, hpoints⟩ := h.cells
  cases hc : ctx.cur with
  | null => simp [SegmentsCtx.current, hc] at hcur
  | own s =>
    rw [hc] at hpoints
    obtain ⟨a, hp, ha, hna, rfl⟩ := hpoints
    obtain rfl : s = cur := by simpa [SegmentsCtx.current, hc] using hcur
    have hset : ctx.setCurrentEnd stop = { ctx with cur := .own { s with stop := stop } } := by
      rw [SegmentsCtx.setCurrentEnd, hc]
    rw [hset]
    refine ⟨a, hp, ha,
      ⟨⟨l, ?_, hsegs, a, hp, lookup_put_self ha _, hna, rfl⟩, h.nofSegments, h.started, h.broken⟩,
      moves_put (Finset.mem_insert_self ..) _⟩
    exact Seg.congr hl fun b hb => lookup_put_ne (ne_of_mem_of_not_mem hb hna) _
  | last =>
    rw [hc] at hpoints
    obtain ⟨⟨a, s⟩, hlast, hp, rfl⟩ := hpoints
    obtain ⟨l₁, rfl⟩ := List.getLast?_eq_some_iff.mp hlast
    rw [segmentsOf_append] at hsegs
    obtain rfl : s = cur := by simpa [SegmentsCtx.current, hc, ← hsegs] using hcur
    obtain ⟨-, -, -, next, ha, hnone⟩ := seg_append.mp hl
    obtain rfl : next = none := hnone
    have hset : ctx.setCurrentEnd stop =
        { ctx with segments := segmentsOf l₁ ++ [{ s with stop := stop }] } := by
      rw [SegmentsCtx.setCurrentEnd, hc, ← hsegs]
      simp [List.modifyLast_concat]
    have hlinks : Links (m.put a (some (.segment { s with stop := stop } none))) c.segments
      (l₁ ++ [(a, { s with stop := stop })]) :=
      Seg.setValue hl hl.nodup ha rfl
    rw [hset]
    refine ⟨a, hp, ha,
      ⟨⟨_, hlinks, by simp, ?_⟩, h.nofSegments, h.started, h.broken⟩, moves_put (by simp) _⟩
    rw [hc]
    exact ⟨(a, { s with stop := stop }), List.getLast?_concat, hp, by simp⟩

/-- **`update_segments_range`.** -/
theorem updateSegmentsRange_spec {start stop : UInt32} (h : Stores m c ctx S)
    (hfirst : ctx.started = false → ∀ s, ctx.cur ≠ .own s)
    (hbroken : (LibDtp.updateSegmentsRange ctx start stop).broken = false) :
    Returns m S (updateSegmentsRange m c start stop)
    (LibDtp.updateSegmentsRange ctx start stop) := by
  simp only [LibDtp.updateSegmentsRange] at hbroken ⊢
  simp only [updateSegmentsRange, h.started]
  split_ifs with hstarted
  · obtain ⟨hstores, hmoves⟩ := h.new (hfirst hstarted) ⟨start, stop⟩
    exact ⟨_, _, _, rfl, ⟨hstores.cells, rfl, rfl, h.broken⟩, hmoves⟩
  · rw [if_neg hstarted] at hbroken
    cases hcur : ctx.current with
    | none => simp [hcur] at hbroken
    | some cur =>
      obtain ⟨a, hp, ha, hset, hmoves⟩ := h.current hcur stop
      simp only [hcur, hp, loadSegment_eq ha, bind, Except.bind, pure, Except.pure] at hbroken ⊢
      split_ifs with hmeets hold
      · exact ⟨m, c, S, rfl, h, .refl m S⟩
      · rw [store_eq ha]
        exact ⟨_, c, S, rfl, hset, hmoves⟩
      · rw [if_neg hmeets] at hbroken
        obtain ⟨m₁, c₁, S₁, hm₁, hstores₁, hmoves₁⟩ := appendSegment_spec h hbroken
        obtain ⟨hstores₂, hmoves₂⟩ := hstores₁.new (appendSegment_cur ctx hbroken) ⟨start, stop⟩
        rw [hm₁]
        exact ⟨_, _, _, rfl, hstores₂, hmoves₁.trans hmoves₂⟩

/-! ### Closing -/

theorem PointsTo.eq_none_iff {cur : Cur} (h : PointsTo m l p S cur) : p = none ↔ cur = .null := by
  cases cur with
  | null => exact iff_of_true h.1 rfl
  | own s =>
    obtain ⟨a, rfl, -⟩ := h
    simp
  | last =>
    obtain ⟨x, -, rfl, -⟩ := h
    simp

/-- **`close_segments`.** -/
theorem closeSegmentsPtr_spec (h : Stores m c ctx S)
    (hbroken : (LibDtp.closeSegments ctx).broken = false) :
    Returns m S (closeSegmentsPtr m c) (LibDtp.closeSegments ctx) := by
  obtain ⟨l, -, -, hpoints⟩ := h.cells
  simp only [LibDtp.closeSegments] at hbroken ⊢
  simp only [closeSegmentsPtr, hpoints.eq_none_iff]
  split_ifs with hnull
  · exact ⟨m, c, S, rfl, h, .refl m S⟩
  · rw [if_neg hnull] at hbroken
    exact appendSegment_spec h hbroken

/-! ### Contexts -/

/-- A pointer to a context that stands for `ctx`. -/
structure OwnsCtx (m : Mem) (p : Option ℕ) (ctx : SegmentsCtx) (S : Finset ℕ) : Prop where
  /-- What it points to, and what that owns. -/
  stores : ∃ a c T, p = some a ∧ m.lookup a = some (.ctx c) ∧ Stores m c ctx T ∧ S = insert a T

/-- What a context owns are segments. -/
theorem Stores.segment (h : Stores m c ctx S) (ha : a ∈ S) :
    ∃ s next, m.lookup a = some (.segment s next) := by
  obtain ⟨l, hl, -, hpoints⟩ := h.cells
  have hlist : a ∈ addresses l → ∃ s next, m.lookup a = some (.segment s next) := fun hmem => by
    obtain ⟨x, hx, rfl⟩ := List.mem_map.mp (List.mem_toFinset.mp hmem)
    obtain ⟨l₁, l₂, rfl⟩ := List.append_of_mem hx
    obtain ⟨-, -, -, next, hnext, -⟩ := seg_append.mp hl
    exact ⟨_, _, hnext⟩
  cases hc : ctx.cur with
  | null =>
    rw [hc] at hpoints
    exact hlist (hpoints.2 ▸ ha)
  | own s =>
    rw [hc] at hpoints
    obtain ⟨b, -, hb, -, rfl⟩ := hpoints
    rcases Finset.mem_insert.mp ha with rfl | ha
    · exact ⟨_, _, hb⟩
    · exact hlist ha
  | last =>
    rw [hc] at hpoints
    obtain ⟨x, -, -, rfl⟩ := hpoints
    exact hlist ha

theorem Stores.ctx_not_mem {c' : SegmentsPtr} (h : Stores m c ctx S)
    (ha : m.lookup a = some (.ctx c')) : a ∉ S := fun hmem => by
  obtain ⟨s, next, hs⟩ := h.segment hmem
  rw [ha] at hs
  cases hs

theorem OwnsCtx.congr (h : OwnsCtx m p ctx S) (hsame : ∀ a ∈ S, m'.lookup a = m.lookup a) :
    OwnsCtx m' p ctx S := by
  obtain ⟨a, c, T, hp, ha, hstores, rfl⟩ := h.stores
  refine ⟨a, c, T, hp, ?_, hstores.congr fun b hb => hsame b (Finset.mem_insert_of_mem hb), rfl⟩
  rw [hsame a (Finset.mem_insert_self ..), ha]

theorem OwnsCtx.lt (h : OwnsCtx m p ctx S) (ha : a ∈ S) : a < m.next := by
  obtain ⟨b, c, T, -, hb, hstores, rfl⟩ := h.stores
  rcases Finset.mem_insert.mp ha with rfl | ha
  · exact lt_of_lookup hb
  · exact hstores.lt ha

theorem OwnsCtx.broken (h : OwnsCtx m p ctx S) : ctx.broken = false := by
  obtain ⟨_, _, _, _, _, hstores, _⟩ := h.stores
  exact hstores.broken

/-- A context is written back. -/
theorem Stores.writeBack {c₀ c' : SegmentsPtr} {ctx' : SegmentsCtx} {T T' : Finset ℕ}
    (ha : m.lookup a = some (.ctx c₀)) (hna : a ∉ T) (hmoves : Moves m m' T T')
    (h : Stores m' c' ctx' T') :
    m'.store (some a) (.ctx c') = .ok (m'.put a (some (.ctx c'))) ∧
      OwnsCtx (m'.put a (some (.ctx c'))) (some a) ctx' (insert a T') ∧
      Moves m (m'.put a (some (.ctx c'))) (insert a T) (insert a T') := by
  obtain ⟨ha', hna'⟩ := hmoves.keeps ha hna
  refine ⟨store_eq ha' _, ⟨a, c', T', rfl, lookup_put_self ha' _, ?_, rfl⟩, ?_⟩
  · exact h.congr fun b hb => lookup_put_ne (ne_of_mem_of_not_mem hb hna') _
  · have hwide := hmoves.widen {a}
    simp only [Finset.union_singleton] at hwide
    exact hwide.trans (moves_put (Finset.mem_insert_self ..) _)

theorem onCtx_spec {f : Mem → SegmentsPtr → Except HeapFault (Mem × SegmentsPtr)}
    {ctx' : SegmentsCtx} (h : OwnsCtx m p ctx S)
    (hf : ∀ c T, Stores m c ctx T → Returns m T (f m c) ctx') :
    ∃ m' S', onCtx m p f = .ok m' ∧ OwnsCtx m' p ctx' S' ∧ Moves m m' S S' := by
  obtain ⟨a, c, T, rfl, ha, hstores, rfl⟩ := h.stores
  obtain ⟨m₁, c₁, T₁, hm₁, hstores₁, hmoves₁⟩ := hf c T hstores
  obtain ⟨hstore, howns, hmoves⟩ := hstores₁.writeBack ha (hstores.ctx_not_mem ha) hmoves₁
  refine ⟨_, _, ?_, howns, hmoves⟩
  simp only [onCtx, loadCtx_eq ha, hm₁, bind, Except.bind]
  exact hstore

/-- **`update_segments`.** -/
theorem updateSegments_spec {received : UInt32} (h : OwnsCtx m p ctx S)
    (hfirst : ctx.started = false → ∀ s, ctx.cur ≠ .own s)
    (hbroken : (LibDtp.updateSegments ctx received).broken = false) :
    ∃ m' S', updateSegments m p received = .ok m' ∧
      OwnsCtx m' p (LibDtp.updateSegments ctx received) S' ∧ Moves m m' S S' :=
  onCtx_spec h fun _ _ hstores => updateSegmentsRange_spec hstores hfirst hbroken

theorem closeSegments_spec (h : OwnsCtx m p ctx S)
    (hbroken : (LibDtp.closeSegments ctx).broken = false) :
    ∃ m' S', closeSegments m p = .ok m' ∧ OwnsCtx m' p (LibDtp.closeSegments ctx) S' ∧
      Moves m m' S S' :=
  onCtx_spec h fun _ _ hstores => closeSegmentsPtr_spec hstores hbroken

/-- A context is allocated. -/
theorem ownsCtx_init (m : Mem) :
    OwnsCtx (m.push (.ctx initSegmentsCtx)) (some m.next) LibDtp.initSegmentsCtx {m.next} ∧
    Moves m (m.push (.ctx initSegmentsCtx)) ∅ {m.next} :=
  ⟨⟨m.next, initSegmentsCtx, ∅, rfl, lookup_push_self m _,
    ⟨⟨[], rfl, rfl, rfl, rfl⟩, rfl, rfl, rfl⟩, rfl⟩, moves_push m _ ∅⟩

/-! ### The complement -/

theorem appendSegment_own (ctx : SegmentsCtx) (s : Segment) :
    (LibDtp.appendSegment { ctx with cur := .own s }).broken = ctx.broken := by
  simp only [LibDtp.appendSegment]
  split <;> rfl

theorem appendComplement_spec (h : Stores m c ctx S) (hcur : ∀ s, ctx.cur ≠ .own s)
    (start stop : UInt32) :
    Returns m S (appendComplement m c start stop)
    (LibDtp.appendSegment { ctx with cur := .own ⟨start, stop⟩ }) ∧
      ∀ s, (LibDtp.appendSegment { ctx with cur := .own ⟨start, stop⟩ }).cur ≠ .own s := by
  obtain ⟨hstores, hmoves⟩ := h.new hcur ⟨start, stop⟩
  have hbroken := (appendSegment_own ctx ⟨start, stop⟩).trans h.broken
  obtain ⟨m', c', S', hm', hstores', hmoves'⟩ := appendSegment_spec hstores hbroken
  exact ⟨⟨m', c', S', hm', hstores', hmoves.trans hmoves'⟩, appendSegment_cur _ hbroken⟩

/-- The local variables stand for those of the model without pointers. -/
structure ComplementPtr.Stands (m : Mem) (v : ComplementPtr) (cv : Complement) (S : Finset ℕ) :
    Prop where
  /-- `seg_start`. -/
  segStart : v.segStart = cv.segStart
  /-- `seg_end`. -/
  segEnd : v.segEnd = cv.segEnd
  /-- `complements`. -/
  complements : Stores m v.complements cv.complements S
  /-- Its current segment is in its list, if there is one. -/
  cur : ∀ s, cv.complements.cur ≠ .own s

theorem complementLoop_spec (start stop : UInt32) {fuel : ℕ} {v : ComplementPtr} {cv : Complement}
    (hl : Links m p l) (hv : v.Stands m cv S) (hdisjoint : Disjoint S (addresses l))
    (hfuel : l.length < fuel) :
    ∃ m' v' S', complementLoop start stop fuel p m v = .ok (m', v') ∧
      v'.Stands m' ((segmentsOf l).foldl (complementStep start stop) cv) S' ∧ Moves m m' S S' := by
  induction l generalizing m p v cv S fuel with
  | nil =>
    obtain rfl : p = none := hl
    cases fuel with
    | zero => exact absurd hfuel (Nat.not_lt_zero _)
    | succ fuel => exact ⟨m, v, S, rfl, hv, .refl m S⟩
  | cons x rest ih =>
    obtain ⟨a, r⟩ := x
    obtain ⟨rfl, next, ha, hrest⟩ := hl
    rw [addresses_cons, Finset.disjoint_insert_right] at hdisjoint
    cases fuel with
    | zero => exact absurd hfuel (Nat.not_lt_zero _)
    | succ fuel =>
      have hfuel' := Nat.lt_of_succ_lt_succ hfuel
      simp only [complementLoop, loadSegment_eq ha, bind, Except.bind, segmentsOf_cons,
        List.foldl_cons, complementStep, hv.segStart]
      split_ifs with hfirst hgap
      · exact ih hrest ⟨rfl, hv.segEnd, hv.complements, hv.cur⟩ hdisjoint.2 hfuel'
      · obtain ⟨⟨m₁, c₁, S₁, hm₁, hstores₁, hmoves₁⟩, hcur₁⟩ :=
          appendComplement_spec hv.complements hv.cur cv.segStart (r.start - 1)
        obtain ⟨hsame, hdisjoint₁⟩ := hmoves₁.frame (fun b hb => Seg.lt hrest hb) hdisjoint.2
        obtain ⟨m', v', S', hm', hstands, hmoves⟩ :=
          @ih m₁ S₁ next fuel ⟨r.stop + 1, r.start - 1, c₁⟩
          ⟨r.stop + 1, r.start - 1, _⟩ (Seg.congr hrest hsame)
            ⟨rfl, rfl, hstores₁, hcur₁⟩ hdisjoint₁ hfuel'
        rw [hm₁]
        exact ⟨m', v', S', hm', hstands, hmoves₁.trans hmoves⟩
      · exact ih hrest hv hdisjoint.2 hfuel'

/-- After the loop. -/
theorem finish_spec (stop : UInt32) {v : ComplementPtr} {cv : Complement} (hv : v.Stands m cv S) :
    Returns m S (ComplementPtr.finish m v stop) (cv.finish stop) ∧
      ∀ s, (cv.finish stop).cur ≠ .own s := by
  rw [ComplementPtr.finish, Complement.finish, hv.segStart, hv.segEnd]
  by_cases hbefore : cv.segStart < stop
  · by_cases hgap : cv.segEnd < cv.segStart
    · rw [if_pos ⟨hbefore, hgap⟩, if_pos hbefore, if_pos hgap]
      exact appendComplement_spec hv.complements hv.cur _ _
    · rw [if_neg fun h => hgap h.2, if_pos hbefore, if_neg hgap]
      exact ⟨⟨m, _, S, rfl, hv.complements, .refl m S⟩, hv.cur⟩
  · rw [if_neg fun h => hbefore h.1, if_neg hbefore]
    exact ⟨⟨m, _, S, rfl, hv.complements, .refl m S⟩, hv.cur⟩

/-- **`get_complement_segment`.** -/
theorem getComplementSegment_spec (h : OwnsCtx m p ctx S) (start stop : UInt32) :
    ∃ m' q S', getComplementSegment m p start stop = .ok (m', q) ∧
      OwnsCtx m' q (LibDtp.getComplementSegment ctx start stop) S' ∧
        (∀ s, (LibDtp.getComplementSegment ctx start stop).cur ≠ .own s) ∧ Moves m m' ∅ S' := by
  obtain ⟨a, c, T, rfl, ha, hstores, rfl⟩ := h.stores
  obtain ⟨l, hl, hsegs, hpoints⟩ := hstores.cells
  have hnew : (m.push (.ctx initSegmentsCtx)).lookup m.next = some (.ctx initSegmentsCtx) :=
    lookup_push_self m _
  have hkept : ∀ b ∈ addresses l, (m.push (.ctx initSegmentsCtx)).lookup b =
      m.lookup b := fun b hb =>
    lookup_push_of_lt (Seg.lt hl hb) _
  have ha' : (m.push (.ctx initSegmentsCtx)).lookup a = some (.ctx c) := by
    rw [lookup_push_of_lt (lt_of_lookup ha), ha]
  have hstart : (⟨0, 0, initSegmentsCtx⟩ : ComplementPtr).Stands (m.push (.ctx initSegmentsCtx))
    ⟨0, 0, LibDtp.initSegmentsCtx⟩ ∅ :=
    ⟨rfl, rfl, ⟨⟨[], rfl, rfl, rfl, rfl⟩, rfl, rfl, rfl⟩, by simp [LibDtp.initSegmentsCtx]⟩
  have hlinks : Links (m.push (.ctx initSegmentsCtx)) c.segments l := Seg.congr hl hkept
  obtain ⟨m₁, v, S₁, hm₁, hstands, hmoves₁⟩ := complementLoop_spec start stop hlinks hstart
    (Finset.disjoint_empty_left _) (Nat.lt_succ_of_le hlinks.length_le)
  rw [hsegs] at hstands
  obtain ⟨⟨m₂, c₂, S₂, hm₂, hstores₂, hmoves₂⟩, hcur₂⟩ := finish_spec stop hstands
  obtain ⟨hstore, howns, hmoves⟩ :=
    hstores₂.writeBack hnew (Finset.notMem_empty _) (hmoves₁.trans hmoves₂)
  refine ⟨_, _, _, ?_, howns, hcur₂, (moves_push m _ ∅).trans hmoves⟩
  simp only [getComplementSegment, alloc, loadCtx_eq ha', hm₁, hm₂, hstore, bind, Except.bind]
  rfl

/-! ### Merging -/

/-- What a context is while segments are merged into it. -/
structure Gathering (ctx : SegmentsCtx) : Prop where
  /-- Nothing has gone wrong. -/
  broken : ctx.broken = false
  /-- Its current segment is not in its list. -/
  cur : ctx.started = false ∧ ctx.cur = .null ∨ ctx.started = true ∧ ∃ s, ctx.cur = .own s

theorem gathering_init : Gathering LibDtp.initSegmentsCtx := ⟨rfl, .inl ⟨rfl, rfl⟩⟩

theorem Gathering.first (h : Gathering ctx) (hstarted : ctx.started = false) (s : Segment) :
    ctx.cur ≠ .own s := by
  rcases h.cur with ⟨-, hnull⟩ | ⟨hyes, -⟩
  · simp [hnull]
  · simp [hstarted] at hyes

/-- An update goes well, whatever the segment is. -/
theorem Gathering.update (h : Gathering ctx) (start stop : UInt32) :
    Gathering (LibDtp.updateSegmentsRange ctx start stop) := by
  simp only [LibDtp.updateSegmentsRange]
  rcases h.cur with ⟨hstarted, hnull⟩ | ⟨hstarted, s, hown⟩
  · rw [if_pos hstarted]
    exact ⟨h.broken, .inr ⟨rfl, _, rfl⟩⟩
  · rw [if_neg (by simp [hstarted])]
    simp only [SegmentsCtx.current, hown]
    split_ifs
    · exact h
    · simp only [SegmentsCtx.setCurrentEnd, hown]
      exact ⟨h.broken, .inr ⟨hstarted, _, rfl⟩⟩
    · have heq : ctx = { ctx with cur := .own s } := by rw [← hown]
      have hsame : (LibDtp.appendSegment ctx).started = ctx.started := by
        simp only [LibDtp.appendSegment, hown]
        split <;> rfl
      refine ⟨?_, .inr ⟨hsame.trans hstarted, _, rfl⟩⟩
      rw [heq]
      exact (appendSegment_own ctx s).trans h.broken

/-- It can be closed. -/
theorem Gathering.close (h : Gathering ctx) :
    (LibDtp.closeSegments ctx).broken = false ∧ ∀ s, (LibDtp.closeSegments ctx).cur ≠ .own s := by
  rw [LibDtp.closeSegments]
  split_ifs with hnull
  · exact ⟨h.broken, by simp [hnull]⟩
  · obtain ⟨-, s, hown⟩ := h.cur.resolve_left fun h => hnull h.2
    have hbroken : (LibDtp.appendSegment ctx).broken = false := by
      have heq : ctx = { ctx with cur := .own s } := by rw [← hown]
      rw [heq]
      exact (appendSegment_own ctx s).trans h.broken
    exact ⟨hbroken, appendSegment_cur ctx hbroken⟩

/-- Segment `s` is merged into a context, while two lists are read. -/
theorem Gathering.merge (hg : Gathering ctx) (h : Stores m c ctx S) (s : Segment) {q : Option ℕ}
    (hp : Links m p l₁) (hq : Links m q l₂) (hdisjoint : Disjoint S (addresses l₁ ∪ addresses l₂)) :
    ∃ m' c' S', updateSegmentsRange m c s.start s.stop = .ok (m', c') ∧
      Stores m' c' (LibDtp.updateSegmentsRange ctx s.start s.stop) S' ∧ Moves m m' S S' ∧
        Links m' p l₁ ∧ Links m' q l₂ ∧
        Disjoint S' (addresses l₁ ∪ addresses l₂) := by
  obtain ⟨m', c', S', hm', hstores, hmoves⟩ :=
    updateSegmentsRange_spec h (fun hno => hg.first hno) (hg.update s.start s.stop).broken
  have hlt : ∀ b ∈ addresses l₁ ∪ addresses l₂, b < m.next := fun b hb =>
    (Finset.mem_union.mp hb).elim (fun hb => Seg.lt hp hb) fun hb => Seg.lt hq hb
  obtain ⟨hsame, hdisjoint'⟩ := hmoves.frame hlt hdisjoint
  exact ⟨m', c', S', hm', hstores, hmoves, Seg.congr hp fun b hb =>
    hsame b (Finset.mem_union_left _ hb),
    Seg.congr hq fun b hb => hsame b (Finset.mem_union_right _ hb), hdisjoint'⟩

/-- The context that the segments of a list are merged into. -/
def gather (ctx : SegmentsCtx) (l : List Segment) : SegmentsCtx :=
  l.foldl (fun ctx s => LibDtp.updateSegmentsRange ctx s.start s.stop) ctx

theorem Gathering.gather (h : Gathering ctx) (l : List Segment) : Gathering (Mem.gather ctx l) := by
  induction l generalizing ctx with
  | nil => exact h
  | cons s l ih => exact ih (h.update s.start s.stop)

/-- Merging ends with `close_segments`. -/
theorem mergeSegments_closed (ctx ctx' : SegmentsCtx) (s : Segment) :
    (LibDtp.mergeSegments ctx ctx').cur ≠ .own s :=
  (gathering_init.gather (mergeOrder ctx.segments ctx'.segments)).close.2 s

theorem mergeLoop_spec {fuel : ℕ} {q : Option ℕ} (hp : Links m p l₁) (hq : Links m q l₂)
    (hg : Gathering ctx) (h : Stores m c ctx S)
    (hdisjoint : Disjoint S (addresses l₁ ∪ addresses l₂)) (hfuel : l₁.length + l₂.length < fuel) :
    ∃ m' c' S', mergeLoop fuel p q m c = .ok (m', c') ∧
      Stores m' c' (gather ctx (mergeOrder (segmentsOf l₁) (segmentsOf l₂))) S' ∧
        Moves m m' S S' := by
  induction fuel generalizing m c ctx S p q l₁ l₂ with
  | zero => exact absurd hfuel (Nat.not_lt_zero _)
  | succ fuel ih =>
    cases l₁ with
    | nil =>
      obtain rfl : p = none := hp
      cases l₂ with
      | nil =>
        obtain rfl : q = none := hq
        exact ⟨m, c, S, rfl, h, .refl m S⟩
      | cons y bs =>
        obtain ⟨b, s⟩ := y
        obtain ⟨rfl, next, hb, hbs⟩ := hq
        have hp' : Links m none [] := rfl
        obtain ⟨m₁, c₁, S₁, hm₁, hstores₁, hmoves₁, -, hbs₁, hdisjoint₁⟩ := hg.merge h s hp' hbs (by
          refine hdisjoint.mono_right ?_
          simp)
        obtain ⟨m', c', S', hm', hstores', hmoves'⟩ :=
          ih (show Links m₁ none [] from rfl) hbs₁ (hg.update s.start s.stop) hstores₁
          hdisjoint₁ (by simp at hfuel ⊢; omega)
        refine ⟨m', c', S', ?_, hstores', hmoves₁.trans hmoves'⟩
        simp only [mergeLoop, loadSegment_eq hb, hm₁, bind, Except.bind, hm']
    | cons x as =>
      obtain ⟨a, r⟩ := x
      have hp' := hp
      obtain ⟨rfl, nextA, ha, has⟩ := hp
      cases l₂ with
      | nil =>
        obtain rfl : q = none := hq
        have hq' : Links m none [] := rfl
        obtain ⟨m₁, c₁, S₁, hm₁, hstores₁, hmoves₁, has₁, -, hdisjoint₁⟩ := hg.merge h r has hq' (by
          refine hdisjoint.mono_right ?_
          simp)
        obtain ⟨m', c', S', hm', hstores', hmoves'⟩ :=
          ih has₁ (show Links m₁ none [] from rfl) (hg.update r.start r.stop) hstores₁
          hdisjoint₁ (by simp at hfuel ⊢; omega)
        have horder : mergeOrder (segmentsOf as) [] = segmentsOf as := by cases segmentsOf as <;>
          rfl
        simp only [segmentsOf_nil, horder] at hstores'
        refine ⟨m', c', S', ?_, hstores', hmoves₁.trans hmoves'⟩
        simp only [mergeLoop, loadSegment_eq ha, hm₁, bind, Except.bind, hm']
      | cons y bs =>
        obtain ⟨b, s⟩ := y
        have hq' := hq
        obtain ⟨rfl, nextB, hb, hbs⟩ := hq
        simp only [mergeLoop, loadSegment_eq ha, loadSegment_eq hb, bind, Except.bind]
        by_cases hlt : r.start < s.start
        · have horder : mergeOrder (segmentsOf ((a, r) :: as)) (segmentsOf ((b, s) :: bs)) =
              r :: mergeOrder (segmentsOf as) (segmentsOf ((b, s) :: bs)) := by
            simp only [segmentsOf_cons, mergeOrder, mergeFrom, if_pos hlt]
          obtain ⟨m₁, c₁, S₁, hm₁, hstores₁, hmoves₁, has₁, hbs₁, hdisjoint₁⟩ :=
              hg.merge h r has hq' (by
            refine hdisjoint.mono_right ?_
            rw [addresses_cons (a, r)]
            exact Finset.union_subset_union_left (Finset.subset_insert _ _))
          obtain ⟨m', c', S', hm', hstores', hmoves'⟩ :=
            ih has₁ hbs₁ (hg.update r.start r.stop) hstores₁ hdisjoint₁
            (by simp at hfuel ⊢; omega)
          rw [if_pos hlt, hm₁, horder]
          exact ⟨m', c', S', hm', hstores', hmoves₁.trans hmoves'⟩
        · have horder : mergeOrder (segmentsOf ((a, r) :: as)) (segmentsOf ((b, s) :: bs)) =
              s :: mergeOrder (segmentsOf ((a, r) :: as)) (segmentsOf bs) := by
            simp only [segmentsOf_cons, mergeOrder, mergeFrom, if_neg hlt]
          obtain ⟨m₁, c₁, S₁, hm₁, hstores₁, hmoves₁, has₁, hbs₁, hdisjoint₁⟩ :=
              hg.merge h s hp' hbs (by
            refine hdisjoint.mono_right ?_
            rw [addresses_cons (b, s)]
            exact Finset.union_subset_union_right (Finset.subset_insert _ _))
          obtain ⟨m', c', S', hm', hstores', hmoves'⟩ :=
            ih has₁ hbs₁ (hg.update s.start s.stop) hstores₁ hdisjoint₁
            (by simp at hfuel ⊢; omega)
          rw [if_neg hlt, hm₁, horder]
          exact ⟨m', c', S', hm', hstores', hmoves₁.trans hmoves'⟩

/-- **`merge_segments`.** -/
theorem mergeSegments_spec {q : Option ℕ} {ctx' : SegmentsCtx} {T : Finset ℕ}
    (hp : OwnsCtx m p ctx S) (hq : OwnsCtx m q ctx' T) :
    ∃ m' o U, mergeSegments m p q = .ok (m', o) ∧ OwnsCtx m' o (LibDtp.mergeSegments ctx ctx') U ∧
      Moves m m' ∅ U := by
  obtain ⟨a, ca, Ta, rfl, ha, hstoresA, rfl⟩ := hp.stores
  obtain ⟨b, cb, Tb, rfl, hb, hstoresB, rfl⟩ := hq.stores
  obtain ⟨la, hla, hsegsA, -⟩ := hstoresA.cells
  obtain ⟨lb, hlb, hsegsB, -⟩ := hstoresB.cells
  have hnew : (m.push (.ctx initSegmentsCtx)).lookup m.next = some (.ctx initSegmentsCtx) :=
    lookup_push_self m _
  have ha' : (m.push (.ctx initSegmentsCtx)).lookup a = some (.ctx ca) := by
    rw [lookup_push_of_lt (lt_of_lookup ha), ha]
  have hb' : (m.push (.ctx initSegmentsCtx)).lookup b = some (.ctx cb) := by
    rw [lookup_push_of_lt (lt_of_lookup hb), hb]
  have hla' : Links (m.push (.ctx initSegmentsCtx)) ca.segments la :=
    Seg.congr hla fun d hd => lookup_push_of_lt (Seg.lt hla hd) _
  have hlb' : Links (m.push (.ctx initSegmentsCtx)) cb.segments lb :=
    Seg.congr hlb fun d hd => lookup_push_of_lt (Seg.lt hlb hd) _
  have hempty : Stores (m.push (.ctx initSegmentsCtx)) initSegmentsCtx LibDtp.initSegmentsCtx ∅ :=
    ⟨⟨[], rfl, rfl, rfl, rfl⟩, rfl, rfl, rfl⟩
  have hfuel : la.length + lb.length < 2 * (m.push (.ctx initSegmentsCtx)).next + 1 := by
    have h1 := hla'.length_le
    have h2 := hlb'.length_le
    omega
  obtain ⟨m₁, c₁, S₁, hm₁, hstores₁, hmoves₁⟩ :=
    mergeLoop_spec hla' hlb' gathering_init hempty (Finset.disjoint_empty_left _) hfuel
  rw [hsegsA, hsegsB] at hstores₁
  obtain ⟨hbroken, -⟩ := (gathering_init.gather (mergeOrder ctx.segments ctx'.segments)).close
  obtain ⟨m₂, c₂, S₂, hm₂, hstores₂, hmoves₂⟩ := closeSegmentsPtr_spec hstores₁ hbroken
  obtain ⟨hstore, howns, hmoves⟩ :=
    hstores₂.writeBack hnew (Finset.notMem_empty _) (hmoves₁.trans hmoves₂)
  refine ⟨_, _, _, ?_, howns, (moves_push m _ ∅).trans hmoves⟩
  simp only [mergeSegments, alloc, loadCtx_eq ha', loadCtx_eq hb', hm₁, hm₂, hstore, bind,
    Except.bind]
  rfl

/-! ### Reading, adding and freeing -/

theorem forEachLoop_spec {γ : Type} (cb : ℕ → Segment → γ → Bool × γ) {fuel idx : ℕ}
    (hl : Links m p l) (hfuel : l.length < fuel) (x : γ) :
    forEachLoop m cb fuel idx p x = .ok (LibDtp.forEachSegment cb idx (segmentsOf l) x) := by
  induction l generalizing p fuel idx x with
  | nil =>
    obtain rfl : p = none := hl
    cases fuel with
    | zero => exact absurd hfuel (Nat.not_lt_zero _)
    | succ fuel => rfl
  | cons d rest ih =>
    obtain ⟨rfl, next, hd, hrest⟩ := hl
    cases fuel with
    | zero => exact absurd hfuel (Nat.not_lt_zero _)
    | succ fuel =>
      simp only [forEachLoop, loadSegment_eq hd, bind, Except.bind, segmentsOf_cons,
        LibDtp.forEachSegment]
      split_ifs with hgo
      · exact ih hrest (Nat.lt_of_succ_lt_succ hfuel) _
      · rfl

/-- **`for_each_segment`.** -/
theorem forEachSegment_spec {γ : Type} (h : OwnsCtx m p ctx S) (cb : ℕ → Segment → γ → Bool × γ)
    (x : γ) :
    forEachSegment m p cb x = .ok (LibDtp.forEachSegment cb 0 ctx.segments x) := by
  obtain ⟨a, c, T, rfl, ha, hstores, -⟩ := h.stores
  obtain ⟨l, hl, hsegs, -⟩ := hstores.cells
  simp only [forEachSegment, loadCtx_eq ha, bind, Except.bind, ← hsegs]
  exact forEachLoop_spec cb hl (Nat.lt_succ_of_le hl.length_le) x

/-- **`print_segments`** gets to the end of the list. -/
theorem printSegments_spec (h : OwnsCtx m p ctx S) : printSegments m p = .ok () :=
  forEachSegment_spec h _ _

theorem addLoop_spec {fuel : ℕ} {q : Option ℕ} (hl : Links m q (l₁ ++ l₂)) (hp : Links m p l₂)
    (hne : l₂ ≠ []) (ha : m.lookup a = some (.segment s none)) (hna : a ∉ addresses (l₁ ++ l₂))
    (hfuel : l₂.length < fuel) :
    ∃ m', addLoop m (some a) fuel p = .ok m' ∧ Links m' q (l₁ ++ l₂ ++ [(a, s)]) ∧
      Moves m m' (insert a (addresses (l₁ ++ l₂))) (insert a (addresses (l₁ ++ l₂))) := by
  induction l₂ generalizing l₁ p fuel with
  | nil => exact absurd rfl hne
  | cons x rest ih =>
    obtain ⟨b, r⟩ := x
    obtain ⟨rfl, next, hb, hrest⟩ := hp
    cases fuel with
    | zero => exact absurd hfuel (Nat.not_lt_zero _)
    | succ fuel =>
      simp only [addLoop, loadSegment_eq hb, bind, Except.bind]
      by_cases hnext : next = none
      · subst hnext
        obtain rfl : rest = [] := by
          cases rest with
          | nil => rfl
          | cons x rest => cases hrest.1
        have hown : Links m (some a) [(a, s)] := ⟨rfl, none, ha, rfl⟩
        have hlink := Seg.link hl hl.nodup hown (a := b) (by
          rintro hmem
          obtain rfl : b = a := by simpa using hmem
          simp at hna)
        rw [if_pos rfl, store_eq hb]
        exact ⟨_, rfl, hlink, moves_put (Finset.mem_insert_of_mem (by simp)) _⟩
      · have hmore : rest ≠ [] := by
          rintro rfl
          exact hnext hrest
        rw [if_neg hnext]
        obtain ⟨m', hm', hlinks, hmoves⟩ :=
          @ih next (l₁ ++ [(b, r)]) fuel (by simpa using hl) hrest hmore (by simpa using hna)
          (Nat.lt_of_succ_lt_succ hfuel)
        exact ⟨m', hm', by simpa using hlinks, by simpa using hmoves⟩

/-- **`add_segment`**, to a context that no update has been made of. The node is linked at the end
of the list. -/
theorem addSegment_spec (h : OwnsCtx m p ctx S) (hcur : ctx.cur = .null) (start stop : UInt32) :
    ∃ m' S', addSegment m p start stop = .ok m' ∧
      OwnsCtx m' p (LibDtp.addSegment ctx start stop) S' ∧ Moves m m' S S' := by
  obtain ⟨a, c, T, rfl, ha, hstores, rfl⟩ := h.stores
  obtain ⟨l, hl, hsegs, hpoints⟩ := hstores.cells
  rw [hcur] at hpoints
  obtain ⟨hnull, rfl⟩ := hpoints
  have ha' : (m.push (.segment ⟨start, stop⟩ none)).lookup a = some (.ctx c) := by
    rw [lookup_push_of_lt (lt_of_lookup ha), ha]
  have hnew : (m.push (.segment ⟨start, stop⟩ none)).lookup m.next =
    some (.segment ⟨start, stop⟩ none) := lookup_push_self m _
  have hl' : Links (m.push (.segment ⟨start, stop⟩ none)) c.segments l :=
    Seg.congr hl fun b hb => lookup_push_of_lt (Seg.lt hl hb) _
  have hna : m.next ∉ addresses l := fun hmem => absurd (Seg.lt hl hmem) (lt_irrefl _)
  have hpush : Moves m (m.push (.segment ⟨start, stop⟩ none)) (addresses l)
    (insert m.next (addresses l)) := moves_push m _ _
  have hlinked : ∃ m' q, Links m' q (l ++ [(m.next, ⟨start, stop⟩)]) ∧
      Moves m m' (addresses l) (insert m.next (addresses l)) ∧
      addSegment m (some a) start stop =
        m'.store (some a) (.ctx { c with segments := q, nofSegments := c.nofSegments + 1 }) := by
    cases l with
    | nil =>
      have hnone : c.segments = none := hl
      refine ⟨_, some m.next, ⟨rfl, none, hnew, rfl⟩, hpush, ?_⟩
      simp only [addSegment, alloc, loadCtx_eq ha', bind, Except.bind, if_pos hnone]
    | cons x rest =>
      have hsome : c.segments ≠ none := by rw [hl.1]; simp
      obtain ⟨m₁, hm₁, hlinks, hmoves⟩ :=
        @addLoop_spec _ c.segments [] (x :: rest) m.next _ _ c.segments hl' hl' (by simp) hnew hna
        (Nat.lt_succ_of_le hl'.length_le)
      refine ⟨m₁, c.segments, hlinks, hpush.trans hmoves, ?_⟩
      simp only [addSegment, alloc, loadCtx_eq ha', bind, Except.bind, if_neg hsome, hm₁]
  obtain ⟨m', q, hlinks, hmoves, heq⟩ := hlinked
  have hstores' : Stores m' { c with segments := q, nofSegments := c.nofSegments + 1 }
    (LibDtp.addSegment ctx start stop)
      (insert m.next (addresses l)) := by
    refine ⟨⟨_, hlinks,
      by simp [LibDtp.addSegment, hsegs], ?_⟩, ?_, hstores.started, hstores.broken⟩
    · rw [LibDtp.addSegment, hcur]
      exact ⟨hnull, (addresses_concat l (m.next, ⟨start, stop⟩)).symm⟩
    · exact congrArg (· + 1) hstores.nofSegments
  obtain ⟨hstore, howns, hmoves'⟩ := hstores'.writeBack ha (hstores.ctx_not_mem ha) hmoves
  exact ⟨_, _, heq.trans hstore, howns, hmoves'⟩

/-- The first cell of a list is freed. -/
theorem Links.freeFirst {x : ℕ × Segment} (hl : Links m p (x :: l))
    (hx : m.lookup x.1 = some (.segment x.2 next)) :
    Links (m.put x.1 none) next l ∧ Moves m (m.put x.1 none) (addresses (x :: l))
    (addresses l) := by
  have hna : x.1 ∉ addresses l :=
    fun hmem => (List.nodup_cons.mp hl.nodup).1 (List.mem_toFinset.mp hmem)
  obtain ⟨-, next', hx', hrest⟩ := hl
  obtain rfl : next' = next := by
    rw [hx] at hx'
    exact (segment_inj _ _ _ _ (Option.some.inj hx')).2.symm
  refine ⟨Seg.congr hrest fun b hb => lookup_put_ne (ne_of_mem_of_not_mem hb hna) _, ?_⟩
  have hfree := moves_free hx (Finset.mem_insert_self x.1 (addresses l))
  rwa [Finset.erase_insert hna, ← addresses_cons] at hfree

theorem freeLoop_spec {fuel : ℕ} (hl : Links m p l) (hfuel : l.length < fuel) :
    ∃ m', freeLoop fuel p m = .ok m' ∧ Moves m m' (addresses l) ∅ := by
  induction l generalizing m p fuel with
  | nil =>
    obtain rfl : p = none := hl
    cases fuel with
    | zero => exact absurd hfuel (Nat.not_lt_zero _)
    | succ fuel => exact ⟨m, rfl, .refl m _⟩
  | cons x rest ih =>
    have hall := hl
    obtain ⟨rfl, next, ha, -⟩ := hl
    cases fuel with
    | zero => exact absurd hfuel (Nat.not_lt_zero _)
    | succ fuel =>
      obtain ⟨hrest, hfree⟩ := hall.freeFirst ha
      obtain ⟨m', hm', hmoves⟩ := ih hrest (Nat.lt_of_succ_lt_succ hfuel)
      refine ⟨m', ?_, hfree.trans hmoves⟩
      simp only [freeLoop, loadSegment_eq ha, free_eq ha, bind, Except.bind, hm']

/-- **`free_segments`** frees everything, unless there is a segment that is not in the list yet. -/
theorem freeSegments_spec (h : OwnsCtx m p ctx S) (hcur : ∀ s, ctx.cur ≠ .own s) :
    ∃ m', freeSegments m p = .ok m' ∧ Moves m m' S ∅ := by
  obtain ⟨a, c, T, rfl, ha, hstores, rfl⟩ := h.stores
  have hna := hstores.ctx_not_mem ha
  obtain ⟨l, hl, -, hpoints⟩ := hstores.cells
  obtain rfl : T = addresses l := hpoints.eq_addresses hcur
  obtain ⟨m₁, hm₁, hmoves₁⟩ := freeLoop_spec hl (Nat.lt_succ_of_le hl.length_le)
  obtain ⟨ha₁, -⟩ := hmoves₁.keeps ha hna
  have hwide : Moves m m₁ (insert a (addresses l)) {a} := by
    have h := hmoves₁.widen {a}
    rwa [Finset.union_singleton, Finset.empty_union] at h
  have hlast := moves_free ha₁ (Finset.mem_singleton_self a)
  rw [Finset.erase_singleton] at hlast
  refine ⟨_, ?_, hwide.trans hlast⟩
  simp only [freeSegments, loadCtx_eq ha, bind, Except.bind, hm₁]
  exact free_eq ha₁

/-! ### Removing -/

theorem PointsTo.freeFirst {x : ℕ × Segment} {cur : Cur} (h : PointsTo m (x :: l) p S cur)
    (hlast : cur = .last → l ≠ []) (hna : x.1 ∉ addresses l) :
    PointsTo (m.put x.1 none) l p (S.erase x.1) cur := by
  cases cur with
  | null =>
    obtain ⟨hp, rfl⟩ := h
    refine ⟨hp, ?_⟩
    rw [addresses_cons, Finset.erase_insert hna]
  | own s =>
    obtain ⟨a, hp, ha, hna', rfl⟩ := h
    rw [addresses_cons, Finset.mem_insert, not_or] at hna'
    refine ⟨a, hp, ?_, hna'.2, ?_⟩
    · rw [lookup_put_ne hna'.1, ha]
    · rw [addresses_cons, Finset.erase_insert_of_ne hna'.1, Finset.erase_insert hna]
  | last =>
    obtain ⟨c, hc, hp, rfl⟩ := h
    obtain ⟨y, l', rfl⟩ := List.exists_cons_of_ne_nil (hlast rfl)
    refine ⟨c, by simpa using hc, hp, ?_⟩
    rw [addresses_cons x, Finset.erase_insert hna]

end Specs

end Mem

end LibDtp

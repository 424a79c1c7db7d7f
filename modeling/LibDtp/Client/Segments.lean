import LibDtp.Foundation.Ranges
import LibDtp.Protocol.Basic

/-!
# Segments

The segment lists of `dtp_client_posix_segments_utils.c`, in which a client keeps the packet numbers
it has received.

## The model

The linked list of a `segments_ctx_t` is a list of segments. `cur_segment` is a pointer: it is null,
it is a segment of its own, or, once `append_segment` has linked it, it is the last node of the
list. The third case is the reason for `Cur`: a change of the current segment is then a change of
the list, and a `free` of it leaves a freed node in the list.

`malloc` and `calloc` succeed. What C leaves undefined here, a null pointer that is followed and a
freed node that stays in the list, is recorded in `broken`.

## What is proved

* `closed_updates` — the list after some updates and `close_segments` is what `Ranges.collect` makes
  of the packets, so it is canonical and has no other packets.
* `mergeSegments_spec` — `merge_segments` of two canonical lists is canonical, and the union.
* `getComplementSegment_eq` — what the complement of a canonical list is, exactly.
* `getComplementSegment_spec` — the complement of a canonical list is canonical, lies in the range
  asked for, and has nothing of the list; it is empty for an empty list and for a single segment
  that starts at `0` and reaches the end or the number before it.
-/

namespace LibDtp

open Ranges

/-- `segment_t`, without its `next`. The source's name for `stop` is `end`. -/
structure Segment where
  /-- The first packet. -/
  start : UInt32
  /-- The last packet. -/
  stop : UInt32
  deriving DecidableEq, Repr

/-- What `cur_segment` points to. -/
inductive Cur where
  /-- Nothing. -/
  | null
  /-- A segment that is not in the list. -/
  | own (s : Segment)
  /-- The last node of the list. -/
  | last
  deriving DecidableEq, Repr

/-- `segments_ctx_t`. -/
structure SegmentsCtx where
  /-- The list. -/
  segments : List Segment
  /-- `cur_segment`. -/
  cur : Cur
  /-- `nof_segments`. -/
  nofSegments : UInt32
  /-- `started`. -/
  started : Bool
  /-- Has what C leaves undefined happened? -/
  broken : Bool
  deriving DecidableEq, Repr

/-- `init_segments_ctx`. -/
def initSegmentsCtx : SegmentsCtx := ⟨[], .null, 0, false, false⟩

/-- The loop of `append_segment` over the list: the list after it, and whether the segment was
linked at its end. If not, a segment of the list has taken it in. -/
def appendWalk (cur : Segment) : List Segment → List Segment × Bool
  | [] => ([cur], true)
  | r :: rs =>
    if cur.start ≥ r.start ∧ cur.start ≤ r.stop then
      if cur.stop ≥ r.stop then ({ r with stop := cur.stop } :: rs, false)
      else (r :: (appendWalk cur rs).1, (appendWalk cur rs).2)
    else if cur.start ≤ r.start ∧
      cur.stop ≥ r.start then ({ r with start := cur.start } :: rs, false)
    else (r :: (appendWalk cur rs).1, (appendWalk cur rs).2)

/-- `append_segment`. -/
def appendSegment (ctx : SegmentsCtx) : SegmentsCtx :=
  match ctx.cur with
  | .null => { ctx with broken := true }
  | .own s =>
    if (appendWalk s ctx.segments).2 then
      { ctx with
        segments := (appendWalk s ctx.segments).1, cur := .last, nofSegments := ctx.nofSegments +
          1 }
    else { ctx with segments := (appendWalk s ctx.segments).1, cur := .null }
  | .last =>
    -- the walk comes to the current segment itself at the latest, which takes itself in and is
    -- freed
    match ctx.segments.getLast? with
    | none => { ctx with broken := true }
    | some s => { ctx with segments := (appendWalk s ctx.segments).1, cur := .null, broken := true }

/-- `*cur_segment`. -/
def SegmentsCtx.current (ctx : SegmentsCtx) : Option Segment :=
  match ctx.cur with
  | .null => none
  | .own s => some s
  | .last => ctx.segments.getLast?

/-- `cur_segment->end = stop`. -/
def SegmentsCtx.setCurrentEnd (ctx : SegmentsCtx) (stop : UInt32) : SegmentsCtx :=
  match ctx.cur with
  | .null => ctx
  | .own s => { ctx with cur := .own { s with stop := stop } }
  | .last => { ctx with segments := ctx.segments.modifyLast fun s => { s with stop := stop } }

/-- `update_segments_range`. -/
def updateSegmentsRange (ctx : SegmentsCtx) (start stop : UInt32) : SegmentsCtx :=
  if ctx.started =
    false then { ctx with nofSegments := 0, started := true, cur := .own ⟨start, stop⟩ }
  else
    match ctx.current with
    | none => { ctx with broken := true }
    | some cur =>
      if cur.stop + 1 ≥ start then
        if cur.stop ≥ stop then ctx else ctx.setCurrentEnd stop
      else { appendSegment ctx with cur := .own ⟨start, stop⟩ }

/-- `update_segments`. -/
def updateSegments (ctx : SegmentsCtx) (received : UInt32) : SegmentsCtx :=
  updateSegmentsRange ctx received received

/-- `close_segments`. -/
def closeSegments (ctx : SegmentsCtx) : SegmentsCtx :=
  if ctx.cur = .null then ctx else appendSegment ctx

/-- The state of the loop of `get_complement_segment`. -/
structure Complement where
  /-- `seg_start`. -/
  segStart : UInt32
  /-- `seg_end`. -/
  segEnd : UInt32
  /-- `complements`. -/
  complements : SegmentsCtx

/-- One turn of the loop of `get_complement_segment`. -/
def complementStep (start stop : UInt32) (c : Complement) (runner : Segment) : Complement :=
  if runner.start = start ∧ runner.stop + 1 < stop then { c with segStart := runner.stop + 1 }
  else if runner.start > 0 ∧ c.segStart ≤ runner.start - 1 then
    { segStart := runner.stop + 1
      segEnd := runner.start - 1
      complements := appendSegment
        { c.complements with cur := .own ⟨c.segStart, runner.start - 1⟩ } }
  else c

/-- `get_complement_segment`, after its loop. -/
def Complement.finish (c : Complement) (stop : UInt32) : SegmentsCtx :=
  if c.segStart < stop then
    if c.segEnd < c.segStart then appendSegment
      { c.complements with cur := .own ⟨c.segStart, stop⟩ }
    else c.complements
  else c.complements

/-- `get_complement_segment`. -/
def getComplementSegment (ctx : SegmentsCtx) (start stop : UInt32) : SegmentsCtx :=
  (ctx.segments.foldl (complementStep start stop) ⟨0, 0, initSegmentsCtx⟩).finish stop

/-- `add_segment`. -/
def addSegment (ctx : SegmentsCtx) (start stop : UInt32) : SegmentsCtx :=
  { ctx with segments := ctx.segments ++ [⟨start, stop⟩], nofSegments := ctx.nofSegments + 1 }

/-- `for_each_segment`, from index `idx` on: the callback says whether to go on. -/
def forEachSegment {β : Type} (cb : ℕ → Segment → β → Bool × β) : ℕ → List Segment → β → β
  | _, [], ctx => ctx
  | idx, s :: l, ctx => if (cb idx s ctx).1 then forEachSegment cb (idx + 1) l (cb idx s ctx).2
    else (cb idx s ctx).2

/-- The turns of `merge_segments` with `iter_a` at `a`, up to the one in which it moves on. -/
def mergeFrom (a : Segment) (as : List Segment) (rest : List Segment → List Segment) :
    List Segment → List Segment
  | [] => a :: as
  | b :: bs => if a.start < b.start then a :: rest (b :: bs) else b :: mergeFrom a as rest bs

/-- The order in which `merge_segments` goes through two lists. -/
def mergeOrder : List Segment → List Segment → List Segment
  | [], bs => bs
  | a :: as, bs => mergeFrom a as (mergeOrder as) bs

/-- `merge_segments`. -/
def mergeSegments (a b : SegmentsCtx) : SegmentsCtx :=
  closeSegments ((mergeOrder a.segments b.segments).foldl
    (fun ctx s => updateSegmentsRange ctx s.start s.stop) initSegmentsCtx)

/-! ### Segments as ranges -/

/-- The packets of a segment. -/
def Segment.range (s : Segment) : Range := ⟨s.start.toNat, s.stop.toNat⟩

/-- A list of segments as ranges. -/
def ranges (l : List Segment) : List Range := l.map Segment.range

/-- The packets in the list. -/
def SegmentsCtx.covered (ctx : SegmentsCtx) : Finset ℕ := cover (ranges ctx.segments)

@[simp] theorem ranges_append (l l' : List Segment) : ranges (l ++ l') = ranges l ++ ranges l' :=
  List.map_append

@[simp] theorem ranges_cons (s : Segment) (l : List Segment) :
    ranges (s :: l) = s.range :: ranges l := rfl

@[simp] theorem ranges_nil : ranges [] = [] := rfl

@[simp] theorem lo_range (s : Segment) : s.range.lo = s.start.toNat := rfl

@[simp] theorem hi_range (s : Segment) : s.range.hi = s.stop.toNat := rfl

@[simp] theorem length_ranges (l : List Segment) : (ranges l).length = l.length := List.length_map _

theorem mem_ranges {l : List Segment} {s : Segment} (h : s ∈ l) : s.range ∈ ranges l :=
  List.mem_map_of_mem h

/-- The list of a context is a canonical list of ranges, and is counted. -/
structure SegmentsCtx.Lists (ctx : SegmentsCtx) (l : List Range) : Prop where
  /-- The list. -/
  segments : ranges ctx.segments = l
  /-- Its length. -/
  nofSegments : ctx.nofSegments = UInt32.ofNat l.length
  /-- Nothing has gone wrong. -/
  broken : ctx.broken = false

/-- A segment that comes after all others is linked at the end. -/
theorem appendWalk_of_lt {cur : Segment} {l : List Segment}
    (h : ∀ s ∈ l, s.stop.toNat < cur.start.toNat) (hl : ∀ s ∈ l, s.start.toNat ≤ s.stop.toNat) :
    appendWalk cur l = (l ++ [cur], true) := by
  induction l with
  | nil => rfl
  | cons r rs ih =>
    have hr := h r (List.mem_cons_self ..)
    have hv := hl r (List.mem_cons_self ..)
    have h1 : ¬ (cur.start ≥ r.start ∧ cur.start ≤ r.stop) := by
      simp only [ge_iff_le, UInt32.le_iff_toNat_le]
      omega
    have h2 : ¬ (cur.start ≤ r.start ∧ cur.stop ≥ r.start) := by
      simp only [ge_iff_le, UInt32.le_iff_toNat_le]
      omega
    rw [appendWalk, if_neg h1, if_neg h2, ih (fun s hs => h s (List.mem_cons_of_mem _ hs))
      fun s hs => hl s (List.mem_cons_of_mem _ hs)]
    rfl

theorem ofNat_length_concat {l : List Range} {r : Range} :
    UInt32.ofNat l.length + 1 = UInt32.ofNat (l ++ [r]).length := by
  simp

/-- A segment that comes after a gap is linked. -/
theorem SegmentsCtx.Lists.walk {ctx : SegmentsCtx} {l : List Range} (h : ctx.Lists l)
    (hl : Canonical l) {s : Segment} (hlast : ∀ r ∈ l, r.hi < s.range.lo) :
    appendWalk s ctx.segments = (ctx.segments ++ [s], true) := by
  have hmem : ∀ r ∈ ctx.segments, r.range ∈ l := fun r hr => h.segments ▸ mem_ranges hr
  exact appendWalk_of_lt (fun r hr => hlast _ (hmem r hr)) fun r hr => hl.valid _ (hmem r hr)

/-- Appending a segment that comes after a gap. -/
theorem SegmentsCtx.Lists.append {ctx : SegmentsCtx} {l : List Range} (h : ctx.Lists l)
    (hl : Canonical l) {s : Segment} (hcur : ctx.cur = .own s)
    (hlast : ∀ r ∈ l, r.hi < s.range.lo) : (appendSegment ctx).Lists (l ++ [s.range]) := by
  unfold appendSegment
  simp only [hcur, h.walk hl hlast, if_true]
  refine ⟨?_, ?_, h.broken⟩
  · simp [h.segments]
  · rw [h.nofSegments]
    exact ofNat_length_concat

/-! ### Updating and closing -/

/-- A context in the middle of its updates: the closed segments and the open one. -/
structure SegmentsCtx.Holds (ctx : SegmentsCtx) (acc : List Range × Range) : Prop where
  /-- The closed segments. -/
  lists : ctx.Lists acc.1
  /-- There has been an update. -/
  started : ctx.started = true
  /-- The open segment. -/
  cur : ∃ s, ctx.cur = .own s ∧ s.range = acc.2

/-- An update does what `absorb` does. -/
theorem SegmentsCtx.Holds.update {ctx : SegmentsCtx} {acc : List Range × Range} (h : ctx.Holds acc)
    (hacc : Open acc) (hmax : acc.2.hi + 1 < 2 ^ 32) {s : Segment} :
    (updateSegmentsRange ctx s.start s.stop).Holds (absorb acc s.range) := by
  obtain ⟨hl, -, hlast⟩ := open_iff.mp hacc
  obtain ⟨cur, hcur, hrange⟩ := h.cur
  have hcurrent : ctx.current = some cur := by rw [SegmentsCtx.current, hcur]
  have hstop : (cur.stop + 1).toNat = acc.2.hi + 1 := by
    rw [UInt32.toNat_add, ← hrange]
    rw [← hrange, hi_range] at hmax
    simp only [hi_range, show (1 : UInt32).toNat = 1 from rfl]
    omega
  have hstopHi : cur.stop.toNat = acc.2.hi := by rw [← hrange, hi_range]
  rw [updateSegmentsRange, if_neg (by rw [h.started]; decide)]
  simp only [hcurrent, ge_iff_le, UInt32.le_iff_toNat_le, hstop, hstopHi]
  by_cases hmeet : s.start.toNat ≤ acc.2.hi + 1
  · have habsorb : absorb acc s.range = (acc.1, ⟨acc.2.lo, max acc.2.hi s.stop.toNat⟩) :=
      if_pos hmeet
    rw [habsorb, if_pos hmeet]
    by_cases hold : s.stop.toNat ≤ acc.2.hi
    · rw [if_pos hold, max_eq_left hold]
      exact ⟨h.lists, h.started, cur, hcur, hrange⟩
    · have hset :
          ctx.setCurrentEnd s.stop = { ctx with cur := .own { cur with stop := s.stop } } := by
        rw [SegmentsCtx.setCurrentEnd, hcur]
      rw [if_neg hold, max_eq_right (not_le.mp hold).le, hset]
      refine ⟨⟨h.lists.segments, h.lists.nofSegments, h.lists.broken⟩, h.started, _, rfl, ?_⟩
      rw [← hrange]
      rfl
  · have habsorb : absorb acc s.range = (acc.1 ++ [acc.2], s.range) := if_neg hmeet
    have happ : (appendSegment ctx).Lists (acc.1 ++ [cur.range]) := by
      refine h.lists.append hl hcur fun r hr => ?_
      have := hlast r hr
      rw [hrange]
      omega
    have hstarted : (appendSegment ctx).started = true := by
      unfold appendSegment
      simp only [hcur]
      split_ifs <;> exact h.started
    rw [hrange] at happ
    rw [habsorb, if_neg hmeet]
    exact ⟨⟨happ.segments, happ.nofSegments, happ.broken⟩, hstarted, s, rfl, rfl⟩

/-- The first update. -/
theorem holds_first (s : Segment) :
    (updateSegmentsRange initSegmentsCtx s.start s.stop).Holds ([], s.range) :=
  ⟨⟨rfl, rfl, rfl⟩, rfl, s, rfl, rfl⟩

theorem hi_absorb_lt {acc : List Range × Range} {r : Range} {n : ℕ} (h : acc.2.hi < n)
    (hr : r.hi < n) :
    (absorb acc r).2.hi < n := by
  unfold absorb
  split_ifs
  · exact max_lt h hr
  · exact hr

theorem SegmentsCtx.Holds.updates {ctx : SegmentsCtx} {acc : List Range × Range} (h : ctx.Holds acc)
    (hacc : Open acc) (hmax : acc.2.hi < 2 ^ 32 - 1) {rs : List Segment}
    (hrs : ∀ s ∈ rs, s.start.toNat ≤ s.stop.toNat ∧ s.stop.toNat < 2 ^ 32 - 1) :
    (rs.foldl (fun ctx s => updateSegmentsRange ctx s.start s.stop) ctx).Holds
      ((ranges rs).foldl absorb acc) := by
  induction rs generalizing ctx acc with
  | nil => exact h
  | cons s rs ih =>
    obtain ⟨hs, hs'⟩ := hrs s (List.mem_cons_self ..)
    exact ih (h.update hacc (by omega)) (open_absorb hacc hs) (hi_absorb_lt hmax hs')
      fun a ha => hrs a (List.mem_cons_of_mem _ ha)

/-- Closing a context in the middle of its updates: the current segment is linked. -/
theorem SegmentsCtx.Holds.close {ctx : SegmentsCtx} {acc : List Range × Range} (h : ctx.Holds acc)
    (hacc : Open acc) :
    (closeSegments ctx).Lists (acc.1 ++ [acc.2]) ∧ (closeSegments ctx).cur = .last := by
  obtain ⟨hl, -, hlast⟩ := open_iff.mp hacc
  obtain ⟨cur, hcur, hrange⟩ := h.cur
  have hbefore : ∀ r ∈ acc.1, r.hi < cur.range.lo := by
    intro r hr
    have := hlast r hr
    rw [hrange]
    omega
  rw [closeSegments, if_neg (by rw [hcur]; simp)]
  constructor
  · have happ := h.lists.append hl hcur hbefore
    rwa [hrange] at happ
  · simp only [appendSegment, hcur, h.lists.walk hl hbefore, if_true]

/-- The list after some updates and `close_segments`, and the segment that was closed. -/
theorem closed_updates_cons {s : Segment} {rs : List Segment}
    (hrs : ∀ a ∈ s :: rs, a.start.toNat ≤ a.stop.toNat ∧ a.stop.toNat < 2 ^ 32 - 1) :
    (closeSegments
      ((s :: rs).foldl (fun ctx s => updateSegmentsRange ctx s.start s.stop) initSegmentsCtx)).Lists
        (collect (ranges (s :: rs))) ∧
      (closeSegments ((s :: rs).foldl
        (fun ctx s => updateSegmentsRange ctx s.start s.stop) initSegmentsCtx)).cur = .last := by
  obtain ⟨hs, hs'⟩ := hrs s (List.mem_cons_self ..)
  have hopen : Open ([], s.range) := canonical_nil.concat hs (by simp)
  have hrest : ∀ a ∈ rs, a.start.toNat ≤ a.stop.toNat ∧ a.stop.toNat < 2 ^ 32 - 1 :=
    fun a ha => hrs a (List.mem_cons_of_mem _ ha)
  have hopen' : Open ((ranges rs).foldl absorb ([], s.range)) := open_foldl hopen fun r hr => by
    obtain ⟨a, ha, rfl⟩ := List.mem_map.mp hr
    exact (hrest a ha).1
  exact ((holds_first s).updates hopen hs' hrest).close hopen'

/-- The list after some updates and `close_segments`. -/
theorem closed_updates {rs : List Segment}
    (hrs : ∀ s ∈ rs, s.start.toNat ≤ s.stop.toNat ∧ s.stop.toNat < 2 ^ 32 - 1) :
    (closeSegments
      (rs.foldl (fun ctx s => updateSegmentsRange ctx s.start s.stop) initSegmentsCtx)).Lists
      (collect (ranges rs)) := by
  cases rs with
  | nil => exact ⟨rfl, rfl, rfl⟩
  | cons s rs => exact (closed_updates_cons hrs).1

/-- Some packets, one after the other. -/
def updateAll (ctx : SegmentsCtx) (ns : List UInt32) : SegmentsCtx := ns.foldl updateSegments ctx

theorem updateAll_eq_foldl (ns : List UInt32) : updateAll initSegmentsCtx ns =
    (ns.map fun n => (⟨n, n⟩ : Segment)).foldl
      (fun ctx s => updateSegmentsRange ctx s.start s.stop) initSegmentsCtx := by
  rw [List.foldl_map]
  rfl

theorem valid_map_packet {ns : List UInt32} (hns : ∀ n ∈ ns, n.toNat < 2 ^ 32 - 1) :
    ∀ s ∈ ns.map fun n => (⟨n, n⟩ : Segment), s.start.toNat ≤ s.stop.toNat ∧
      s.stop.toNat < 2 ^ 32 - 1 := by
  intro s hs
  obtain ⟨n, hn, rfl⟩ := List.mem_map.mp hs
  exact ⟨le_rfl, hns n hn⟩

/-- The list after some packets and `close_segments`. -/
theorem lists_updateAll {ns : List UInt32} (hns : ∀ n ∈ ns, n.toNat < 2 ^ 32 - 1) :
    (closeSegments (updateAll initSegmentsCtx ns)).Lists
      (collect ((ns.map UInt32.toNat).map single)) := by
  have hranges : ranges (ns.map fun n => (⟨n, n⟩ : Segment)) =
      (ns.map UInt32.toNat).map single := by
    simp [ranges, Segment.range, single]
  rw [updateAll_eq_foldl, ← hranges]
  exact closed_updates (valid_map_packet hns)

/-- Once a list of packets is closed, the current segment is its last. -/
theorem cur_updateAll {ns : List UInt32} (hns : ∀ n ∈ ns, n.toNat < 2 ^ 32 - 1) (hne : ns ≠ []) :
    (closeSegments (updateAll initSegmentsCtx ns)).cur = .last := by
  have hvalid := valid_map_packet hns
  rw [updateAll_eq_foldl]
  cases ns with
  | nil => exact absurd rfl hne
  | cons n ns => exact (closed_updates_cons hvalid).2

/-- The packets a segment list stands for are packets that were received; all of them, if they came
in ascending order. -/
theorem closed_updateAll {ns : List UInt32} (hns : ∀ n ∈ ns, n.toNat < 2 ^ 32 - 1) :
    ∃ l, (closeSegments (updateAll initSegmentsCtx ns)).Lists l ∧ Canonical l ∧
      (∀ k ∈ cover l, ∃ n ∈ ns, n.toNat = k) ∧
      (ns.Pairwise (· ≤ ·) → ∀ n ∈ ns, n.toNat ∈ cover l) := by
  refine ⟨_, lists_updateAll hns, canonical_collect (valid_map_single _), fun k hk => ?_,
    fun hsorted n hn => ?_⟩
  · simpa using mem_cover_map_single.mp (cover_collect_subset _ hk)
  · rw [cover_collect, mem_cover_map_single]
    · exact List.mem_map_of_mem hn
    · rw [List.map_map, List.pairwise_map]
      exact hsorted.imp fun h => UInt32.le_iff_toNat_le.mp h

/-! ### Merging -/

theorem mem_mergeFrom {a s : Segment} {as : List Segment} {rest : List Segment → List Segment}
    (hrest : ∀ bs, s ∈ rest bs ↔ s ∈ as ∨ s ∈ bs) (bs : List Segment) :
    s ∈ mergeFrom a as rest bs ↔ s ∈ a :: as ∨ s ∈ bs := by
  induction bs with
  | nil => simp [mergeFrom]
  | cons b bs ih =>
    rw [mergeFrom]
    split_ifs
    · simp only [List.mem_cons, hrest]
      tauto
    · simp only [List.mem_cons, ih]
      tauto

theorem mem_mergeOrder {s : Segment} (as bs : List Segment) :
    s ∈ mergeOrder as bs ↔ s ∈ as ∨ s ∈ bs := by
  induction as generalizing bs with
  | nil => simp [mergeOrder]
  | cons a as ih => exact mem_mergeFrom ih bs

/-- Merging two lists in the order of their starts gives one in that order. -/
theorem pairwise_mergeOrder {as bs : List Segment}
    (ha : as.Pairwise fun s t => s.start.toNat ≤ t.start.toNat)
    (hb : bs.Pairwise fun s t => s.start.toNat ≤ t.start.toNat) :
    (mergeOrder as bs).Pairwise fun s t => s.start.toNat ≤ t.start.toNat := by
  induction as generalizing bs with
  | nil => exact hb
  | cons a as ih =>
    rw [mergeOrder]
    obtain ⟨hfirst, has⟩ := List.pairwise_cons.mp ha
    induction bs with
    | nil => exact ha
    | cons b bs ihb =>
      obtain ⟨hbfirst, hbs⟩ := List.pairwise_cons.mp hb
      rw [mergeFrom]
      split_ifs with hlt
      · rw [UInt32.lt_iff_toNat_lt] at hlt
        refine List.pairwise_cons.mpr ⟨fun s hs => ?_, ih has hb⟩
        rcases (mem_mergeOrder _ _).mp hs with hs | hs
        · exact hfirst s hs
        · rcases List.mem_cons.mp hs with rfl | hs
          · exact hlt.le
          · exact hlt.le.trans (hbfirst s hs)
      · rw [UInt32.lt_iff_toNat_lt] at hlt
        refine List.pairwise_cons.mpr ⟨fun s hs => ?_, ihb hbs⟩
        rcases (mem_mergeFrom (fun bs => mem_mergeOrder as bs) bs).mp hs with hs | hs
        · rcases List.mem_cons.mp hs with rfl | hs
          · exact not_lt.mp hlt
          · exact (not_lt.mp hlt).trans (hfirst s hs)
        · exact hbfirst s hs

theorem pairwise_start {l : List Segment} (h : Canonical (ranges l)) :
    l.Pairwise fun s t => s.start.toNat ≤ t.start.toNat := by
  refine (List.pairwise_map.mp h.apart).imp_of_mem fun {s t} hs _ hst => ?_
  have := h.valid _ (mem_ranges hs)
  simp only [lo_range, hi_range] at this hst
  omega

/-- `merge_segments` of two canonical lists is the canonical list of their union. -/
theorem mergeSegments_spec {a b : SegmentsCtx} (ha : Canonical (ranges a.segments))
    (hb : Canonical (ranges b.segments)) (hamax : ∀ s ∈ a.segments, s.stop.toNat < 2 ^ 32 - 1)
    (hbmax : ∀ s ∈ b.segments, s.stop.toNat < 2 ^ 32 - 1) :
    ∃ l, (mergeSegments a b).Lists l ∧ Canonical l ∧ cover l = a.covered ∪ b.covered := by
  have hmem : ∀ s ∈ mergeOrder a.segments b.segments, s.start.toNat ≤ s.stop.toNat ∧
      s.stop.toNat < 2 ^ 32 - 1 := by
    intro s hs
    rcases (mem_mergeOrder _ _).mp hs with hs | hs
    · exact ⟨ha.valid _ (mem_ranges hs), hamax s hs⟩
    · exact ⟨hb.valid _ (mem_ranges hs), hbmax s hs⟩
  refine ⟨_, closed_updates hmem, canonical_collect ?_, ?_⟩
  · intro r hr
    obtain ⟨s, hs, rfl⟩ := List.mem_map.mp hr
    exact (hmem s hs).1
  · rw [cover_collect]
    · ext k
      simp only [SegmentsCtx.covered, Finset.mem_union, mem_cover, ranges, List.mem_map,
        exists_exists_and_eq_and, mem_mergeOrder, or_and_right, exists_or]
    · rw [ranges, List.pairwise_map]
      exact pairwise_mergeOrder (pairwise_start ha) (pairwise_start hb)

/-! ### The complement -/

/-- The state of the loop with `l` still to come: what has been collected, `out`, comes before a
segment that ends right before `segStart`, and there is a gap before each of the segments to come.
-/
structure Complement.Gapped (c : Complement) (out : List Range) (l : List Segment) : Prop where
  /-- What has been collected. -/
  lists : c.complements.Lists out
  /-- It is in order. -/
  canonical : Canonical out
  /-- It comes before a segment. -/
  before : ∀ r ∈ out, r.hi + 1 < c.segStart.toNat
  /-- There is a gap before each segment to come. -/
  after : ∀ s ∈ l, c.segStart.toNat < s.start.toNat

/-- What a complement of `segments` up to `stop` is: nothing of them, and no more than `stop`. -/
structure SegmentsCtx.Complements (ctx : SegmentsCtx) (stop : UInt32) (segments : List Segment)
    (l : List Range) : Prop where
  /-- The list. -/
  lists : ctx.Lists l
  /-- It is in order. -/
  canonical : Canonical l
  /-- It has nothing of the segments. -/
  missing : ∀ k ∈ cover l, k ≤ stop.toNat ∧ k ∉ cover (ranges segments)
  /-- When it is empty. -/
  nil_iff : l = [] ↔ segments = [] ∨ ∃ s, segments = [s] ∧ s.start = 0 ∧
    stop.toNat ≤ s.stop.toNat + 1

theorem lists_init : initSegmentsCtx.Lists [] := ⟨rfl, rfl, rfl⟩

/-- Nothing has been passed: nothing is collected, not even up to `stop`. -/
theorem Complement.finish_zero (stop : UInt32) :
    (⟨0, 0, initSegmentsCtx⟩ : Complement).finish stop = initSegmentsCtx := by
  simp [Complement.finish]

/-- What is collected from `n` on: the gaps of a list, and what is left after it if that is more
than one number. -/
def missingFrom (n stop : ℕ) (l : List Range) : List Range :=
  gaps n l ++ if after n l < stop then [⟨after n l, stop⟩] else []

/-- What `get_complement_segment` makes of a canonical list. A range that starts at `0` is passed by
if it ends early enough, and otherwise not looked at. -/
def missing (stop : ℕ) : List Range → List Range
  | [] => []
  | r :: l =>
    if r.lo = 0 then
      if r.hi + 1 < stop then missingFrom (r.hi + 1) stop l else if l = [] then []
        else missingFrom 0 stop l
    else missingFrom 0 stop (r :: l)

theorem missingFrom_nil (n stop : ℕ) :
    missingFrom n stop [] = if n < stop then [⟨n, stop⟩] else [] := rfl

theorem missingFrom_cons_of_lt {n : ℕ} {r : Range} (h : n < r.lo) (stop : ℕ) (l : List Range) :
    missingFrom n stop (r :: l) = ⟨n, r.lo - 1⟩ :: missingFrom (r.hi + 1) stop l := by
  rw [missingFrom, gaps, if_pos h]
  rfl

theorem missingFrom_cons_of_le {n : ℕ} {r : Range} (h : r.lo ≤ n) (stop : ℕ) (l : List Range) :
    missingFrom n stop (r :: l) = missingFrom (r.hi + 1) stop l := by
  rw [missingFrom, gaps, if_neg (not_lt.mpr h)]
  rfl

theorem toNat_stop_add_one {s : Segment} (h : s.stop.toNat < 2 ^ 32 - 1) :
    (s.stop + 1).toNat = s.stop.toNat + 1 := by
  rw [UInt32.toNat_add, show (1 : UInt32).toNat = 1 from rfl]
  omega

/-- A segment after a gap: the gap is collected. -/
theorem Complement.Gapped.step {c : Complement} {out : List Range} {s : Segment} {l : List Segment}
    (h : c.Gapped out (s :: l)) (hl : Canonical (ranges (s :: l))) (hs : s.stop.toNat < 2 ^ 32 - 1)
    (stop : UInt32) :
    (complementStep 0 stop c s).Gapped (out ++ [⟨c.segStart.toNat, s.start.toNat - 1⟩]) l ∧
      (complementStep 0 stop c s).segStart.toNat = s.stop.toNat + 1 ∧
      (complementStep 0 stop c s).segEnd < (complementStep 0 stop c s).segStart := by
  have hafter := h.after s (List.mem_cons_self ..)
  have hvalid : s.start.toNat ≤ s.stop.toNat := hl.valid _ (List.mem_cons_self ..)
  have hone : (1 : UInt32) ≤ s.start := by
    rw [UInt32.le_iff_toNat_le, show (1 : UInt32).toNat = 1 from rfl]
    omega
  have hpred : (s.start - 1).toNat = s.start.toNat - 1 := by
    rw [UInt32.toNat_sub_of_le _ _ hone]
    rfl
  have hsucc : (s.stop + 1).toNat = s.stop.toNat + 1 := toNat_stop_add_one hs
  have hzero : ¬ (s.start = 0 ∧ s.stop + 1 < stop) := by
    rintro ⟨h0, -⟩
    rw [h0] at hafter
    exact absurd hafter (by simp)
  have hgap : s.start > 0 ∧ c.segStart ≤ s.start - 1 := by
    rw [gt_iff_lt, UInt32.lt_iff_toNat_lt, UInt32.le_iff_toNat_le, hpred, UInt32.toNat_zero]
    omega
  have hlists :
    ({ c.complements with cur := .own ⟨c.segStart, s.start - 1⟩ } : SegmentsCtx).Lists out :=
    ⟨h.lists.segments, h.lists.nofSegments, h.lists.broken⟩
  have happ := hlists.append h.canonical rfl fun r hr => by
    have := h.before r hr
    simp only [lo_range]
    omega
  simp only [Segment.range, hpred] at happ
  rw [complementStep, if_neg hzero, if_pos hgap]
  refine ⟨⟨happ, h.canonical.concat ?_ h.before, ?_, ?_⟩, hsucc, ?_⟩
  · change c.segStart.toNat ≤ s.start.toNat - 1
    omega
  · intro r hr
    simp only [List.mem_append, List.mem_singleton] at hr
    rw [hsucc]
    rcases hr with hr | rfl
    · have := h.before r hr
      omega
    · change s.start.toNat - 1 + 1 < _
      omega
  · intro t ht
    have : s.stop.toNat + 1 < t.start.toNat := (List.pairwise_cons.mp hl.apart).1 _ (mem_ranges ht)
    rw [hsucc]
    exact this
  · rw [UInt32.lt_iff_toNat_lt, hsucc, hpred]
    omega

/-- The end: what is left up to `stop` is collected. -/
theorem Complement.Gapped.finish {c : Complement} {out : List Range} (h : c.Gapped out [])
    (hend : c.segEnd < c.segStart) (stop : UInt32) :
    (c.finish stop).Lists (out ++ missingFrom c.segStart.toNat stop.toNat []) := by
  rw [Complement.finish, missingFrom_nil]
  simp only [UInt32.lt_iff_toNat_lt]
  by_cases hlt : c.segStart.toNat < stop.toNat
  · rw [if_pos hlt, if_pos hlt, if_pos (UInt32.lt_iff_toNat_lt.mp hend)]
    have hlists : ({ c.complements with cur := .own ⟨c.segStart, stop⟩ } : SegmentsCtx).Lists out :=
      ⟨h.lists.segments, h.lists.nofSegments, h.lists.broken⟩
    refine hlists.append h.canonical rfl fun r hr => ?_
    have := h.before r hr
    simp only [lo_range]
    omega
  · rw [if_neg hlt, if_neg hlt, List.append_nil]
    exact h.lists

/-- The rest of the loop, and the end. -/
theorem Complement.Gapped.run {c : Complement} {out : List Range} {l : List Segment}
    (h : c.Gapped out l) (hend : l = [] → c.segEnd < c.segStart) (hl : Canonical (ranges l))
    (hmax : ∀ s ∈ l, s.stop.toNat < 2 ^ 32 - 1) (stop : UInt32) :
    ((l.foldl (complementStep 0 stop) c).finish stop).Lists
      (out ++ missingFrom c.segStart.toNat stop.toNat (ranges l)) := by
  induction l generalizing c out with
  | nil => exact h.finish (hend rfl) stop
  | cons s l ih =>
    obtain ⟨hnext, hstart, hend'⟩ := h.step hl (hmax s (List.mem_cons_self ..)) stop
    have hrest := ih hnext (fun _ => hend') hl.tail fun t ht => hmax t (List.mem_cons_of_mem _ ht)
    have hlt : c.segStart.toNat < s.range.lo := h.after s (List.mem_cons_self ..)
    rw [hstart] at hrest
    rw [ranges_cons, missingFrom_cons_of_lt hlt]
    simpa using hrest

section Complement

variable {s : Segment} {l : List Segment} (hl : Canonical (ranges (s :: l)))
  (hmax : ∀ t ∈ s :: l, t.stop.toNat < 2 ^ 32 - 1) (stop : UInt32)

include hl hmax

/-- A first segment that starts at `0` and ends before `stop` is passed by. -/
theorem complement_after (h0 : s.start = 0) (hshort : s.stop.toNat + 1 < stop.toNat) :
    (((s :: l).foldl (complementStep 0 stop) ⟨0, 0, initSegmentsCtx⟩).finish stop).Lists
      (missingFrom (s.stop.toNat + 1) stop.toNat (ranges l)) := by
  have hsucc := toNat_stop_add_one (hmax s (List.mem_cons_self ..))
  have hstep : complementStep 0 stop ⟨0, 0, initSegmentsCtx⟩ s =
      ⟨s.stop + 1, 0, initSegmentsCtx⟩ := by
    rw [complementStep, if_pos ⟨h0, by rw [UInt32.lt_iff_toNat_lt, hsucc]; exact hshort⟩]
  have hgapped : Complement.Gapped ⟨s.stop + 1, 0, initSegmentsCtx⟩ [] l := by
    refine ⟨lists_init, canonical_nil, by simp, fun t ht => ?_⟩
    rw [hsucc]
    exact (List.pairwise_cons.mp hl.apart).1 _ (mem_ranges ht)
  have hend : (0 : UInt32) < s.stop + 1 := by
    rw [UInt32.lt_iff_toNat_lt, hsucc, UInt32.toNat_zero]
    omega
  rw [List.foldl_cons, hstep, ← hsucc]
  exact hgapped.run (fun _ => hend) hl.tail (fun t ht => hmax t (List.mem_cons_of_mem _ ht)) stop

/-- A first segment that starts at `0` and reaches `stop`, or the number before it, is not looked
at. -/
theorem complement_whole (h0 : s.start = 0) (hlong : ¬ s.stop.toNat + 1 < stop.toNat) :
    (((s :: l).foldl (complementStep 0 stop) ⟨0, 0, initSegmentsCtx⟩).finish stop).Lists
      (if ranges l = [] then [] else missingFrom 0 stop.toNat (ranges l)) := by
  have hsucc := toNat_stop_add_one (hmax s (List.mem_cons_self ..))
  have hstep : complementStep 0 stop ⟨0, 0, initSegmentsCtx⟩ s = ⟨0, 0, initSegmentsCtx⟩ := by
    rw [complementStep, if_neg, if_neg]
    · rw [h0]
      simp
    · rintro ⟨-, hlt⟩
      rw [UInt32.lt_iff_toNat_lt, hsucc] at hlt
      exact hlong hlt
  rw [List.foldl_cons, hstep]
  cases l with
  | nil =>
    rw [List.foldl_nil, Complement.finish_zero]
    exact lists_init
  | cons t l =>
    have hgapped : Complement.Gapped ⟨0, 0, initSegmentsCtx⟩ [] (t :: l) := by
      refine ⟨lists_init, canonical_nil, by simp, fun u hu => ?_⟩
      have : s.stop.toNat + 1 < u.start.toNat :=
        (List.pairwise_cons.mp hl.apart).1 _ (mem_ranges hu)
      rw [UInt32.toNat_zero]
      omega
    rw [if_neg (by simp)]
    exact hgapped.run (fun h => by cases h) hl.tail
      (fun u hu => hmax u (List.mem_cons_of_mem _ hu)) stop

/-- A first segment that does not start at `0` has a gap before it. -/
theorem complement_before (h0 : s.start ≠ 0) :
    (((s :: l).foldl (complementStep 0 stop) ⟨0, 0, initSegmentsCtx⟩).finish stop).Lists
      (missingFrom 0 stop.toNat (ranges (s :: l))) := by
  have hpos : 0 < s.start.toNat := Nat.pos_of_ne_zero fun h => h0 (UInt32.toNat_inj.mp h)
  have hgapped : Complement.Gapped ⟨0, 0, initSegmentsCtx⟩ [] (s :: l) := by
    refine ⟨lists_init, canonical_nil, by simp, fun t ht => ?_⟩
    rw [UInt32.toNat_zero]
    rcases List.mem_cons.mp ht with rfl | ht
    · exact hpos
    · have : s.stop.toNat + 1 < t.start.toNat :=
        (List.pairwise_cons.mp hl.apart).1 _ (mem_ranges ht)
      omega
  exact hgapped.run (fun h => by cases h) hl hmax stop

end Complement

/-- What `get_complement_segment` computes, for every canonical list. -/
theorem getComplementSegment_eq {ctx : SegmentsCtx} (hl : Canonical (ranges ctx.segments))
    (hmax : ∀ s ∈ ctx.segments, s.stop.toNat < 2 ^ 32 - 1) (stop : UInt32) :
    (getComplementSegment ctx 0 stop).Lists (missing stop.toNat (ranges ctx.segments)) := by
  rw [getComplementSegment]
  generalize ctx.segments = segments at hl hmax
  cases segments with
  | nil =>
    rw [List.foldl_nil, Complement.finish_zero]
    exact lists_init
  | cons s l =>
    rw [ranges_cons, missing, lo_range, hi_range]
    by_cases h0 : s.start = 0
    · rw [if_pos (by rw [h0]; rfl)]
      by_cases hshort : s.stop.toNat + 1 < stop.toNat
      · rw [if_pos hshort]
        exact complement_after hl hmax stop h0 hshort
      · rw [if_neg hshort]
        exact complement_whole hl hmax stop h0 hshort
    · have hne : s.start.toNat ≠ 0 := fun h => h0 (UInt32.toNat_inj.mp h)
      rw [if_neg hne]
      exact complement_before hl hmax stop h0

section Missing

variable {n stop : ℕ} {r : Range} {l : List Range}

theorem mem_cover_missingFrom (h : Canonical l) (hn : ∀ r ∈ l, n ≤ r.lo) {k : ℕ} :
    k ∈ cover (missingFrom n stop l) ↔ n ≤ k ∧ k ∉ cover l ∧
      (k < after n l ∨ after n l < stop ∧ k ≤ stop) := by
  have hle := h.le_after hn
  rw [missingFrom, cover_append, Finset.mem_union, mem_cover_gaps_iff h hn]
  by_cases hlt : after n l < stop
  · rw [if_pos hlt, cover_cons, cover_nil, Finset.union_empty, Finset.mem_Icc]
    constructor
    · rintro (⟨h1, h2, h3⟩ | ⟨h1, h2⟩)
      · exact ⟨h1, h2, Or.inl h3⟩
      · exact ⟨hle.trans h1, fun hk => absurd (h.lt_after hk) (not_lt.mpr h1), Or.inr ⟨hlt, h2⟩⟩
    · rintro ⟨h1, h2, h3 | ⟨-, h3⟩⟩
      · exact Or.inl ⟨h1, h2, h3⟩
      · rcases lt_or_ge k (after n l) with hk | hk
        · exact Or.inl ⟨h1, h2, hk⟩
        · exact Or.inr ⟨hk, h3⟩
  · rw [if_neg hlt]
    simp [hlt]

theorem canonical_missingFrom (h : Canonical l) (hn : ∀ r ∈ l, n ≤ r.lo) :
    Canonical (missingFrom n stop l) := by
  rw [missingFrom]
  split_ifs with hlt
  · refine (canonical_gaps h hn).concat hlt.le fun g hg => ?_
    obtain ⟨-, -, r, hr, hhi⟩ := mem_gaps h hn hg
    have := h.lt_after (n := n) (mem_cover.mpr ⟨r, hr, le_rfl, h.valid r hr⟩)
    change g.hi + 1 < after n l
    omega
  · rw [List.append_nil]
    exact canonical_gaps h hn

/-- What is missing of a list that lies within `0` to `stop`, if there is anything in the list. -/
theorem missing_eq_missingFrom (h : Canonical l) (hne : l ≠ []) (hle : ∀ r ∈ l, r.hi ≤ stop) :
    missing stop l = missingFrom 0 stop l := by
  cases l with
  | nil => exact absurd rfl hne
  | cons r l =>
    by_cases h0 : r.lo = 0
    · rw [missing, if_pos h0]
      rw [missingFrom_cons_of_le h0.le]
      split_ifs with hshort hnil
      · rfl
      · rw [hnil, missingFrom_nil, if_neg hshort]
      · obtain ⟨a, l, rfl⟩ := List.exists_cons_of_ne_nil hnil
        have h1 : r.hi + 1 < a.lo := (List.pairwise_cons.mp h.apart).1 a (by simp)
        have h2 := h.valid a (by simp)
        have h3 := hle a (by simp)
        omega
    · rw [missing, if_neg h0]

/-- Nothing is collected of an empty list, nor if the only range starts at `0` and reaches `stop`,
or the number before it. -/
theorem missing_eq_nil_iff (h : Canonical l) (hle : ∀ r ∈ l, r.hi ≤ stop) :
    missing stop l = [] ↔ l = [] ∨ ∃ r, l = [r] ∧ r.lo = 0 ∧ stop ≤ r.hi + 1 := by
  cases l with
  | nil => simp [missing]
  | cons r l =>
    rw [missing_eq_missingFrom h (List.cons_ne_nil r l) hle]
    rcases Nat.eq_zero_or_pos r.lo with h0 | hpos
    · rw [missingFrom_cons_of_le h0.le]
      cases l with
      | nil => simp [missingFrom_nil, h0]
      | cons a l =>
        have hapart : r.hi + 1 < a.lo := (List.pairwise_cons.mp h.apart).1 a (List.mem_cons_self ..)
        rw [missingFrom_cons_of_lt hapart]
        simp
    · rw [missingFrom_cons_of_lt hpos]
      simp only [reduceCtorEq, List.cons.injEq, false_or, false_iff, not_exists, not_and]
      rintro a ⟨rfl, -⟩ h0
      omega

theorem canonical_missing (h : Canonical l) (hle : ∀ r ∈ l, r.hi ≤ stop) :
    Canonical (missing stop l) := by
  by_cases hnil : l = []
  · rw [hnil]
    exact canonical_nil
  · rw [missing_eq_missingFrom h hnil hle]
    exact canonical_missingFrom h fun r _ => Nat.zero_le _

/-- What is collected is missing. -/
theorem mem_cover_missing (h : Canonical l) (hle : ∀ r ∈ l, r.hi ≤ stop) {k : ℕ}
    (hk : k ∈ cover (missing stop l)) :
    k ≤ stop ∧ k ∉ cover l := by
  by_cases hnil : l = []
  · rw [hnil] at hk
    simp [missing] at hk
  · rw [missing_eq_missingFrom h hnil hle, mem_cover_missingFrom h fun r _ => Nat.zero_le _] at hk
    obtain ⟨-, hnot, hlt | ⟨-, hk⟩⟩ := hk
    · refine ⟨?_, hnot⟩
      obtain ⟨r, hr, hlast⟩ := exists_after hnil 0
      have := hle r hr
      omega
    · exact ⟨hk, hnot⟩

end Missing

/-- The complement of a canonical list. -/
theorem getComplementSegment_spec {stop : UInt32} (hstop : stop.toNat + 1 < 2 ^ 32)
    {ctx : SegmentsCtx} (hl : Canonical (ranges ctx.segments))
    (hle : ∀ s ∈ ctx.segments, s.stop.toNat ≤ stop.toNat) :
    ∃ l, (getComplementSegment ctx 0 stop).Complements stop ctx.segments l := by
  have hmax : ∀ s ∈ ctx.segments, s.stop.toNat < 2 ^ 32 - 1 :=
    fun s hs => lt_of_le_of_lt (hle s hs) (by omega)
  have hle' : ∀ r ∈ ranges ctx.segments, r.hi ≤ stop.toNat := by
    intro r hr
    obtain ⟨s, hs, rfl⟩ := List.mem_map.mp hr
    exact hle s hs
  refine ⟨_, getComplementSegment_eq hl hmax stop, canonical_missing hl hle', fun k hk =>
    mem_cover_missing hl hle' hk, ?_⟩
  rw [missing_eq_nil_iff hl hle']
  simp only [ranges, List.map_eq_nil_iff, List.map_eq_singleton_iff]
  refine or_congr_right ⟨?_, ?_⟩
  · rintro ⟨r, ⟨s, hs, rfl⟩, h0, hlong⟩
    exact ⟨s, hs, UInt32.toNat_inj.mp h0, hlong⟩
  · rintro ⟨s, hs, h0, hlong⟩
    exact ⟨s.range, ⟨s, hs, rfl⟩, by rw [lo_range, h0]; rfl, hlong⟩

end LibDtp

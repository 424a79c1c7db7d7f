import LibDtp.Client.Segments

/-!
# Appending a segment

`append_segment` walks through a list and has the first segment that the current one overlaps take
it in; if there is none, the current segment is linked at the end. Two of the four ways in which
segments can overlap are not dealt with, nor is a current segment that overlaps more than one.

## What is proved

* `appendWalk_cases` — everything the walk can do.
* `append_exact_iff` — when the list has afterwards what it had before and the current segment,
  without overlaps: exactly if the current segment overlaps at most one other, and starts and ends
  after it does, or starts before it and ends no later.
-/

namespace LibDtp

open Ranges

/-- How long a list is after a segment has been appended. -/
theorem length_appendWalk (c : Segment) (l : List Segment) :
    (appendWalk c l).1.length = l.length + if (appendWalk c l).2 then 1 else 0 := by
  induction l with
  | nil => rfl
  | cons r rs ih =>
    rw [appendWalk]
    split_ifs <;> simp_all

theorem segments_appendSegment {ctx : SegmentsCtx} {c : Segment} (h : ctx.cur = .own c) :
    (appendSegment ctx).segments = (appendWalk c ctx.segments).1 := by
  simp only [appendSegment, h]
  split_ifs <;> rfl

/-- The segments are counted. -/
theorem nofSegments_appendSegment {ctx : SegmentsCtx} {c : Segment} (h : ctx.cur = .own c)
    (hnof : ctx.nofSegments = UInt32.ofNat ctx.segments.length) :
    (appendSegment ctx).nofSegments = UInt32.ofNat (appendSegment ctx).segments.length := by
  rw [segments_appendSegment h, length_appendWalk]
  simp only [appendSegment, h]
  split_ifs with hwalk
  · simp [hnof]
  · simp [hnof]

/-- Two segments have a packet in common. -/
def Segment.Overlaps (s t : Segment) : Prop := s.start ≤ t.stop ∧ t.start ≤ s.stop

theorem Segment.overlaps_iff {s t : Segment} :
    s.Overlaps t ↔ s.start.toNat ≤ t.stop.toNat ∧ t.start.toNat ≤ s.stop.toNat := by
  simp only [Segment.Overlaps, UInt32.le_iff_toNat_le]

/-- What the walk makes of a list: no segment overlaps the current one, which is linked at the end;
or `r` is the first that does. Then `r` is extended at its end, or at its start, or, where the
current segment lies in it, nothing is done with `r` and the walk goes on. -/
inductive Walked (c : Segment) (l : List Segment) : List Segment → Prop where
  /-- No segment overlaps the current one. -/
  | linked (h : ∀ s ∈ l, ¬ s.Overlaps c) : Walked c l (l ++ [c])
  /-- The current segment starts in `r` and ends with it or after it. -/
  | extended (pre : List Segment) (r : Segment) (post : List Segment) (hl : l = pre ++ r :: post)
      (hpre : ∀ s ∈ pre, ¬ s.Overlaps c) (hstart : r.start ≤ c.start) (hmeet : c.start ≤ r.stop)
        (hstop : r.stop ≤ c.stop) :
      Walked c l (pre ++ { r with stop := c.stop } :: post)
  /-- The current segment lies in `r` and ends before it. -/
  | inside (r : Segment) (hr : r ∈ l) (hstart : r.start ≤ c.start) (hstop : c.stop < r.stop) :
      Walked c l (l ++ [c])
  /-- The current segment starts before `r` and reaches it. -/
  | fronted (pre : List Segment) (r : Segment) (post : List Segment) (hl : l = pre ++ r :: post)
      (hpre : ∀ s ∈ pre, ¬ s.Overlaps c) (hstart : c.start < r.start) (hmeet : r.start ≤ c.stop) :
      Walked c l (pre ++ { r with start := c.start } :: post)

/-- One more segment, that does not overlap the current one, before the others. -/
theorem Walked.cons {c r : Segment} {l l' : List Segment} (h : Walked c l l')
    (hr : ¬ r.Overlaps c) :
    Walked c (r :: l) (r :: l') := by
  have hcons : ∀ {pre : List Segment}, (∀ s ∈ pre, ¬ s.Overlaps c) → ∀ s ∈ r :: pre,
      ¬ s.Overlaps c := by
    intro pre hpre
    exact List.forall_mem_cons.mpr ⟨hr, hpre⟩
  cases h with
  | linked hnone => exact .linked (hcons hnone)
  | extended pre r' post hl hpre hstart hmeet hstop =>
    exact .extended (r :: pre) r' post (by rw [hl]; rfl) (hcons hpre) hstart hmeet hstop
  | inside r' hr' hstart hstop => exact .inside r' (List.mem_cons_of_mem r hr') hstart hstop
  | fronted pre r' post hl hpre hstart hmeet =>
    exact .fronted (r :: pre) r' post (by rw [hl]; rfl) (hcons hpre) hstart hmeet

/-- A current segment that overlaps nothing is linked at the end. -/
theorem appendWalk_of_apart {c : Segment} {l : List Segment} (hc : c.start ≤ c.stop)
    (hl : ∀ s ∈ l, s.start ≤ s.stop) (h : ∀ s ∈ l, ¬ s.Overlaps c) :
    (appendWalk c l).1 = l ++ [c] := by
  induction l with
  | nil => rfl
  | cons r rs ih =>
    obtain ⟨hr, hrs⟩ := List.forall_mem_cons.mp h
    obtain ⟨hv, hvs⟩ := List.forall_mem_cons.mp hl
    have h1 : ¬ (c.start ≥ r.start ∧ c.start ≤ r.stop) :=
      fun h1 => hr ⟨UInt32.le_trans h1.1 hc, h1.2⟩
    have h2 : ¬ (c.start ≤ r.start ∧ c.stop ≥ r.start) :=
      fun h2 => hr ⟨h2.2, UInt32.le_trans h2.1 hv⟩
    rw [appendWalk, if_neg h1, if_neg h2, ih hvs hrs]
    rfl

/-- Everything the walk can do. The segments are in order: those behind a segment that the current
one ends before are behind it as well. -/
theorem appendWalk_cases {c : Segment} {l : List Segment} (hc : c.start ≤ c.stop)
    (hl : ∀ s ∈ l, s.start ≤ s.stop)
    (hapart : l.Pairwise fun s t => s.stop.toNat + 1 < t.start.toNat) :
    Walked c l (appendWalk c l).1 := by
  induction l with
  | nil => exact .linked (by simp)
  | cons r rs ih =>
    obtain ⟨hv, hvs⟩ := List.forall_mem_cons.mp hl
    obtain ⟨hgap, hrest⟩ := List.pairwise_cons.mp hapart
    rw [appendWalk]
    split_ifs with h1 h2 h3
    · exact .extended [] r rs rfl (by simp) h1.1 h1.2 h2
    · have hnone : ∀ s ∈ rs, ¬ s.Overlaps c := by
        intro s hs hover
        have hs' := hgap s hs
        have hstop := UInt32.lt_iff_toNat_lt.mp (UInt32.not_le.mp h2)
        have hmeet := (Segment.overlaps_iff.mp hover).1
        omega
      rw [appendWalk_of_apart hc hvs hnone]
      exact .inside r (List.mem_cons_self ..) h1.1 (UInt32.not_le.mp h2)
    · have hlt : c.start < r.start := by
        rw [UInt32.lt_iff_toNat_lt]
        have hle := UInt32.le_iff_toNat_le.mp h3.1
        have hv' := UInt32.le_iff_toNat_le.mp hv
        simp only [ge_iff_le, UInt32.le_iff_toNat_le] at h1
        omega
      exact .fronted [] r rs rfl (by simp) hlt h3.2
    · refine (ih hvs hrest).cons fun hover => ?_
      have hover' := Segment.overlaps_iff.mp hover
      simp only [ge_iff_le, UInt32.le_iff_toNat_le] at h1 h3
      omega

/-- A segment takes another in without loss: the other sticks out at the end only, or at the start
only. -/
def Segment.Takes (r c : Segment) : Prop :=
  r.start ≤ c.start ∧ r.stop ≤ c.stop ∨ c.start < r.start ∧ c.stop ≤ r.stop

/-- A list without overlaps has what another has, and a segment. -/
structure Appended (c : Segment) (l l' : List Segment) : Prop where
  /-- It has what they have. -/
  covered : cover (ranges l') = cover (ranges l) ∪ Finset.Icc c.start.toNat c.stop.toNat
  /-- No two segments overlap. -/
  apart : l'.Pairwise fun s t => ¬ s.Overlaps t

/-- A segment overlaps at most one of a list, which takes it in without loss. -/
structure Appendable (c : Segment) (l : List Segment) : Prop where
  /-- It does not overlap two of them. -/
  one : l.Pairwise fun s t => ¬ (s.Overlaps c ∧ t.Overlaps c)
  /-- The one that it overlaps takes it in. -/
  takes : ∀ s ∈ l, s.Overlaps c → s.Takes c

theorem not_overlaps_of_lt {s t : Segment} (h : s.stop.toNat < t.start.toNat) : ¬ s.Overlaps t := by
  intro hover
  have hmeet := (Segment.overlaps_iff.mp hover).2
  omega

/-- A list that takes in a segment where it overlaps none. -/
theorem appended_linked {c : Segment} {l : List Segment}
    (hapart : l.Pairwise fun s t => s.stop.toNat + 1 < t.start.toNat)
    (hnone : ∀ s ∈ l, ¬ s.Overlaps c) : Appended c l (l ++ [c]) := by
  constructor
  · simp
  · rw [List.pairwise_append]
    refine ⟨hapart.imp fun h =>
      not_overlaps_of_lt (by omega), List.pairwise_singleton _ _, fun s hs t ht => ?_⟩
    rw [List.mem_singleton.mp ht]
    exact hnone s hs

/-- A segment that overlaps none before `r`, but `r`. -/
theorem appendable_iff {c r : Segment} {pre post : List Segment} (hpre : ∀ s ∈ pre, ¬ s.Overlaps c)
    (hr : r.Overlaps c) :
    Appendable c (pre ++ r :: post) ↔ (∀ t ∈ post, ¬ t.Overlaps c) ∧ r.Takes c := by
  constructor
  · rintro ⟨hone, htakes⟩
    obtain ⟨-, hpost, -⟩ := List.pairwise_append.mp hone
    refine ⟨fun t ht hover => (List.pairwise_cons.mp hpost).1 t ht ⟨hr, hover⟩, htakes r ?_ hr⟩
    simp
  · rintro ⟨hpost, htakes⟩
    refine ⟨?_, fun s hs hover => ?_⟩
    · rw [List.pairwise_append, List.pairwise_cons]
      refine ⟨List.pairwise_iff_forall_sublist.mpr fun {s t} hst h =>
        hpre s (hst.subset (List.mem_cons_self ..)) h.1,
        ⟨fun t ht h => hpost t ht h.2, ?_⟩, fun s hs t ht h => hpre s hs h.1⟩
      exact List.pairwise_iff_forall_sublist.mpr fun {s t} hst h =>
        hpost s (hst.subset (List.mem_cons_self ..)) h.1
    · rcases List.mem_append.mp hs with hs | hs
      · exact absurd hover (hpre s hs)
      · rcases List.mem_cons.mp hs with rfl | hs
        · exact htakes
        · exact absurd hover (hpost s hs)

/-- A segment that is two, in the place of one of them. -/
theorem cover_replace {c r x : Segment} {pre post : List Segment}
    (hjoin : ∀ k, x.start.toNat ≤ k ∧ k ≤ x.stop.toNat ↔ (r.start.toNat ≤ k ∧ k ≤ r.stop.toNat) ∨
      (c.start.toNat ≤ k ∧ k ≤ c.stop.toNat)) :
    cover (ranges (pre ++ x :: post)) = cover (ranges (pre ++ r :: post)) ∪
      Finset.Icc c.start.toNat c.stop.toNat := by
  ext k
  simp only [ranges_append, ranges_cons, cover_append, cover_cons, lo_range, hi_range,
    Finset.mem_union, Finset.mem_Icc, hjoin]
  tauto

section

variable {c r x : Segment} {pre post : List Segment}
  (hapart : (pre ++ r :: post).Pairwise fun s t => s.stop.toNat + 1 < t.start.toNat)
include hapart

/-- Another segment in the place of one of the list. -/
theorem pairwise_replace_iff : (pre ++ x :: post).Pairwise (fun s t => ¬ s.Overlaps t) ↔
    (∀ s ∈ pre, ¬ s.Overlaps x) ∧ ∀ t ∈ post, ¬ x.Overlaps t := by
  obtain ⟨hpre, hpost, hacross⟩ := List.pairwise_append.mp hapart
  obtain ⟨-, hpost⟩ := List.pairwise_cons.mp hpost
  have hno : ∀ {s t : Segment}, s.stop.toNat + 1 < t.start.toNat → ¬ s.Overlaps t :=
    fun h => not_overlaps_of_lt (by omega)
  rw [List.pairwise_append, List.pairwise_cons]
  constructor
  · rintro ⟨-, ⟨hx, -⟩, hacross'⟩
    exact ⟨fun s hs => hacross' s hs x (List.mem_cons_self ..), hx⟩
  · rintro ⟨hpre', hpost'⟩
    refine ⟨hpre.imp hno, ⟨hpost', hpost.imp hno⟩, fun s hs t ht => ?_⟩
    rcases List.mem_cons.mp ht with rfl | ht
    · exact hpre' s hs
    · exact hno (hacross s hs t (List.mem_cons_of_mem r ht))

/-- The current segment starts in `r` and ends with it or after it: it may overlap the next segment
as well. -/
theorem appended_extended_iff (hpre : ∀ s ∈ pre, ¬ s.Overlaps c)
    (hpost : ∀ t ∈ post, t.start ≤ t.stop) (hstart : r.start ≤ c.start) (hmeet : c.start ≤ r.stop)
    (hstop : r.stop ≤ c.stop) :
    Appended c (pre ++ r :: post) (pre ++ { r with stop := c.stop } :: post) ↔
      Appendable c (pre ++ r :: post) := by
  have hr : r.Overlaps c := ⟨UInt32.le_trans hstart (UInt32.le_trans hmeet hstop), hmeet⟩
  obtain ⟨-, hcons, hacross⟩ := List.pairwise_append.mp hapart
  obtain ⟨hgap, -⟩ := List.pairwise_cons.mp hcons
  rw [UInt32.le_iff_toNat_le] at hstart hmeet hstop
  have hnext : ∀ t ∈ post, Segment.Overlaps { r with stop := c.stop } t ↔ t.Overlaps c := by
    intro t ht
    have hvalid := UInt32.le_iff_toNat_le.mp (hpost t ht)
    have hlt := hgap t ht
    simp only [Segment.overlaps_iff]
    omega
  have htakes : r.Takes c :=
    .inl ⟨UInt32.le_iff_toNat_le.mpr hstart, UInt32.le_iff_toNat_le.mpr hstop⟩
  rw [appendable_iff hpre hr]
  constructor
  · intro h
    exact ⟨fun t ht hover => ((pairwise_replace_iff hapart).mp h.apart).2 t ht
      ((hnext t ht).mpr hover), htakes⟩
  · rintro ⟨hnone, -⟩
    constructor
    · exact cover_replace fun k => by simp only; omega
    · refine (pairwise_replace_iff hapart).mpr
        ⟨fun s hs => ?_, fun t ht hover => hnone t ht ((hnext t ht).mp hover)⟩
      have hlt := hacross s hs r (List.mem_cons_self ..)
      exact not_overlaps_of_lt (by simp only; omega)

/-- The number behind `r` is in no segment, wherever the one in its place starts. -/
theorem succ_stop_notMem_cover (hr : r.start.toNat ≤ r.stop.toNat) (start : UInt32) :
    r.stop.toNat + 1 ∉ cover (ranges (pre ++ { r with start := start } :: post)) := by
  obtain ⟨-, hcons, hacross⟩ := List.pairwise_append.mp hapart
  obtain ⟨hgap, -⟩ := List.pairwise_cons.mp hcons
  intro hmem
  obtain ⟨a, ha, hlo, hhi⟩ := mem_cover.mp hmem
  obtain ⟨s, hs, rfl⟩ := List.mem_map.mp ha
  simp only [lo_range, hi_range] at hlo hhi
  rcases List.mem_append.mp hs with hs | hs
  · have hlt := hacross s hs r (List.mem_cons_self ..)
    omega
  · rcases List.mem_cons.mp hs with rfl | hs
    · simp only at hhi
      omega
    · have hlt := hgap s hs
      omega

/-- The current segment starts before `r` and reaches it: what of it is behind `r` is lost. -/
theorem appended_fronted_iff (hpre : ∀ s ∈ pre, ¬ s.Overlaps c)
    (hvalid : ∀ s ∈ pre ++ r :: post, s.start ≤ s.stop) (hstart : c.start < r.start)
    (hmeet : r.start ≤ c.stop) :
    Appended c (pre ++ r :: post) (pre ++ { r with start := c.start } :: post) ↔
      Appendable c (pre ++ r :: post) := by
  obtain ⟨-, hcons, hacross⟩ := List.pairwise_append.mp hapart
  obtain ⟨hgap, -⟩ := List.pairwise_cons.mp hcons
  have hvalid' : ∀ s ∈ pre ++ r :: post, s.start.toNat ≤ s.stop.toNat :=
    fun s hs => UInt32.le_iff_toNat_le.mp (hvalid s hs)
  have hvr := hvalid' r (by simp)
  rw [UInt32.lt_iff_toNat_lt] at hstart
  rw [UInt32.le_iff_toNat_le] at hmeet
  have hr : r.Overlaps c := Segment.overlaps_iff.mpr (by omega)
  have htakes : r.Takes c ↔ c.stop.toNat ≤ r.stop.toNat := by
    simp only [Segment.Takes, UInt32.le_iff_toNat_le, UInt32.lt_iff_toNat_lt]
    omega
  rw [appendable_iff hpre hr, htakes]
  constructor
  · intro h
    have hle : c.stop.toNat ≤ r.stop.toNat := by
      by_contra hlt
      refine succ_stop_notMem_cover hapart hvr c.start ?_
      rw [h.covered, Finset.mem_union, Finset.mem_Icc]
      omega
    refine ⟨fun t ht hover => ?_, hle⟩
    have hlt := hgap t ht
    have hover' := (Segment.overlaps_iff.mp hover).1
    omega
  · rintro ⟨-, hle⟩
    constructor
    · exact cover_replace fun k => by simp only; omega
    · refine (pairwise_replace_iff hapart).mpr ⟨fun s hs => ?_, fun t ht => not_overlaps_of_lt ?_⟩
      · have hlt := hacross s hs r (List.mem_cons_self ..)
        have hvs := hvalid' s (List.mem_append_left _ hs)
        have hno := hpre s hs
        rw [Segment.overlaps_iff] at hno
        exact not_overlaps_of_lt (by simp only; omega)
      · have hlt := hgap t ht
        simp only
        omega

end

/-- The current segment lies in one of the list and ends before it: it is linked at the end all the
same. -/
theorem not_appended_inside {c r : Segment} {l : List Segment} (hc : c.start ≤ c.stop) (hr : r ∈ l)
    (hstart : r.start ≤ c.start) (hstop : c.stop < r.stop) :
    ¬ Appended c l (l ++ [c]) ∧ ¬ Appendable c l := by
  have hover : r.Overlaps c := by
    rw [UInt32.le_iff_toNat_le] at hc hstart
    rw [UInt32.lt_iff_toNat_lt] at hstop
    exact Segment.overlaps_iff.mpr (by omega)
  constructor
  · intro h
    exact (List.pairwise_append.mp h.apart).2.2 r hr c (List.mem_singleton_self c) hover
  · intro h
    rcases h.takes r hr hover with ⟨-, hle⟩ | ⟨hlt, -⟩
    · exact UInt32.not_lt.mpr hle hstop
    · exact UInt32.not_lt.mpr hstart hlt

/-- When a walk is without loss and overlaps. -/
theorem appendWalk_appended_iff {c : Segment} {l : List Segment} (hc : c.start ≤ c.stop)
    (hl : ∀ s ∈ l, s.start ≤ s.stop)
    (hapart : l.Pairwise fun s t => s.stop.toNat + 1 < t.start.toNat) :
    Appended c l (appendWalk c l).1 ↔ Appendable c l := by
  have hcases := appendWalk_cases hc hl hapart
  generalize (appendWalk c l).1 = l' at hcases ⊢
  cases hcases with
  | linked hnone =>
    refine iff_of_true (appended_linked hapart hnone)
      ⟨?_, fun s hs hover => absurd hover (hnone s hs)⟩
    exact List.pairwise_iff_forall_sublist.mpr fun {s t} hst h =>
      hnone s (hst.subset (List.mem_cons_self ..)) h.1
  | extended pre r post heq hpre hstart hmeet hstop =>
    subst heq
    exact appended_extended_iff hapart hpre (fun t ht => hl t (by simp [ht])) hstart hmeet hstop
  | inside r hr hstart hstop =>
    obtain ⟨hno, hno'⟩ := not_appended_inside hc hr hstart hstop
    exact iff_of_false hno hno'
  | fronted pre r post heq hpre hstart hmeet =>
    subst heq
    exact appended_fronted_iff hapart hpre hl hstart hmeet

/-- A list that is counted is counted after a segment has been appended. -/
theorem toNat_nofSegments_appendSegment {ctx : SegmentsCtx} {c : Segment} (hcur : ctx.cur = .own c)
    (hl : ∀ s ∈ ctx.segments, s.start ≤ s.stop)
    (hapart : ctx.segments.Pairwise fun s t => s.stop.toNat + 1 < t.start.toNat)
    (hnof : ctx.nofSegments.toNat = ctx.segments.length) :
    (appendSegment ctx).nofSegments.toNat = (appendSegment ctx).segments.length := by
  have hcanonical : Canonical (ranges ctx.segments) := by
    refine ⟨fun a ha => ?_, List.pairwise_map.mpr hapart⟩
    obtain ⟨s, hs, rfl⟩ := List.mem_map.mp ha
    exact UInt32.le_iff_toNat_le.mp (hl s hs)
  have hbound : 0 + 2 * (ranges ctx.segments).length ≤ 2 ^ 32 + 1 := by
    refine hcanonical.two_mul_length_le (fun _ _ => Nat.zero_le _) (fun a ha => ?_) (by decide)
    obtain ⟨s, hs, rfl⟩ := List.mem_map.mp ha
    exact s.start.toNat_lt
  rw [length_ranges] at hbound
  have hlen := length_appendWalk c ctx.segments
  rw [← segments_appendSegment hcur] at hlen
  rw [nofSegments_appendSegment hcur
    (by rw [← hnof, UInt32.ofNat_toNat]), UInt32.toNat_ofNat', Nat.mod_eq_of_lt]
  split_ifs at hlen <;> omega

/-- What `append_segment` should do with the current segment `c`. -/
structure AppendExact (ctx : SegmentsCtx) (c : Segment) : Prop where
  /-- The list has what it had before, and the current segment. -/
  covered : (appendSegment ctx).covered = ctx.covered ∪ Finset.Icc c.start.toNat c.stop.toNat
  /-- No two segments overlap. -/
  apart : (appendSegment ctx).segments.Pairwise fun s t => ¬ s.Overlaps t
  /-- A list that was counted is counted. -/
  counted : ctx.nofSegments.toNat = ctx.segments.length →
    (appendSegment ctx).nofSegments.toNat = (appendSegment ctx).segments.length

/-- **When `append_segment` loses nothing.** For every list in order, with gaps between its
segments, and every current segment: exactly if the current segment overlaps at most one segment of
the list, and sticks out of it at the end only, or at the start only. -/
theorem append_exact_iff {ctx : SegmentsCtx} {c : Segment} (hcur : ctx.cur = .own c)
    (hc : c.start ≤ c.stop) (hl : ∀ s ∈ ctx.segments, s.start ≤ s.stop)
    (hapart : ctx.segments.Pairwise fun s t => s.stop.toNat + 1 < t.start.toNat) :
    AppendExact ctx c ↔ (ctx.segments.Pairwise fun s t => ¬ (s.Overlaps c ∧ t.Overlaps c)) ∧
      ∀ s ∈ ctx.segments, s.Overlaps c → s.start ≤ c.start ∧ s.stop ≤ c.stop ∨ c.start < s.start ∧
        c.stop ≤ s.stop := by
  have hiff := appendWalk_appended_iff hc hl hapart
  rw [← segments_appendSegment hcur] at hiff
  constructor
  · intro h
    obtain ⟨hone, htakes⟩ := hiff.mp ⟨h.covered, h.apart⟩
    exact ⟨hone, htakes⟩
  · rintro ⟨hone, htakes⟩
    obtain ⟨hcovered, hno⟩ := hiff.mpr ⟨hone, htakes⟩
    exact ⟨hcovered, hno, toNat_nofSegments_appendSegment hcur hl hapart⟩

theorem append_exact_between :
    AppendExact ⟨[⟨0, 4⟩, ⟨10, 14⟩], .own ⟨3, 8⟩, 2, true, false⟩ ⟨3, 8⟩ ∧
    (appendSegment ⟨[⟨0, 4⟩, ⟨10, 14⟩], .own ⟨3, 8⟩, 2, true, false⟩).segments =
      [⟨0, 8⟩, ⟨10, 14⟩] := by
  refine ⟨(append_exact_iff rfl (by decide) (by simp) (by simp)).mpr ⟨?_, ?_⟩, rfl⟩
  · simp [Segment.Overlaps]
  · simp [Segment.Overlaps]

/-- The current segment `2..8` contains `4..5`, and is cut to `2..5`. -/
theorem append_exact_lost :
    ¬ ∀ (ctx : SegmentsCtx) (c : Segment), ctx.cur = .own c → c.start ≤ c.stop →
    (∀ s ∈ ctx.segments, s.start ≤ s.stop) →
      (ctx.segments.Pairwise fun s t => s.stop.toNat + 1 < t.start.toNat) →
    AppendExact ctx c := by
  intro h
  have hcovered :=
    (h ⟨[⟨4, 5⟩], .own ⟨2, 8⟩, 1, true, false⟩ ⟨2, 8⟩ rfl (by decide) (by simp) (by simp)).covered
  have hlost : 7 ∉ (appendSegment ⟨[⟨4, 5⟩], .own ⟨2, 8⟩, 1, true, false⟩).covered := by decide
  rw [hcovered] at hlost
  exact hlost (by simp)

end LibDtp

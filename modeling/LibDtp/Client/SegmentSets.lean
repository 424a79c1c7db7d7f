import LibDtp.Client.Segments

/-!
# Segment lists as sets

A segment list stands for a set of packet numbers. This module says which set it is after some
packets have been received in whatever order, and what merging two lists does to their sets.

## The model

`SegmentsCtx.Sorted` is what a caller may expect of a segment list: ascending, with a gap between
any two segments, and below `UINT32_MAX`. A set has one such list only, so two lists of the same set
are the same list.

## What is proved

* `segments_invariant` — after any packets, closed once, the list is sorted, counted, and has no
  packet that was not received; it has all of them if they came in order.
* `received_covered_iff` — it has all of them exactly if none came too late, `Ranges.Timely`: a
  packet that comes for the first time below a segment that was opened after a gap is forgotten.
* `merge_union` — merging is union, and therefore commutative, associative and idempotent.
-/

namespace LibDtp

open Ranges

/-- A list in order, with gaps between its segments, below `UINT32_MAX`. -/
structure SegmentsCtx.Sorted (ctx : SegmentsCtx) : Prop where
  /-- No segment is empty. -/
  valid : ∀ s ∈ ctx.segments, s.start ≤ s.stop
  /-- There is a gap between any two of them. -/
  apart : ctx.segments.Pairwise fun s t => s.stop.toNat + 1 < t.start.toNat
  /-- None reaches `UINT32_MAX`. -/
  lt_max : ∀ s ∈ ctx.segments, s.stop < uint32Max

/-- The segments `for_each_segment` visits, with a callback that always goes on. -/
def SegmentsCtx.visited (ctx : SegmentsCtx) : List Segment :=
  forEachSegment (fun _ s l => (true, l ++ [s])) 0 ctx.segments []

theorem lt_uint32Max {n : UInt32} : n < uint32Max ↔ n.toNat < 2 ^ 32 - 1 := UInt32.lt_iff_toNat_lt

theorem forEachSegment_visit (idx : ℕ) (l out : List Segment) :
    forEachSegment (fun _ s l => (true, l ++ [s])) idx l out = out ++ l := by
  induction l generalizing idx out with
  | nil => simp [forEachSegment]
  | cons s l ih => simp [forEachSegment, ih]

@[simp] theorem SegmentsCtx.visited_eq (ctx : SegmentsCtx) : ctx.visited = ctx.segments :=
  (forEachSegment_visit 0 ctx.segments []).trans (List.nil_append _)

theorem ranges_injective : Function.Injective ranges := by
  refine List.map_injective_iff.mpr fun s t h => ?_
  obtain ⟨start, stop⟩ := s
  obtain ⟨start', stop'⟩ := t
  obtain ⟨hstart, hstop⟩ := Range.mk.inj h
  obtain rfl : start = start' := UInt32.toNat_inj.mp hstart
  obtain rfl : stop = stop' := UInt32.toNat_inj.mp hstop
  rfl

theorem sorted_iff {ctx : SegmentsCtx} :
    ctx.Sorted ↔ Canonical (ranges ctx.segments) ∧ ∀ s ∈ ctx.segments,
      s.stop.toNat < 2 ^ 32 - 1 := by
  constructor
  · intro h
    refine ⟨⟨fun r hr => ?_, ?_⟩, fun s hs => lt_uint32Max.mp (h.lt_max s hs)⟩
    · obtain ⟨s, hs, rfl⟩ := List.mem_map.mp hr
      exact UInt32.le_iff_toNat_le.mp (h.valid s hs)
    · exact List.pairwise_map.mpr h.apart
  · rintro ⟨hl, hmax⟩
    exact ⟨fun s hs => UInt32.le_iff_toNat_le.mpr (hl.valid _ (mem_ranges hs)),
      List.pairwise_map.mp hl.apart,
      fun s hs => lt_uint32Max.mpr (hmax s hs)⟩

/-- Two sorted lists of the same packets are the same. -/
theorem SegmentsCtx.Sorted.segments_eq {a b : SegmentsCtx} (ha : a.Sorted) (hb : b.Sorted)
    (h : a.covered = b.covered) :
    a.segments = b.segments :=
  ranges_injective ((sorted_iff.mp ha).1.ext (sorted_iff.mp hb).1 h)

/-- The number of a sorted list's segments fits in `nof_segments`. -/
theorem SegmentsCtx.Lists.toNat_nofSegments {ctx : SegmentsCtx} {l : List Range} (h : ctx.Lists l)
    (hsorted : ctx.Sorted) :
    ctx.nofSegments.toNat = ctx.segments.length := by
  obtain ⟨hl, hmax⟩ := sorted_iff.mp hsorted
  have hlen : (ranges ctx.segments).length ≤ 2 ^ 32 - 1 := by
    refine hl.length_le fun r hr => ?_
    obtain ⟨s, hs, rfl⟩ := List.mem_map.mp hr
    exact lt_of_le_of_lt (hl.valid _ (mem_ranges hs)) (hmax s hs)
  rw [h.nofSegments, ← h.segments,
    UInt32.toNat_ofNat_of_lt' (lt_of_le_of_lt hlen (by decide)), length_ranges]

/-- A list is sorted if its packets are below `UINT32_MAX`. -/
theorem SegmentsCtx.Lists.sorted {ctx : SegmentsCtx} {l : List Range} (h : ctx.Lists l)
    (hl : Canonical l) (hmax : ∀ k ∈ cover l, k < 2 ^ 32 - 1) : ctx.Sorted := by
  rw [← h.segments] at hl hmax
  refine sorted_iff.mpr ⟨hl, fun s hs => hmax _ ?_⟩
  exact mem_cover.mpr ⟨s.range, mem_ranges hs, hl.valid _ (mem_ranges hs), le_rfl⟩

theorem SegmentsCtx.Sorted.lt_of_covered {ctx : SegmentsCtx} (h : ctx.Sorted) {k : ℕ}
    (hk : k ∈ ctx.covered) :
    k < 2 ^ 32 - 1 := by
  obtain ⟨r, hr, -, hhi⟩ := mem_cover.mp hk
  obtain ⟨s, hs, rfl⟩ := List.mem_map.mp hr
  exact lt_of_le_of_lt hhi ((sorted_iff.mp h).2 s hs)

/-! ### Receiving -/

/-- The list after any packets in any order, closed once. -/
theorem segments_invariant {ns : List UInt32} (hns : ∀ n ∈ ns, n < uint32Max) :
    (closeSegments (updateAll initSegmentsCtx ns)).segments.Pairwise
      (fun s t => s.start < t.start) ∧
      (closeSegments (updateAll initSegmentsCtx ns)).Sorted ∧
      (closeSegments (updateAll initSegmentsCtx ns)).nofSegments.toNat =
        (closeSegments (updateAll initSegmentsCtx ns)).visited.length ∧
      (∀ k ∈ (closeSegments (updateAll initSegmentsCtx ns)).covered, ∃ n ∈ ns, n.toNat = k) ∧
      (ns.Pairwise (· ≤ ·) →
        ∀ n ∈ ns, n.toNat ∈ (closeSegments (updateAll initSegmentsCtx ns)).covered) := by
  obtain ⟨l, hlists, hl, hsubset, hall⟩ := closed_updateAll fun n hn => lt_uint32Max.mp (hns n hn)
  have hcovered : (closeSegments (updateAll initSegmentsCtx ns)).covered = cover l := by
    rw [SegmentsCtx.covered, hlists.segments]
  have hsorted := hlists.sorted hl fun k hk => by
    obtain ⟨n, hn, rfl⟩ := hsubset k hk
    exact lt_uint32Max.mp (hns n hn)
  refine ⟨?_, hsorted, ?_, ?_, ?_⟩
  · refine hsorted.apart.imp_of_mem fun {s t} hs _ hst => ?_
    have := UInt32.le_iff_toNat_le.mp (hsorted.valid s hs)
    rw [UInt32.lt_iff_toNat_lt]
    omega
  · rw [SegmentsCtx.visited_eq]
    exact hlists.toNat_nofSegments hsorted
  · rw [hcovered]
    exact hsubset
  · rw [hcovered]
    exact hall

/-- Six packets out of order, one of them twice: two segments, and one of the packets is in none of
them. -/
theorem segments_invariant_six :
    (closeSegments (updateAll initSegmentsCtx [4, 5, 9, 1, 9, 10])).Sorted ∧
    (closeSegments (updateAll initSegmentsCtx [4, 5, 9, 1, 9, 10])).segments = [⟨4, 5⟩, ⟨9, 10⟩] :=
  ⟨(@segments_invariant [4, 5, 9, 1, 9, 10] (by simp [uint32Max])).2.1, by decide⟩

/-- All the packets received are in the list if and only if none came too late. -/
theorem mem_covered_iff_timely {ns : List UInt32} (hns : ∀ n ∈ ns, n < uint32Max) :
    (∀ n ∈ ns, n.toNat ∈ (closeSegments (updateAll initSegmentsCtx ns)).covered) ↔
      Timely (ns.map UInt32.toNat) := by
  rw [← mem_cover_collect_iff, SegmentsCtx.covered,
    (lists_updateAll fun n hn => lt_uint32Max.mp (hns n hn)).segments]
  exact List.forall_mem_map.symm

/-- The packets in the list, if none came too late. -/
theorem covered_of_timely {ns : List UInt32} (hns : ∀ n ∈ ns, n < uint32Max)
    (h : Timely (ns.map UInt32.toNat)) :
    (closeSegments (updateAll initSegmentsCtx ns)).covered = (ns.map UInt32.toNat).toFinset := by
  ext k
  rw [List.mem_toFinset]
  constructor
  · rw [SegmentsCtx.covered, (lists_updateAll fun n hn => lt_uint32Max.mp (hns n hn)).segments]
    exact fun hk => mem_cover_map_single.mp (cover_collect_subset _ hk)
  · intro hk
    obtain ⟨n, hn, rfl⟩ := List.mem_map.mp hk
    exact (mem_covered_iff_timely hns).mpr h n hn

/-- All the packets received are in the list if and only if none came too late; so the order does
not matter as long as none comes too late. -/
theorem received_covered_iff {ns : List UInt32} (hns : ∀ n ∈ ns, n < uint32Max) :
    ((∀ n ∈ ns, n.toNat ∈ (closeSegments (updateAll initSegmentsCtx ns)).covered) ↔
      Timely (ns.map UInt32.toNat)) ∧
      ∀ ms, ms.Perm ns → Timely (ns.map UInt32.toNat) → Timely (ms.map UInt32.toNat) →
        (closeSegments (updateAll initSegmentsCtx ms)).covered =
          (closeSegments (updateAll initSegmentsCtx ns)).covered := by
  refine ⟨mem_covered_iff_timely hns, fun ms hperm hn hm => ?_⟩
  rw [covered_of_timely hns hn, covered_of_timely (fun m hm => hns m (hperm.mem_iff.mp hm)) hm]
  exact List.toFinset_eq_of_perm _ _ (hperm.map _)

/-- A packet below the open segment that has been received before it was opened is not too late. -/
theorem received_covered_again : Timely [4, 6, 4, 7, 6] := by
  refine (@received_covered_iff [4, 6, 4, 7, 6] (by simp [uint32Max])).1.mp ?_
  simp only [List.forall_mem_cons, List.not_mem_nil, IsEmpty.forall_iff, implies_true, and_true]
  decide

/-- Packet `3` comes after packet `5`: it is forgotten. With the two the other way round it is not.
-/
theorem received_forgotten :
    ¬ (∀ n ∈ ([5, 3] : List UInt32),
      n.toNat ∈ (closeSegments (updateAll initSegmentsCtx [5, 3])).covered) ∧
      (closeSegments (updateAll initSegmentsCtx [5, 3])).covered ≠
        (closeSegments (updateAll initSegmentsCtx [3, 5])).covered := by
  refine ⟨fun h => absurd (h 3 (by simp)) ?_, ?_⟩
  · decide
  · decide

/-! ### Merging -/

/-- Merging two sorted lists: a sorted list of the packets of both. -/
theorem SegmentsCtx.Sorted.merge {a b : SegmentsCtx} (ha : a.Sorted) (hb : b.Sorted) :
    (mergeSegments a b).Sorted ∧ (mergeSegments a b).covered = a.covered ∪ b.covered ∧
      (mergeSegments a b).nofSegments.toNat = (mergeSegments a b).segments.length := by
  obtain ⟨hla, hmaxa⟩ := sorted_iff.mp ha
  obtain ⟨hlb, hmaxb⟩ := sorted_iff.mp hb
  obtain ⟨l, hlists, hl, hcover⟩ := mergeSegments_spec hla hlb hmaxa hmaxb
  have hsorted := hlists.sorted hl fun k hk => by
    rw [hcover, Finset.mem_union] at hk
    rcases hk with hk | hk
    · exact ha.lt_of_covered hk
    · exact hb.lt_of_covered hk
  refine ⟨hsorted, ?_, hlists.toNat_nofSegments hsorted⟩
  rw [← hcover, SegmentsCtx.covered, hlists.segments]

/-- `merge_segments` is union. -/
theorem merge_union {a b c : SegmentsCtx} (ha : a.Sorted) (hb : b.Sorted) (hc : c.Sorted) :
    (mergeSegments a b).Sorted ∧ (mergeSegments a b).covered = a.covered ∪ b.covered ∧
      (mergeSegments a b).nofSegments.toNat = (mergeSegments a b).segments.length ∧
      (mergeSegments a b).segments = (mergeSegments b a).segments ∧
      (mergeSegments (mergeSegments a b) c).segments =
        (mergeSegments a (mergeSegments b c)).segments ∧
      (mergeSegments a a).segments = a.segments := by
  obtain ⟨hab, hcab, hnof⟩ := ha.merge hb
  obtain ⟨hba, hcba, -⟩ := hb.merge ha
  obtain ⟨hbc, hcbc, -⟩ := hb.merge hc
  obtain ⟨hab_c, hcab_c, -⟩ := hab.merge hc
  obtain ⟨ha_bc, hca_bc, -⟩ := ha.merge hbc
  obtain ⟨haa, hcaa, -⟩ := ha.merge ha
  refine ⟨hab, hcab, hnof, hab.segments_eq hba ?_, hab_c.segments_eq ha_bc ?_,
    haa.segments_eq ha ?_⟩
  · rw [hcab, hcba, Finset.union_comm]
  · rw [hcab_c, hcab, hca_bc, hcbc, Finset.union_assoc]
  · rw [hcaa, Finset.union_self]

/-- A context with the given segments. -/
def listed (l : List Segment) : SegmentsCtx :=
  l.foldl (fun ctx s => addSegment ctx s.start s.stop) initSegmentsCtx

/-- Segments that touch, nest and overlap become one. -/
theorem merge_union_three :
    (mergeSegments (listed [⟨0, 4⟩, ⟨10, 20⟩]) (listed [⟨5, 9⟩, ⟨12, 13⟩, ⟨19, 30⟩])).segments =
      [⟨0, 30⟩] ∧
      (mergeSegments (listed [⟨5, 9⟩, ⟨12, 13⟩, ⟨19, 30⟩]) (listed [⟨0, 4⟩, ⟨10, 20⟩])).segments =
        [⟨0, 30⟩] := by
  have ha : (listed [⟨0, 4⟩, ⟨10, 20⟩]).Sorted := ⟨by decide, by decide, by decide⟩
  have hb : (listed [⟨5, 9⟩, ⟨12, 13⟩, ⟨19, 30⟩]).Sorted := ⟨by decide, by decide, by decide⟩
  have hmerge : (mergeSegments (listed [⟨0, 4⟩, ⟨10, 20⟩])
      (listed [⟨5, 9⟩, ⟨12, 13⟩, ⟨19, 30⟩])).segments = [⟨0, 30⟩] := by
    decide
  exact ⟨hmerge, (merge_union ha hb ha).2.2.2.1.symm.trans hmerge⟩

end LibDtp

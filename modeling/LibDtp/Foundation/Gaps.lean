import LibDtp.Foundation.Ranges
import Mathlib.Data.Finset.Max

/-!
# Counting gaps

How many gaps a set of numbers leaves in `0` to `n - 1`: a gap is counted by its last number, so
that the count can be computed from the set alone. If the gaps are known as a canonical list of
ranges, it is the length of that list; filling the first `m` of them leaves `m` less.

## What is proved

* `gapEnds_eq_empty_iff` — no gap is left if and only if nothing is missing.
* `card_gapEnds` — the count is the length of the list.
* `card_gapEnds_fill` — filling the first gaps.
-/

namespace Ranges

/-- The last numbers of the gaps that `C` leaves in `0` to `n - 1`. -/
def gapEnds (n : ℕ) (C : Finset ℕ) : Finset ℕ :=
  (Finset.range n \ C).filter fun k => k + 1 = n ∨ k + 1 ∈ C

variable {l : List Range} {r : Range} {n k : ℕ} {C C' : Finset ℕ}

theorem mem_gapEnds : k ∈ gapEnds n C ↔ (k < n ∧ k ∉ C) ∧ (k + 1 = n ∨ k + 1 ∈ C) := by
  rw [gapEnds, Finset.mem_filter, Finset.mem_sdiff, Finset.mem_range]

/-- What is missing is in a gap, and the gap comes to an end. The last number that is missing ends
one. -/
theorem gapEnds_eq_empty_iff : gapEnds n C = ∅ ↔ Finset.range n ⊆ C := by
  constructor
  · intro hempty k hk
    by_contra hnot
    have hne : (Finset.range n \ C).Nonempty := ⟨k, Finset.mem_sdiff.mpr ⟨hk, hnot⟩⟩
    obtain ⟨hlt, hmissing⟩ := Finset.mem_sdiff.mp ((Finset.range n \ C).max'_mem hne)
    have hend : (Finset.range n \ C).max' hne ∈ gapEnds n C := by
      refine mem_gapEnds.mpr ⟨⟨Finset.mem_range.mp hlt, hmissing⟩, ?_⟩
      by_contra hno
      rw [not_or] at hno
      have hnext := Finset.le_max' (Finset.range n \ C) ((Finset.range n \ C).max' hne + 1)
        (Finset.mem_sdiff.mpr
          ⟨Finset.mem_range.mpr (by have := Finset.mem_range.mp hlt; omega), hno.2⟩)
      omega
    rw [hempty] at hend
    exact Finset.notMem_empty _ hend
  · intro hsub
    refine Finset.eq_empty_of_forall_notMem fun k hk => ?_
    obtain ⟨⟨hlt, hnot⟩, -⟩ := mem_gapEnds.mp hk
    exact hnot (hsub (Finset.mem_range.mpr hlt))

/-- The number after a range is not in the list. -/
theorem Canonical.hi_succ_notMem (h : Canonical l) (hr : r ∈ l) : r.hi + 1 ∉ cover l := by
  induction l with
  | nil => cases hr
  | cons a l ih =>
    rcases List.mem_cons.mp hr with rfl | hr
    · exact h.hi_add_one_notMem
    · rw [cover_cons, Finset.mem_union, Finset.mem_Icc, not_or]
      have hapart : a.hi + 1 < r.lo := (List.pairwise_cons.mp h.apart).1 r hr
      have hvalid := h.valid r (List.mem_cons_of_mem a hr)
      exact ⟨by omega, ih h.tail hr⟩

/-- The gaps are the ranges of a canonical list that has all that is missing. -/
theorem card_gapEnds (h : Canonical l) (hC : ∀ k < n, k ∈ cover l ↔ k ∉ C)
    (hlo : ∀ r ∈ l, r.lo < n) :
    (gapEnds n C).card = l.length := by
  have hends : gapEnds n C = (l.map fun r => min r.hi (n - 1)).toFinset := by
    ext k
    rw [mem_gapEnds, List.mem_toFinset, List.mem_map]
    constructor
    · rintro ⟨⟨hlt, hnot⟩, hend⟩
      obtain ⟨r, hr, hle, hge⟩ := mem_cover.mp ((hC k hlt).mpr hnot)
      refine ⟨r, hr, ?_⟩
      by_cases hlast : k + 1 = n
      · omega
      · have hnext : k + 1 ∉ cover l :=
          fun hmem => (hC (k + 1) (by omega)).mp hmem (hend.resolve_left hlast)
        have : r.hi ≤ k := by
          by_contra hgt
          exact hnext (mem_cover.mpr ⟨r, hr, by omega, by omega⟩)
        omega
    · rintro ⟨r, hr, rfl⟩
      have hlt := hlo r hr
      have hvalid := h.valid r hr
      refine ⟨⟨by omega, (hC _ (by omega)).mp (mem_cover.mpr ⟨r, hr, by omega, by omega⟩)⟩, ?_⟩
      by_cases hlast : n ≤ r.hi + 1
      · exact Or.inl (by omega)
      · rw [min_eq_left (by omega)]
        by_contra hno
        rw [not_or] at hno
        exact h.hi_succ_notMem hr ((hC _ (by omega)).mpr hno.2)
  have hnodup : (l.map fun r => min r.hi (n - 1)).Nodup := by
    refine List.Pairwise.imp (R := (· < ·)) ne_of_lt ?_
    rw [List.pairwise_map]
    refine h.apart.imp_of_mem fun {a b} _ hb hab => ?_
    have hlt := hlo b hb
    have hvalid := h.valid b hb
    omega
  rw [hends, List.toFinset_card_of_nodup hnodup, List.length_map]

/-- Filling the first `m` gaps leaves `m` less. -/
theorem card_gapEnds_fill {m : ℕ} (h : Canonical l) (hC : ∀ k < n, k ∈ cover l ↔ k ∉ C)
    (hlo : ∀ r ∈ l, r.lo < n) (hC' : ∀ k < n, k ∈ C' ↔ k ∈ C ∨ k ∈ cover (l.take m)) :
    (gapEnds n C').card = (gapEnds n C).card - m := by
  have hdrop : Canonical (l.drop m) :=
    ⟨fun r hr => h.valid r (List.mem_of_mem_drop hr), h.apart.drop⟩
  have happart : ∀ k ∈ cover (l.drop m), k ∉ cover (l.take m) := by
    intro k hk hk'
    obtain ⟨a, ha, h1, h2⟩ := mem_cover.mp hk'
    obtain ⟨b, hb, h3, h4⟩ := mem_cover.mp hk
    have hab : a.hi + 1 < b.lo := by
      have hsplit := h.apart
      rw [← List.take_append_drop m l, List.pairwise_append] at hsplit
      exact hsplit.2.2 a ha b hb
    omega
  have hcover : cover l = cover (l.take m) ∪ cover (l.drop m) := by
    rw [← cover_append, List.take_append_drop]
  rw [card_gapEnds h hC hlo, card_gapEnds hdrop (fun k hk => ?_) fun r hr =>
    hlo r (List.mem_of_mem_drop hr), List.length_drop]
  have hk' := hC k hk
  rw [hcover, Finset.mem_union] at hk'
  have hnot := happart k
  rw [hC' k hk]
  tauto

end Ranges

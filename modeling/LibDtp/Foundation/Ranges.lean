import Mathlib.Order.Interval.Finset.Nat
import Mathlib.Data.Finset.Basic

/-!
# Ranges

Sets of numbers kept as lists of ranges. A list is canonical if its ranges are in ascending order,
none of them is empty, and there is a gap between any two of them.

`collect` goes through some ranges one by one, with one range still open: a range that meets the
open one, or comes right after it, makes it longer, and any other closes it and is the next open
one. Whatever the order of the ranges the result is canonical and has no number that was not there
(`cover_collect_subset`); none is lost either if the ranges come in ascending order
(`cover_collect`). Numbers that come one by one are all kept if and only if none comes too late
(`mem_cover_collect_iff`).

A set of numbers has only one canonical list (`Canonical.ext`). `gaps` are the ranges between those
of a canonical list.
-/

namespace Ranges

/-- The numbers from `lo` to `hi`, both included. -/
structure Range where
  /-- The first number. -/
  lo : ℕ
  /-- The last number. -/
  hi : ℕ
  deriving DecidableEq, Repr

/-- The numbers in a list of ranges. -/
def cover : List Range → Finset ℕ
  | [] => ∅
  | r :: l => Finset.Icc r.lo r.hi ∪ cover l

/-- The ranges are in order, not empty, and apart. -/
structure Canonical (l : List Range) : Prop where
  /-- No range is empty. -/
  valid : ∀ r ∈ l, r.lo ≤ r.hi
  /-- There is a gap between any two of them. -/
  apart : l.Pairwise fun a b => a.hi + 1 < b.lo

variable {l l' : List Range} {r cur : Range} {k n : ℕ}

@[simp] theorem cover_nil : cover [] = ∅ := rfl

@[simp] theorem cover_cons : cover (r :: l) = Finset.Icc r.lo r.hi ∪ cover l := rfl

@[simp] theorem cover_append : cover (l ++ l') = cover l ∪ cover l' := by
  induction l with
  | nil => simp
  | cons r l ih => simp [ih, Finset.union_assoc]

theorem mem_cover : k ∈ cover l ↔ ∃ r ∈ l, r.lo ≤ k ∧ k ≤ r.hi := by
  induction l with
  | nil => simp
  | cons r l ih => simp [ih]

theorem canonical_nil : Canonical [] := ⟨by simp, List.Pairwise.nil⟩

/-- A range that comes after a gap can be put at the end. -/
theorem Canonical.concat (h : Canonical l) (hr : r.lo ≤ r.hi) (hlast : ∀ a ∈ l, a.hi + 1 < r.lo) :
    Canonical (l ++ [r]) := by
  constructor
  · intro a ha
    simp only [List.mem_append, List.mem_singleton] at ha
    rcases ha with ha | rfl
    · exact h.valid a ha
    · exact hr
  · rw [List.pairwise_append]
    refine ⟨h.apart, List.pairwise_singleton _ _, ?_⟩
    intro a ha b hb
    obtain rfl := List.mem_singleton.mp hb
    exact hlast a ha

theorem Canonical.tail (h : Canonical (r :: l)) : Canonical l :=
  ⟨fun a ha => h.valid a (List.mem_cons_of_mem _ ha), h.apart.of_cons⟩

theorem Canonical.take (h : Canonical l) (n : ℕ) : Canonical (l.take n) :=
  ⟨fun a ha => h.valid a (List.mem_of_mem_take ha), h.apart.take⟩

/-- A canonical list below `n` has no more than `n` ranges. -/
theorem Canonical.length_le (h : Canonical l) (hn : ∀ r ∈ l, r.lo < n) : l.length ≤ n := by
  have hnodup : (l.map Range.lo).Nodup := by
    rw [List.Nodup, List.pairwise_map]
    refine h.apart.imp_of_mem fun {a b} ha _ hab => ?_
    have := h.valid a ha
    omega
  have hsub : (l.map Range.lo).toFinset ⊆ Finset.range n := by
    intro k hk
    simp only [List.mem_toFinset, List.mem_map] at hk
    obtain ⟨r, hr, rfl⟩ := hk
    exact Finset.mem_range.mpr (hn r hr)
  have hcard := Finset.card_le_card hsub
  rwa [List.toFinset_card_of_nodup hnodup, List.length_map, Finset.card_range] at hcard

/-- With the gaps, it has no more than half as many. -/
theorem Canonical.two_mul_length_le {m : ℕ} (h : Canonical l) (hm : ∀ r ∈ l, m ≤ r.lo)
    (hn : ∀ r ∈ l, r.lo < n) (hle : m ≤ n + 1) : m + 2 * l.length ≤ n + 1 := by
  induction l generalizing m with
  | nil => simpa using hle
  | cons r l ih =>
    have hvalid := h.valid r (List.mem_cons_self ..)
    have hlo := hm r (List.mem_cons_self ..)
    have hlt := hn r (List.mem_cons_self ..)
    have hrest : r.lo + 2 + 2 * l.length ≤ n + 1 := by
      refine ih ⟨fun a ha => h.valid a (List.mem_cons_of_mem _ ha), h.apart.of_cons⟩
        (fun a ha => ?_)
        (fun a ha => hn a (List.mem_cons_of_mem _ ha)) (by omega)
      have hgap := (List.pairwise_cons.mp h.apart).1 a ha
      omega
    rw [List.length_cons]
    omega

/-- The numbers of the ranges after the first come after a gap. -/
theorem Canonical.lt_of_mem_tail (h : Canonical (r :: l)) (hk : k ∈ cover l) : r.hi + 1 < k := by
  obtain ⟨a, ha, hlo, -⟩ := mem_cover.mp hk
  have := (List.pairwise_cons.mp h.apart).1 a ha
  omega

/-- The first range starts at the first number. -/
theorem Canonical.lo_le (h : Canonical (r :: l)) (hk : k ∈ cover (r :: l)) : r.lo ≤ k := by
  have hr := h.valid r (List.mem_cons_self ..)
  rcases Finset.mem_union.mp hk with hk | hk
  · exact (Finset.mem_Icc.mp hk).1
  · have := h.lt_of_mem_tail hk
    omega

/-- The first range ends where the numbers first stop. -/
theorem Canonical.hi_add_one_notMem (h : Canonical (r :: l)) : r.hi + 1 ∉ cover (r :: l) := by
  intro hk
  rcases Finset.mem_union.mp hk with hk | hk
  · have := (Finset.mem_Icc.mp hk).2
    omega
  · exact absurd (h.lt_of_mem_tail hk) (lt_irrefl _)

theorem Canonical.lo_mem (h : Canonical (r :: l)) : r.lo ∈ cover (r :: l) :=
  mem_cover.mpr ⟨r, List.mem_cons_self .., le_rfl, h.valid r (List.mem_cons_self ..)⟩

/-- The first ranges of two canonical lists of the same numbers do not end one before the other. -/
theorem Canonical.hi_le {r' : Range} (h : Canonical (r :: l)) (h' : Canonical (r' :: l'))
    (hcover : cover (r :: l) = cover (r' :: l')) : r'.hi ≤ r.hi := by
  by_contra hlt
  have hlo := h'.lo_le (hcover ▸ h.lo_mem)
  have hr := h.valid r (List.mem_cons_self ..)
  apply h.hi_add_one_notMem
  rw [hcover]
  exact mem_cover.mpr ⟨r', List.mem_cons_self .., by omega, by omega⟩

/-- The numbers of the ranges after the first. -/
theorem Canonical.mem_tail (h : Canonical (r :: l)) :
    k ∈ cover l ↔ k ∈ cover (r :: l) ∧ r.hi < k := by
  constructor
  · intro hk
    have := h.lt_of_mem_tail hk
    exact ⟨Finset.mem_union_right _ hk, by omega⟩
  · rintro ⟨hk, hlt⟩
    rcases Finset.mem_union.mp hk with hk | hk
    · have := (Finset.mem_Icc.mp hk).2
      omega
    · exact hk

/-- A set of numbers has one canonical list. -/
theorem Canonical.ext (h : Canonical l) (h' : Canonical l') (hcover : cover l = cover l') :
    l = l' := by
  induction l generalizing l' with
  | nil =>
    cases l' with
    | nil => rfl
    | cons r' l' => exact absurd (hcover ▸ h'.lo_mem) (Finset.notMem_empty _)
  | cons r l ih =>
    cases l' with
    | nil => exact absurd (hcover ▸ h.lo_mem) (Finset.notMem_empty _)
    | cons r' l' =>
      have hlo : r.lo = r'.lo :=
        le_antisymm (h.lo_le (hcover ▸ h'.lo_mem)) (h'.lo_le (hcover ▸ h.lo_mem))
      have hhi : r.hi = r'.hi := le_antisymm (h'.hi_le h hcover.symm) (h.hi_le h' hcover)
      have htail : cover l = cover l' := by
        ext k
        rw [h.mem_tail, h'.mem_tail, hcover, hhi]
      obtain ⟨lo, hi⟩ := r
      obtain ⟨lo', hi'⟩ := r'
      obtain rfl : lo = lo' := hlo
      obtain rfl : hi = hi' := hhi
      rw [ih h.tail h'.tail htail]

/-- The only canonical list of the first `n + 1` numbers. -/
theorem Canonical.eq_singleton (h : Canonical l) (hcover : cover l = Finset.range (n + 1)) :
    l = [⟨0, n⟩] := by
  refine h.ext ⟨by simp, List.pairwise_singleton _ _⟩ ?_
  ext k
  rw [hcover, Finset.mem_range, Nat.lt_succ_iff, mem_cover]
  constructor
  · exact fun hk => ⟨_, List.mem_singleton_self _, Nat.zero_le k, hk⟩
  · rintro ⟨r, hr, -, hk⟩
    obtain rfl := List.mem_singleton.mp hr
    exact hk

/-! ### Gaps -/

/-- The gaps between the ranges of a list, and before the first of them from `n` on. -/
def gaps (n : ℕ) : List Range → List Range
  | [] => []
  | r :: l => if n < r.lo then ⟨n, r.lo - 1⟩ :: gaps (r.hi + 1) l else gaps (r.hi + 1) l

/-- A gap lies between `n` and one of the ranges. -/
theorem mem_gaps {g : Range} (h : Canonical l) (hn : ∀ r ∈ l, n ≤ r.lo) (hg : g ∈ gaps n l) :
    n ≤ g.lo ∧ g.lo ≤ g.hi ∧ ∃ r ∈ l, g.hi + 1 = r.lo := by
  induction l generalizing n with
  | nil => cases hg
  | cons r l ih =>
    have hr := h.valid r (List.mem_cons_self ..)
    have hnr := hn r (List.mem_cons_self ..)
    have hrest : ∀ a ∈ l, r.hi + 1 ≤ a.lo := fun a ha => ((List.pairwise_cons.mp h.apart).1 a ha).le
    have htail : g ∈ gaps (r.hi + 1) l → n ≤ g.lo ∧ g.lo ≤ g.hi ∧
        ∃ a ∈ r :: l, g.hi + 1 = a.lo := by
      intro hg
      obtain ⟨hlo, hvalid, a, ha, hhi⟩ := ih h.tail hrest hg
      exact ⟨by omega, hvalid, a, List.mem_cons_of_mem _ ha, hhi⟩
    rw [gaps] at hg
    split_ifs at hg with hlt
    · rcases List.mem_cons.mp hg with rfl | hg
      · exact ⟨le_rfl, Nat.le_pred_of_lt hlt, r, List.mem_cons_self ..,
          Nat.succ_pred_eq_of_pos (Nat.zero_lt_of_lt hlt)⟩
      · exact htail hg
    · exact htail hg

theorem canonical_gaps (h : Canonical l) (hn : ∀ r ∈ l, n ≤ r.lo) : Canonical (gaps n l) := by
  refine ⟨fun g hg => (mem_gaps h hn hg).2.1, ?_⟩
  induction l generalizing n with
  | nil => exact List.Pairwise.nil
  | cons r l ih =>
    have hr := h.valid r (List.mem_cons_self ..)
    have hrest : ∀ a ∈ l, r.hi + 1 ≤ a.lo := fun a ha => ((List.pairwise_cons.mp h.apart).1 a ha).le
    rw [gaps]
    split_ifs with hlt
    · refine List.pairwise_cons.mpr ⟨fun g hg => ?_, ih h.tail hrest⟩
      have := (mem_gaps h.tail hrest hg).1
      change r.lo - 1 + 1 < g.lo
      omega
    · exact ih h.tail hrest

/-- The numbers in the gaps are those that are missing before one of the ranges. -/
theorem mem_cover_gaps (h : Canonical l) (hn : ∀ r ∈ l, n ≤ r.lo) :
    k ∈ cover (gaps n l) ↔ n ≤ k ∧ k ∉ cover l ∧ ∃ r ∈ l, k < r.lo := by
  induction l generalizing n with
  | nil => simp [gaps]
  | cons r l ih =>
    have hr := h.valid r (List.mem_cons_self ..)
    have hnr := hn r (List.mem_cons_self ..)
    have hrest : ∀ a ∈ l, r.hi + 1 < a.lo := (List.pairwise_cons.mp h.apart).1
    have htail := ih h.tail (n := r.hi + 1) fun a ha => (hrest a ha).le
    have hsplit : k ∈ cover (gaps n (r :: l)) ↔ n ≤ k ∧ k < r.lo ∨
        k ∈ cover (gaps (r.hi + 1) l) := by
      rw [gaps]
      split_ifs with hlt
      · rw [cover_cons, Finset.mem_union, Finset.mem_Icc]
        change n ≤ k ∧ k ≤ r.lo - 1 ∨ _ ↔ _
        exact or_congr_left (by omega)
      · exact (or_iff_right (by omega)).symm
    rw [hsplit, htail, cover_cons, Finset.mem_union, Finset.mem_Icc]
    constructor
    · rintro (⟨h1, h2⟩ | ⟨h1, h2, a, ha, h3⟩)
      · refine ⟨h1, fun hk => ?_, r, List.mem_cons_self .., h2⟩
        rcases hk with hk | hk
        · omega
        · have := h.lt_of_mem_tail hk
          omega
      · refine ⟨by omega, fun hk => ?_, a, List.mem_cons_of_mem _ ha, h3⟩
        rcases hk with hk | hk
        · omega
        · exact h2 hk
    · rintro ⟨h1, h2, a, ha, h3⟩
      rw [not_or] at h2
      by_cases hlt : k < r.lo
      · exact Or.inl ⟨h1, hlt⟩
      · refine Or.inr ⟨by omega, h2.2, ?_⟩
        rcases List.mem_cons.mp ha with rfl | ha
        · exact absurd h3 hlt
        · exact ⟨a, ha, h3⟩

/-- The number after the last range, or `n` if there is none. -/
def after (n : ℕ) : List Range → ℕ
  | [] => n
  | r :: l => after (r.hi + 1) l

@[simp] theorem after_concat : after n (l ++ [r]) = r.hi + 1 := by
  induction l generalizing n with
  | nil => rfl
  | cons a l ih => exact ih

theorem exists_after (hl : l ≠ []) (n : ℕ) : ∃ r ∈ l, after n l = r.hi + 1 := by
  obtain ⟨l, r, rfl⟩ := List.eq_nil_or_concat l |>.resolve_left hl
  exact ⟨r, by simp, by simp⟩

/-- No number is at or after the end. -/
theorem Canonical.lt_after (h : Canonical l) (hk : k ∈ cover l) : k < after n l := by
  induction l using List.reverseRecOn with
  | nil => simp at hk
  | append_singleton l r =>
    obtain ⟨a, ha, -, hhi⟩ := mem_cover.mp hk
    rw [after_concat]
    rcases List.mem_append.mp ha with ha | ha
    · have hapart := (List.pairwise_append.mp h.apart).2.2 a ha r (List.mem_singleton_self r)
      have := h.valid r (by simp)
      omega
    · rw [List.mem_singleton.mp ha] at hhi
      omega

theorem Canonical.le_after (h : Canonical l) (hn : ∀ r ∈ l, n ≤ r.lo) : n ≤ after n l := by
  cases l with
  | nil => exact le_rfl
  | cons r l => exact (hn r (List.mem_cons_self ..)).trans (h.lt_after h.lo_mem).le

/-- The numbers in the gaps are those that are missing before the end. -/
theorem mem_cover_gaps_iff (h : Canonical l) (hn : ∀ r ∈ l, n ≤ r.lo) :
    k ∈ cover (gaps n l) ↔ n ≤ k ∧ k ∉ cover l ∧ k < after n l := by
  rw [mem_cover_gaps h hn]
  refine and_congr_right fun hk => and_congr_right fun hnot => ⟨?_, fun hlt => ?_⟩
  · rintro ⟨r, hr, hlt⟩
    exact hlt.trans (h.lt_after (mem_cover.mpr ⟨r, hr, le_rfl, h.valid r hr⟩))
  · induction l using List.reverseRecOn with
    | nil => exact absurd hlt (not_lt.mpr hk)
    | append_singleton l r =>
      rw [after_concat] at hlt
      refine ⟨r, by simp, ?_⟩
      by_contra hle
      exact hnot (mem_cover.mpr ⟨r, by simp, by omega, by omega⟩)

/-! ### Collecting -/

/-- The next range: it makes the open range longer, or it closes it. -/
def absorb (acc : List Range × Range) (r : Range) : List Range × Range :=
  if r.lo ≤ acc.2.hi + 1 then (acc.1, ⟨acc.2.lo, max acc.2.hi r.hi⟩) else (acc.1 ++ [acc.2], r)

/-- What comes of a list of ranges. -/
def collect : List Range → List Range
  | [] => []
  | r :: rs => (rs.foldl absorb ([], r)).1 ++ [(rs.foldl absorb ([], r)).2]

/-- The closed ranges and the open one together. -/
def Open (acc : List Range × Range) : Prop := Canonical (acc.1 ++ [acc.2])

theorem open_iff {acc : List Range × Range} :
    Open acc ↔ Canonical acc.1 ∧ acc.2.lo ≤ acc.2.hi ∧ ∀ a ∈ acc.1, a.hi + 1 < acc.2.lo := by
  constructor
  · intro h
    obtain ⟨hl, -, hlast⟩ := List.pairwise_append.mp h.apart
    exact ⟨⟨fun a ha => h.valid a (List.mem_append_left _ ha), hl⟩, h.valid _ (by simp),
      fun a ha => hlast a ha _ (List.mem_singleton_self _)⟩
  · rintro ⟨hl, hr, hlast⟩
    exact hl.concat hr hlast

theorem open_absorb {acc : List Range × Range} (h : Open acc) (hr : r.lo ≤ r.hi) :
    Open (absorb acc r) := by
  obtain ⟨hl, hcur, hlast⟩ := open_iff.mp h
  unfold absorb
  split_ifs with hmeet
  · exact open_iff.mpr ⟨hl, le_trans hcur (le_max_left _ _), hlast⟩
  · refine open_iff.mpr ⟨h, hr, ?_⟩
    intro a ha
    simp only [List.mem_append, List.mem_singleton] at ha
    rcases ha with ha | rfl
    · have := hlast a ha
      change a.hi + 1 < r.lo
      omega
    · exact not_le.mp hmeet

theorem cover_absorb_subset (acc : List Range × Range) (r : Range) :
    cover ((absorb acc r).1 ++ [(absorb acc r).2]) ⊆ cover (acc.1 ++ [acc.2]) ∪
      Finset.Icc r.lo r.hi := by
  unfold absorb
  split_ifs with hmeet
  · intro k
    simp only [cover_append, cover_cons, cover_nil, Finset.mem_union, Finset.mem_Icc]
    rintro (hk | hk | hk)
    · exact Or.inl (Or.inl hk)
    · by_cases hle : k ≤ acc.2.hi
      · exact Or.inl (Or.inr (Or.inl ⟨hk.1, hle⟩))
      · exact Or.inr (by omega)
    · simp at hk
  · simp

/-- A range that does not start before the open one is all there. -/
theorem cover_absorb {acc : List Range × Range} (h : acc.2.lo ≤ r.lo) :
    cover ((absorb acc r).1 ++ [(absorb acc r).2]) =
      cover (acc.1 ++ [acc.2]) ∪ Finset.Icc r.lo r.hi := by
  apply subset_antisymm (cover_absorb_subset acc r)
  unfold absorb
  split_ifs with hmeet
  · intro k
    simp only [cover_append, cover_cons, cover_nil, Finset.mem_union, Finset.mem_Icc]
    rintro ((hk | hk | hk) | hk)
    · exact Or.inl hk
    · exact Or.inr (Or.inl (by omega))
    · simp at hk
    · exact Or.inr (Or.inl (by omega))
  · simp

theorem lo_absorb {acc : List Range × Range} (h : acc.2.lo ≤ r.lo) :
    (absorb acc r).2.lo ≤ r.lo := by
  unfold absorb
  split_ifs
  · exact h
  · exact le_rfl

theorem open_foldl {rs : List Range} {acc : List Range × Range} (h : Open acc)
    (hrs : ∀ r ∈ rs, r.lo ≤ r.hi) :
    Open (rs.foldl absorb acc) := by
  induction rs generalizing acc with
  | nil => exact h
  | cons r rs ih =>
    exact ih (open_absorb h (hrs r (List.mem_cons_self ..))) fun a ha =>
      hrs a (List.mem_cons_of_mem _ ha)

theorem canonical_collect (h : ∀ r ∈ l, r.lo ≤ r.hi) : Canonical (collect l) := by
  cases l with
  | nil => exact canonical_nil
  | cons r rs =>
    refine open_foldl ?_ fun a ha => h a (List.mem_cons_of_mem _ ha)
    exact canonical_nil.concat (h r (List.mem_cons_self ..)) (by simp)

theorem cover_foldl_subset (rs : List Range) (acc : List Range × Range) :
    cover ((rs.foldl absorb acc).1 ++ [(rs.foldl absorb acc).2]) ⊆ cover (acc.1 ++ [acc.2]) ∪
      cover rs := by
  induction rs generalizing acc with
  | nil => simp
  | cons r rs ih =>
    refine (ih (absorb acc r)).trans ?_
    rw [cover_cons, ← Finset.union_assoc]
    exact Finset.union_subset_union_left (cover_absorb_subset acc r)

/-- No number comes out that was not there. -/
theorem cover_collect_subset (l : List Range) : cover (collect l) ⊆ cover l := by
  cases l with
  | nil => simp [collect]
  | cons r rs => simpa [collect] using cover_foldl_subset rs ([], r)

theorem cover_foldl {rs : List Range} {acc : List Range × Range} (hacc : ∀ r ∈ rs, acc.2.lo ≤ r.lo)
    (hrs : rs.Pairwise fun a b => a.lo ≤ b.lo) :
    cover ((rs.foldl absorb acc).1 ++ [(rs.foldl absorb acc).2]) =
      cover (acc.1 ++ [acc.2]) ∪ cover rs := by
  induction rs generalizing acc with
  | nil => simp
  | cons r rs ih =>
    obtain ⟨hr, hrs⟩ := List.pairwise_cons.mp hrs
    have hle := hacc r (List.mem_cons_self ..)
    rw [List.foldl_cons, ih (fun a ha => (lo_absorb hle).trans (hr a ha)) hrs, cover_absorb hle,
      cover_cons, Finset.union_assoc]

/-- None is lost if the ranges are in ascending order. -/
theorem cover_collect (h : l.Pairwise fun a b => a.lo ≤ b.lo) : cover (collect l) = cover l := by
  cases l with
  | nil => rfl
  | cons r rs =>
    obtain ⟨hr, hrs⟩ := List.pairwise_cons.mp h
    rw [collect, cover_foldl hr hrs]
    simp

/-! ### Collecting numbers one by one -/

/-- One number. -/
def single (k : ℕ) : Range := ⟨k, k⟩

theorem valid_map_single (ks : List ℕ) : ∀ r ∈ ks.map single, r.lo ≤ r.hi := by
  intro r hr
  obtain ⟨k, -, rfl⟩ := List.mem_map.mp hr
  exact le_rfl

theorem mem_cover_map_single {ks : List ℕ} : k ∈ cover (ks.map single) ↔ k ∈ ks := by
  simp only [mem_cover, List.mem_map, exists_exists_and_eq_and, single]
  constructor
  · rintro ⟨j, hj, h1, h2⟩
    rwa [le_antisymm h2 h1]
  · intro hk
    exact ⟨k, hk, le_rfl, le_rfl⟩

/-- No number comes for the first time after one that is above it and was more than one above all
those before it. -/
def Timely (l : List ℕ) : Prop :=
  ∀ pre a mid b post, l = pre ++ a :: (mid ++ b :: post) → (∀ c ∈ pre, c + 1 < a) → b < a → b ∈ pre

/-- The open range after the numbers `seen`: it ends at the highest of them, and starts at one that
was more than one above all those before it. -/
structure Front (seen : List ℕ) (acc : List Range × Range) : Prop where
  /-- It is not empty. -/
  valid : acc.2.lo ≤ acc.2.hi
  /-- It ends at one of the numbers. -/
  hi_mem : acc.2.hi ∈ seen
  /-- None is above it. -/
  le_hi : ∀ c ∈ seen, c ≤ acc.2.hi
  /-- Where it starts. -/
  lo : ∃ pre mid, seen = pre ++ acc.2.lo :: mid ∧ ∀ c ∈ pre, c + 1 < acc.2.lo
  /-- There are no other numbers. -/
  subset : ∀ k ∈ cover (acc.1 ++ [acc.2]), k ∈ seen

theorem front_single (k : ℕ) : Front [k] ([], single k) :=
  ⟨le_rfl, by simp [single], by simp [single], ⟨[], [], rfl, by simp⟩, by simp [single]⟩

theorem Front.absorb {seen : List ℕ} {acc : List Range × Range} (h : Front seen acc) (k : ℕ) :
    Front (seen ++ [k]) (absorb acc (single k)) := by
  have hsubset : ∀ j ∈ cover ((Ranges.absorb acc (single k)).1 ++
      [(Ranges.absorb acc (single k)).2]), j ∈ seen ++ [k] := by
    intro j hj
    rcases Finset.mem_union.mp (cover_absorb_subset acc (single k) hj) with hj | hj
    · exact List.mem_append_left _ (h.subset j hj)
    · simp only [single, Finset.Icc_self, Finset.mem_singleton] at hj
      simp [hj]
  have hvalid := h.valid
  unfold Ranges.absorb at hsubset ⊢
  by_cases hmeet : (single k).lo ≤ acc.2.hi + 1
  · rw [if_pos hmeet] at hsubset ⊢
    refine ⟨hvalid.trans (le_max_left _ _), ?_, ?_, ?_, hsubset⟩
    · change max acc.2.hi k ∈ seen ++ [k]
      rcases max_choice acc.2.hi k with hmax | hmax
      · rw [hmax]
        exact List.mem_append_left _ h.hi_mem
      · rw [hmax]
        exact List.mem_append_right _ (List.mem_singleton_self k)
    · intro c hc
      rcases List.mem_append.mp hc with hc | hc
      · exact (h.le_hi c hc).trans (le_max_left _ _)
      · rw [List.mem_singleton.mp hc]
        exact le_max_right _ _
    · obtain ⟨pre, mid, hseen, hjump⟩ := h.lo
      exact ⟨pre, mid ++ [k], by rw [hseen]; simp, hjump⟩
  · rw [if_neg hmeet] at hsubset ⊢
    have hlt : acc.2.hi + 1 < k := not_le.mp hmeet
    refine ⟨le_rfl, by simp [single], ?_, ⟨seen, [], rfl, ?_⟩, hsubset⟩
    · intro c hc
      rcases List.mem_append.mp hc with hc | hc
      · have := h.le_hi c hc
        change c ≤ k
        omega
      · exact (List.mem_singleton.mp hc).le
    · intro c hc
      have := h.le_hi c hc
      change c + 1 < k
      omega

theorem Front.foldl {seen : List ℕ} {acc : List Range × Range} (h : Front seen acc) (ks : List ℕ) :
    Front (seen ++ ks) ((ks.map single).foldl Ranges.absorb acc) := by
  induction ks generalizing seen acc with
  | nil => simpa using h
  | cons k ks ih => simpa using ih (h.absorb k)

/-- What is there stays there. -/
theorem subset_cover_absorb (acc : List Range × Range) (r : Range) :
    cover (acc.1 ++ [acc.2]) ⊆ cover ((absorb acc r).1 ++ [(absorb acc r).2]) := by
  unfold absorb
  split_ifs with hmeet
  · intro k
    simp only [cover_append, cover_cons, cover_nil, Finset.mem_union, Finset.mem_Icc]
    rintro (hk | hk | hk)
    · exact Or.inl hk
    · exact Or.inr (Or.inl ⟨hk.1, hk.2.trans (le_max_left _ _)⟩)
    · simp at hk
  · intro k hk
    rw [cover_append]
    exact Finset.mem_union_left _ hk

/-- Nothing is added below the open range. -/
theorem mem_cover_of_foldl {rs : List Range} {acc : List Range × Range} (hacc : acc.2.lo ≤ acc.2.hi)
    (hrs : ∀ r ∈ rs, r.lo ≤ r.hi) (hk : k < acc.2.lo)
    (hmem : k ∈ cover ((rs.foldl absorb acc).1 ++ [(rs.foldl absorb acc).2])) :
    k ∈ cover (acc.1 ++ [acc.2]) := by
  induction rs generalizing acc with
  | nil => exact hmem
  | cons r rs ih =>
    have hr := hrs r (List.mem_cons_self ..)
    have hrest := fun a ha => hrs a (List.mem_cons_of_mem _ ha)
    rw [List.foldl_cons] at hmem
    by_cases hmeet : r.lo ≤ acc.2.hi + 1
    · have habsorb : absorb acc r = (acc.1, ⟨acc.2.lo, max acc.2.hi r.hi⟩) := if_pos hmeet
      rw [habsorb] at hmem
      have := @ih (acc.1, ⟨acc.2.lo, max acc.2.hi r.hi⟩)
        (hacc.trans (le_max_left _ _)) hrest hk hmem
      simp only [cover_append, cover_cons, cover_nil, Finset.mem_union, Finset.mem_Icc] at this ⊢
      rcases this with h | h | h
      · exact Or.inl h
      · omega
      · simp at h
    · have habsorb : absorb acc r = (acc.1 ++ [acc.2], r) := if_neg hmeet
      rw [habsorb] at hmem
      have hkr : k < r.lo := by omega
      have := @ih (acc.1 ++ [acc.2], r) hr hrest hkr hmem
      simp only [cover_append, cover_cons, cover_nil, Finset.mem_union, Finset.mem_Icc] at this ⊢
      rcases this with h | h | h
      · exact h
      · omega
      · simp at h

/-- A number that is more than one above all those before it opens a range. -/
theorem Front.absorb_of_jump {seen : List ℕ} {acc : List Range × Range} (h : Front seen acc) {a : ℕ}
    (hjump : ∀ c ∈ seen, c + 1 < a) : Ranges.absorb acc (single a) = (acc.1 ++ [acc.2], single a) :=
  if_neg (not_le.mpr (hjump _ h.hi_mem))

/-- A number that comes below the range opened by `a` is there only if it was there before `a`. -/
theorem mem_of_mem_collect {pre rest : List ℕ} {a b : ℕ} (hjump : ∀ c ∈ pre, c + 1 < a)
    (hlt : b < a) (hmem : b ∈ cover (collect ((pre ++ a :: rest).map single))) : b ∈ pre := by
  cases pre with
  | nil =>
    have := @mem_cover_of_foldl b (rest.map single) ([], single a) le_rfl
      (valid_map_single rest) hlt hmem
    simp only [List.nil_append, cover_cons, cover_nil, single, Finset.Icc_self, Finset.union_empty,
      Finset.mem_singleton] at this
    omega
  | cons p pre =>
    have hfront := (front_single p).foldl pre
    have hfold : collect ((p :: pre ++ a :: rest).map single) =
        ((rest.map single).foldl absorb
          (absorb ((pre.map single).foldl absorb ([], single p)) (single a))).1 ++
          [((rest.map single).foldl absorb
              (absorb ((pre.map single).foldl absorb ([], single p)) (single a))).2] := by
      simp [collect]
    rw [hfold, hfront.absorb_of_jump hjump] at hmem
    have := mem_cover_of_foldl le_rfl (valid_map_single rest) hlt hmem
    rw [cover_append, Finset.mem_union] at this
    rcases this with hb | hb
    · simpa using hfront.subset b hb
    · simp only [cover_cons, cover_nil, single, Finset.Icc_self, Finset.union_empty,
        Finset.mem_singleton] at hb
      omega

/-- If all the numbers so far are there and none comes too late, all of them are there in the end.
-/
theorem Front.mem_cover_foldl {seen : List ℕ} {acc : List Range × Range} (h : Front seen acc)
    (hall : ∀ k ∈ seen, k ∈ cover (acc.1 ++ [acc.2])) {ks : List ℕ}
    (htimely : Timely (seen ++ ks)) :
    ∀ k ∈ seen ++ ks,
      k ∈ cover (((ks.map single).foldl Ranges.absorb acc).1 ++
        [((ks.map single).foldl Ranges.absorb acc).2]) := by
  induction ks generalizing seen acc with
  | nil => simpa using hall
  | cons n ks ih =>
    have hnew : ∀ k ∈ seen ++ [n],
        k ∈ cover ((Ranges.absorb acc (single n)).1 ++ [(Ranges.absorb acc (single n)).2]) := by
      intro k hk
      by_cases hseen : k ∈ seen
      · exact subset_cover_absorb acc _ (hall k hseen)
      · obtain rfl : k = n := by simpa [hseen] using hk
        rcases le_or_gt acc.2.lo k with hle | hlt
        · rw [cover_absorb (r := single k) hle]
          exact Finset.mem_union_right _ (by simp [single])
        · obtain ⟨pre, mid, rfl, hjump⟩ := h.lo
          have hpre := htimely pre _ mid k ks (by simp) hjump hlt
          exact absurd (List.mem_append_left _ hpre) hseen
    have := ih (h.absorb n) hnew (by simpa using htimely)
    simpa using this

/-- All the numbers are there in the end exactly if none of them came too late. -/
theorem mem_cover_collect_iff (l : List ℕ) :
    (∀ k ∈ l, k ∈ cover (collect (l.map single))) ↔ Timely l := by
  constructor
  · intro hall pre a mid b post hl hjump hlt
    subst hl
    exact mem_of_mem_collect hjump hlt (hall b (by simp))
  · intro htimely
    cases l with
    | nil => simp
    | cons k ks =>
      have := (front_single k).mem_cover_foldl (by simp [single]) htimely
      simpa [collect] using this

end Ranges

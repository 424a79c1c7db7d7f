import Mathlib.Algebra.Order.BigOperators.Group.Finset
import Mathlib.Algebra.BigOperators.Group.Finset.Basic
import Mathlib.Algebra.GroupWithZero.Nat

/-!
# Chunks

A sequence of `total` items cut into chunks of `n`: all of them full but the last,
which has what is left. The chunks are numbered from `0`; `count total n` is how many there
are and `len total n k` is how long chunk `k` is.

The lengths of a set of chunks add up to at most `total`, and to `total` only for the
set of all of them (`sum_len_eq_iff`): counting bytes is a way of knowing that
every chunk is there, as long as no chunk is counted twice.
-/

namespace Chunks

open Finset

/-- The number of chunks. -/
def count (total n : ℕ) : ℕ := (total + n - 1) / n

/-- The length of chunk `k`. -/
def len (total n k : ℕ) : ℕ := min n (total - k * n)

variable {total n k : ℕ}

theorem lt_count_iff (hn : 0 < n) : k < count total n ↔ k * n < total := by
  rw [count, ← Nat.succ_le_iff, Nat.le_div_iff_mul_le hn, Nat.succ_mul]
  omega

theorem len_pos (hn : 0 < n) (hk : k < count total n) : 0 < len total n k := by
  rw [lt_count_iff hn] at hk
  rw [len]
  omega

theorem len_le : len total n k ≤ n := min_le_left _ _

/-- A chunk ends inside the sequence. -/
theorem mul_add_len (hn : 0 < n) (hk : k < count total n) :
    k * n + len total n k = min ((k + 1) * n) total := by
  rw [lt_count_iff hn] at hk
  rw [len, Nat.succ_mul]
  omega

/-- The chunk an item is in. -/
theorem div_lt_count (hn : 0 < n) {i : ℕ} (hi : i < total) : i / n < count total n := by
  rw [lt_count_iff hn]
  exact lt_of_le_of_lt (Nat.div_mul_le_self i n) hi

theorem count_of_dvd (hn : 0 < n) (h : n ∣ total) : count total n = total / n := by
  obtain ⟨m, rfl⟩ := h
  rw [count, Nat.mul_div_cancel_left _ hn, Nat.add_sub_assoc hn, Nat.mul_add_div hn,
    Nat.div_eq_of_lt (by omega),
    Nat.add_zero]

theorem count_of_not_dvd (hn : 0 < n) (h : ¬ n ∣ total) : count total n = total / n + 1 := by
  have hm : 0 < total % n := Nat.pos_of_ne_zero fun h0 => h (Nat.dvd_of_mod_eq_zero h0)
  have hlt := Nat.mod_lt total hn
  have hdiv : total + n - 1 = (total % n - 1) + n * (total / n + 1) := by
    have := Nat.div_add_mod total n
    rw [Nat.mul_succ]
    omega
  rw [count, hdiv, Nat.add_mul_div_left _ _ hn, Nat.div_eq_of_lt (by omega), Nat.zero_add]

/-- The number of chunks is the quotient, or one more. -/
theorem count_le_div_add_one (hn : 0 < n) : count total n ≤ total / n + 1 := by
  by_cases h : n ∣ total
  · rw [count_of_dvd hn h]
    omega
  · rw [count_of_not_dvd hn h]

theorem count_pos (hn : 0 < n) (h : 0 < total) : 0 < count total n := by
  rw [lt_count_iff hn, Nat.zero_mul]
  exact h

theorem count_le (hn : 0 < n) : count total n ≤ total := by
  by_contra h
  have := (lt_count_iff hn).mp (not_le.mp h)
  have := Nat.le_mul_of_pos_right total hn
  omega

/-! ### Adding up -/

theorem sum_len_range (m : ℕ) : ∑ k ∈ range m, len total n k = min (m * n) total := by
  induction m with
  | zero => simp
  | succ m ih =>
    rw [sum_range_succ, ih, len, Nat.succ_mul]
    omega

/-- All the chunks together are the whole. -/
theorem sum_len (hn : 0 < n) : ∑ k ∈ range (count total n), len total n k = total := by
  rw [sum_len_range, min_eq_right]
  by_contra h
  exact absurd ((lt_count_iff hn).mpr (not_le.mp h)) (lt_irrefl _)

theorem sum_len_le (hn : 0 < n) {s : Finset ℕ} (hs : s ⊆ range (count total n)) :
    ∑ k ∈ s, len total n k ≤ total := by
  calc ∑ k ∈ s, len total n k ≤ ∑ k ∈ range (count total n), len total n k :=
    sum_le_sum_of_subset hs
    _ = total := sum_len hn

/-- Chunks that add up to the whole are all of them. -/
theorem sum_len_eq_iff (hn : 0 < n) {s : Finset ℕ} (hs : s ⊆ range (count total n)) :
    ∑ k ∈ s, len total n k = total ↔ s = range (count total n) := by
  constructor
  · intro h
    by_contra hne
    obtain ⟨k, hk, hks⟩ := exists_of_ssubset (hs.ssubset_of_ne hne)
    have hlt : ∑ k ∈ s, len total n k < ∑ k ∈ range (count total n), len total n k :=
      sum_lt_sum_of_subset hs hk hks (len_pos hn (mem_range.mp hk)) fun _ _ _ => Nat.zero_le _
    rw [h, sum_len hn] at hlt
    exact absurd hlt (lt_irrefl _)
  · rintro rfl
    exact sum_len hn

theorem sum_toFinset_le {α : Type} [DecidableEq α] (l : List α) (f : α → ℕ) :
    ∑ k ∈ l.toFinset, f k ≤ (l.map f).sum := by
  induction l with
  | nil => simp
  | cons a l ih =>
    rw [List.toFinset_cons, List.map_cons, List.sum_cons]
    by_cases ha : a ∈ l.toFinset
    · rw [insert_eq_of_mem ha]
      omega
    · rw [sum_insert ha]
      omega

/-- A list that counts no more than its elements do has none of them twice. -/
theorem nodup_of_sum_le {α : Type} [DecidableEq α] {l : List α} {f : α → ℕ} (hf : ∀ k ∈ l, 0 < f k)
    (h : (l.map f).sum ≤ ∑ k ∈ l.toFinset, f k) : l.Nodup := by
  induction l with
  | nil => exact List.nodup_nil
  | cons a l ih =>
    have hl := sum_toFinset_le l f
    have ha := hf a (List.mem_cons_self ..)
    rw [List.toFinset_cons, List.map_cons, List.sum_cons] at h
    by_cases hmem : a ∈ l.toFinset
    · rw [insert_eq_of_mem hmem] at h
      omega
    · rw [sum_insert hmem] at h
      refine List.nodup_cons.mpr ⟨fun h => hmem (List.mem_toFinset.mpr h), ?_⟩
      exact ih (fun k hk => hf k (List.mem_cons_of_mem a hk)) (by omega)

/-! ### The items of a chunk -/

/-- Chunk `k` of a list. -/
def part {α : Type} (l : List α) (n k : ℕ) : List α := (l.drop (k * n)).take n

@[simp] theorem length_part {α : Type} (l : List α) (n k : ℕ) :
    (part l n k).length = len l.length n k := by
  simp [part, len]

/-- Chunks that follow one another make one piece of the list. -/
theorem flatMap_part_range' {α : Type} (l : List α) (n k m : ℕ) :
    (List.range' k m).flatMap (part l n) = (l.drop (k * n)).take (m * n) := by
  induction m generalizing k with
  | zero => simp
  | succ m ih =>
    rw [List.range'_succ, List.flatMap_cons, ih, part, Nat.succ_mul m, Nat.add_comm (m * n),
      List.take_add, List.drop_drop, Nat.succ_mul]

theorem getElem?_part {α : Type} (l : List α) {j : ℕ} (h : j < len l.length n k) :
    (part l n k)[j]? = l[k * n + j]? := by
  rw [len] at h
  rw [part, List.getElem?_take_of_lt (by omega), List.getElem?_drop]

end Chunks

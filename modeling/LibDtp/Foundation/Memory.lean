import Mathlib.Data.Int.ConditionallyCompleteOrder
import Mathlib.Data.Set.Piecewise
import Mathlib.Order.ConditionallyCompleteLattice.Basic

/-!
# Memory

Memory is a function from addresses. `write` puts some values from an address on. Where everything
that is written follows one pattern, it does not matter in what order or how often a place is
written: a memory is then `painted`, on the set of places that have been written.
-/

namespace Memory

variable {ι α : Type*}

/-- The values `bs` are written from the address `a` on. -/
def write (m : ℤ → α) (a : ℤ) (bs : List α) : ℤ → α :=
  fun x => if a ≤ x then (bs[(x - a).toNat]?).getD (m x) else m x

open scoped Classical in
/-- The places in `s` have been written with the values of `p`. -/
noncomputable def painted (p : ι → α) (s : Set ι) (m : ι → α) : ι → α := s.piecewise p m

variable {p m : ι → α} {s t : Set ι} {x : ι}

theorem painted_of_mem (h : x ∈ s) : painted p s m x = p x := by
  classical exact Set.piecewise_eq_of_mem s p m h

theorem painted_of_notMem (h : x ∉ s) : painted p s m x = m x := by
  classical exact Set.piecewise_eq_of_notMem s p m h

@[simp] theorem painted_empty : painted p ∅ m = m := by
  funext x
  exact painted_of_notMem (Set.notMem_empty x)

/-- Painting twice. -/
@[simp] theorem painted_painted : painted p t (painted p s m) = painted p (s ∪ t) m := by
  funext x
  by_cases ht : x ∈ t
  · rw [painted_of_mem ht, painted_of_mem (Set.mem_union_right s ht)]
  · by_cases hs : x ∈ s
    · rw [painted_of_notMem ht, painted_of_mem hs, painted_of_mem (Set.mem_union_left t hs)]
    · rw [painted_of_notMem ht, painted_of_notMem hs, painted_of_notMem (by simp [hs, ht])]

/-- Values that follow the pattern paint the places they are written to. -/
theorem write_eq_painted {p m : ℤ → α} {a : ℤ} {bs : List α}
    (h : ∀ i < bs.length, bs[i]? = some (p (a + i))) :
    write m a bs = painted p (Set.Ico a (a + bs.length)) m := by
  funext x
  rw [write]
  by_cases hx : x ∈ Set.Ico a (a + bs.length)
  · obtain ⟨hlo, hhi⟩ := Set.mem_Ico.mp hx
    have hat := h (x - a).toNat (by omega)
    rw [Int.toNat_of_nonneg (by omega), Int.add_comm, Int.sub_add_cancel] at hat
    rw [painted_of_mem hx, if_pos hlo, hat, Option.getD_some]
  · rw [painted_of_notMem hx]
    split_ifs with hlo
    · have hlen : bs.length ≤ (x - a).toNat := by
        rw [Set.mem_Ico, not_and] at hx
        have := hx hlo
        omega
      rw [List.getElem?_eq_none hlen, Option.getD_none]
    · rfl

/-- Whatever a memory holds, it is painted on `t` and not changed elsewhere: exactly if `t` is where
it has been painted. Otherwise a memory that follows the pattern nowhere would be changed. -/
theorem forall_painted_iff [Nontrivial α] :
    (∀ m : ι → α, (∀ x ∈ t, painted p s m x = p x) ∧ ∀ x ∉ t, painted p s m x = m x) ↔ s = t := by
  constructor
  · intro h
    choose m hm using fun x => exists_ne (p x)
    obtain ⟨hin, hout⟩ := h m
    ext x
    constructor
    · intro hs
      by_contra ht
      have hx := hout x ht
      rw [painted_of_mem hs] at hx
      exact hm x hx.symm
    · intro ht
      by_contra hs
      have hx := hin x ht
      rw [painted_of_notMem hs] at hx
      exact hm x hx
  · rintro rfl m
    exact ⟨fun x hx => painted_of_mem hx, fun x hx => painted_of_notMem hx⟩

end Memory

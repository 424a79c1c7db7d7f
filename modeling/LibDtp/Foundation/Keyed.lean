import Mathlib.Data.List.Induction
import Mathlib.Data.List.Nodup
import Mathlib.Logic.Function.Basic

/-!
# Keyed lists

A list whose entries have a key is a map, if no two entries share a key: an entry is found by going
through the list, removed where it is found, and added at the front after the one with its key has
been removed. This module says what the three do to the map, as `Function.update`, and what a map
holds after a history of such updates: for each key, what the latest update of that key says.
-/

namespace Keyed

variable {α κ : Type*} [DecidableEq κ] (key : α → κ)

/-- The first entry with a key. -/
def find (l : List α) (k : κ) : Option α := l.find? fun a => key a = k

/-- The list without the first entry with a key. -/
def remove (l : List α) (k : κ) : List α := l.eraseP fun a => key a = k

/-- No two entries share a key. -/
def Distinct (l : List α) : Prop := (l.map key).Nodup

variable {key} {l : List α} {a : α} {k k' : κ}

theorem find_eq_none_iff : find key l k = none ↔ ∀ a ∈ l, key a ≠ k := by
  simp [find, List.find?_eq_none]

/-- An entry at the front is the one its key stands for. -/
theorem find_cons : find key (a :: l) = Function.update (find key l) (key a) (some a) := by
  funext k
  by_cases hk : key a = k
  · subst hk
    simp [find]
  · rw [Function.update_of_ne (Ne.symm hk)]
    simp [find, hk]

/-- The other keys do not notice a removal. -/
theorem find_remove_of_ne (h : k' ≠ k) : find key (remove key l k) k' = find key l k' := by
  induction l with
  | nil => rfl
  | cons a l ih =>
    by_cases hk : key a = k
    · have hk' : key a ≠ k' := fun h' => h (h'.symm.trans hk)
      simp [find, remove, hk, Ne.symm h]
    · have hremove : remove key (a :: l) k = a :: remove key l k := by simp [remove, hk]
      rw [hremove, find_cons, find_cons]
      by_cases hk' : k' = key a
      · subst hk'
        simp
      · rw [Function.update_of_ne hk', Function.update_of_ne hk', ih]

theorem Distinct.remove (h : Distinct key l) (k : κ) : Distinct key (remove key l k) :=
  h.sublist (List.eraseP_sublist.map key)

theorem Distinct.find_remove_self (h : Distinct key l) (k : κ) :
    find key (Keyed.remove key l k) k = none := by
  induction l with
  | nil => rfl
  | cons a l ih =>
    obtain ⟨ha, hl⟩ := List.nodup_cons.mp h
    by_cases hk : key a = k
    · have hremove : Keyed.remove key (a :: l) k = l := by simp [Keyed.remove, hk]
      rw [hremove, find_eq_none_iff]
      intro b hb hbk
      exact ha (List.mem_map.mpr ⟨b, hb, hbk.trans hk.symm⟩)
    · have hremove : Keyed.remove key (a :: l) k = a :: Keyed.remove key l k := by
        simp [Keyed.remove, hk]
      rw [hremove, find_cons, Function.update_of_ne (Ne.symm hk), ih hl]

/-- A removal, as an update of the map. -/
theorem Distinct.find_remove (h : Distinct key l) (k : κ) :
    find key (Keyed.remove key l k) = Function.update (find key l) k none := by
  funext k'
  by_cases hk : k' = k
  · subst hk
    rw [Function.update_self, h.find_remove_self]
  · rw [Function.update_of_ne hk, find_remove_of_ne hk]

/-- An entry put at the front, once the one with its key is gone. -/
theorem Distinct.insert (h : Distinct key l) (a : α) :
    Distinct key (a :: Keyed.remove key l (key a)) := by
  refine List.nodup_cons.mpr ⟨fun hmem => ?_, h.remove _⟩
  obtain ⟨b, hb, hkey⟩ := List.mem_map.mp hmem
  exact find_eq_none_iff.mp (h.find_remove_self (key a)) b hb hkey

/-- A replacement, as an update of the map. -/
theorem Distinct.find_insert (h : Distinct key l) (a : α) :
    find key (a :: Keyed.remove key l (key a)) = Function.update (find key l) (key a) (some a) := by
  rw [find_cons, h.find_remove, Function.update_idem]

omit [DecidableEq κ] in
theorem Distinct.set {a' : α} {i : ℕ} (h : Distinct key l) (hi : l[i]? = some a)
    (hkey : key a' = key a) :
    Distinct key (l.set i a') := by
  have hlt : i < (l.map key).length := by
    rw [List.length_map]
    exact (List.getElem?_eq_some_iff.mp hi).1
  have hsame : (l.map key)[i] = key a := by
    rw [List.getElem_map, (List.getElem?_eq_some_iff.mp hi).2]
  rw [Distinct, List.map_set, hkey, ← hsame, List.set_getElem_self]
  exact h

/-- An entry that is replaced where it is, as an update of the map. -/
theorem Distinct.find_set {a' : α} {i : ℕ} (h : Distinct key l) (hi : l[i]? = some a)
    (hkey : key a' = key a) :
    find key (l.set i a') = Function.update (find key l) (key a) (some a') := by
  induction l generalizing i with
  | nil => simp at hi
  | cons b l ih =>
    obtain ⟨hb, hl⟩ := List.nodup_cons.mp h
    cases i with
    | zero =>
      obtain rfl : b = a := Option.some.inj hi
      rw [List.set_cons_zero, find_cons, find_cons, hkey, Function.update_idem]
    | succ i =>
      have hne : key a ≠ key b :=
        fun heq => hb (heq ▸ List.mem_map_of_mem (List.mem_of_getElem? hi))
      rw [List.set_cons_succ, find_cons, find_cons, ih hl hi, Function.update_comm hne]

/-! ### Histories -/

/-- A map after some updates. -/
def replay (m : κ → Option α) (us : List (κ × Option α)) : κ → Option α :=
  us.foldl (fun m u => Function.update m u.1 u.2) m

/-- It holds what the latest update of a key says. -/
theorem replay_apply (m : κ → Option α) (us : List (κ × Option α)) (k : κ) :
    replay m us k = ((us.reverse.find? fun u => u.1 = k).map Prod.snd).getD (m k) := by
  induction us using List.reverseRecOn with
  | nil => rfl
  | append_singleton us u ih =>
    have hlast : replay m (us ++ [u]) = Function.update (replay m us) u.1 u.2 := by
      rw [replay, List.foldl_append]
      rfl
    rw [hlast, List.reverse_append]
    by_cases hu : u.1 = k
    · subst hu
      simp
    · rw [Function.update_of_ne (Ne.symm hu), ih]
      simp [hu]

end Keyed

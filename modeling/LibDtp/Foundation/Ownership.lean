import Mathlib.Data.List.Basic

/-!
# Ownership

What a program obtains it has to give back, once. Here the uses of some resources are a list, and
`settle` goes through it with what is held at each point: nothing is taken that is held already, and
nothing is given back that is not held.

A resource that is taken again after it was given back is another one, as far as its holder can
tell. A model that wants to know a stale reference from a good one numbers what is taken.
-/

namespace Ownership

/-- A use of a resource. -/
inductive Use (α : Type*) where
  /-- It is obtained. -/
  | take (a : α)
  /-- It is given back, or away. -/
  | give (a : α)
  deriving DecidableEq

variable {α : Type*}

/-- What is obtained in some uses. -/
def taken (us : List (Use α)) : List α := us.filterMap fun
  | .take a => some a
  | .give _ => none

@[simp] theorem taken_nil : taken ([] : List (Use α)) = [] := rfl

@[simp] theorem taken_take (a : α) (us : List (Use α)) : taken (.take a :: us) = a :: taken us :=
  rfl

@[simp] theorem taken_give (a : α) (us : List (Use α)) : taken (.give a :: us) = taken us := rfl

@[simp] theorem taken_append (us us' : List (Use α)) : taken (us ++ us') = taken us ++ taken us' :=
  List.filterMap_append

variable [DecidableEq α]

/-- What is held after some uses. There is no answer if something is taken that is held, or given
back that is not. -/
def settle : List α → List (Use α) → Option (List α)
  | held, [] => some held
  | held, .take a :: us => if a ∈ held then none else settle (a :: held) us
  | held, .give a :: us => if a ∈ held then settle (held.erase a) us else none

/-- Everything that is taken is given back exactly once, and nothing else is. -/
def AllReturned (us : List (Use α)) : Prop := settle [] us = some []

instance (us : List (Use α)) : Decidable (AllReturned us) :=
  inferInstanceAs (Decidable (settle [] us = some []))

variable {a : α} {held held' : List α} {us us' : List (Use α)}

@[simp] theorem settle_nil : settle held [] = some held := rfl

theorem settle_take (h : a ∉ held) : settle held (.take a :: us) = settle (a :: held) us := if_neg h

theorem settle_give (h : a ∈ held) : settle held (.give a :: us) = settle (held.erase a) us :=
  if_pos h

theorem settle_append : settle held (us ++ us') = (settle held us).bind (settle · us') := by
  induction us generalizing held with
  | nil => rfl
  | cons u us ih =>
    cases u with
    | take a =>
      rw [List.cons_append, settle, settle]
      split_ifs
      · rfl
      · exact ih
    | give a =>
      rw [List.cons_append, settle, settle]
      split_ifs
      · exact ih
      · rfl

theorem settle_append_of_eq (h : settle held us = some held') :
    settle held (us ++ us') = settle held' us' := by
  rw [settle_append, h]
  rfl

/-- Nothing is held twice. -/
theorem nodup_of_settle (h : settle held us = some held') (hheld : held.Nodup) : held'.Nodup := by
  induction us generalizing held with
  | nil =>
    obtain rfl := Option.some.inj h
    exact hheld
  | cons u us ih =>
    cases u with
    | take a =>
      rw [settle] at h
      split_ifs at h with ha
      exact ih h (List.nodup_cons.mpr ⟨ha, hheld⟩)
    | give a =>
      rw [settle] at h
      split_ifs at h
      exact ih h (hheld.erase a)

/-- What is held besides, and not taken, makes no difference. -/
theorem settle_frame (h : settle held us = some held') {others : List α}
    (hothers : ∀ a ∈ taken us, a ∉ others) :
    settle (held ++ others) us = some (held' ++ others) := by
  induction us generalizing held with
  | nil =>
    obtain rfl := Option.some.inj h
    rfl
  | cons u us ih =>
    cases u with
    | take a =>
      rw [settle] at h
      split_ifs at h with hheld
      rw [settle_take (by simpa [hheld] using hothers a (List.mem_cons_self ..))]
      exact ih h fun b hb => hothers b (List.mem_cons_of_mem _ hb)
    | give a =>
      rw [settle] at h
      split_ifs at h with hheld
      rw [settle_give (List.mem_append_left _ hheld), List.erase_append_left _ hheld]
      exact ih h hothers

/-- What is held and not given back is still held. -/
theorem mem_of_settle (h : settle held us = some held') (ha : a ∈ held) (hgive : .give a ∉ us) :
    a ∈ held' := by
  induction us generalizing held with
  | nil =>
    obtain rfl := Option.some.inj h
    exact ha
  | cons u us ih =>
    have hrest : .give a ∉ us := fun hmem => hgive (List.mem_cons_of_mem _ hmem)
    cases u with
    | take b =>
      rw [settle] at h
      split_ifs at h
      exact ih h (List.mem_cons_of_mem _ ha) hrest
    | give b =>
      rw [settle] at h
      split_ifs at h
      have hne : a ≠ b := by
        rintro rfl
        exact hgive (List.mem_cons_self ..)
      exact ih h ((List.mem_erase_of_ne hne).mpr ha) hrest

/-- Uses that return everything leave what is held alone, if they do not take it. -/
theorem AllReturned.settle_eq (h : AllReturned us) (hheld : ∀ a ∈ taken us, a ∉ held) :
    settle held us = some held :=
  settle_frame h hheld

theorem allReturned_nil : AllReturned ([] : List (Use α)) := rfl

theorem AllReturned.append (h : AllReturned us) (h' : AllReturned us') :
    AllReturned (us ++ us') := by
  rw [AllReturned, settle_append_of_eq h]
  exact h'

/-- Something is held while others are taken and given back. -/
theorem AllReturned.wrap (h : AllReturned us) (ha : a ∉ taken us) :
    AllReturned (.take a :: (us ++ [.give a])) := by
  have hheld : settle [a] us = some [a] := h.settle_eq fun b hb => by
    rw [List.mem_singleton]
    rintro rfl
    exact ha hb
  rw [AllReturned, settle_take (List.not_mem_nil), settle_append_of_eq hheld,
    settle_give (List.mem_singleton_self a)]
  simp

/-- Something is taken and given back. -/
theorem allReturned_pair (a : α) : AllReturned [.take a, .give a] :=
  allReturned_nil.wrap (List.not_mem_nil)

end Ownership

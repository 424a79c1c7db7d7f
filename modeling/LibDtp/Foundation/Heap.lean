import Mathlib.Data.Finset.Card
import Mathlib.Data.Finset.SDiff
import Mathlib.Data.List.Nodup

/-!
# Heaps and linked lists

A heap of cells that are allocated and freed, and the linked lists in it. Addresses are numbered as
they are allocated, so that one that was freed is never valid again: a program that uses it faults,
and one that never faults does not depend on which addresses it gets.

`Seg` is a list segment: the cells that are passed on the way from one pointer to another. `Moves`
is what an operation may do to a heap: it owns some cells before and some cells after it, frees the
ones it no longer owns, and touches no others.

## What is proved

* `seg_append` — a segment is cut at any of its cells.
* `Seg.nodup`, `Seg.length_le` — a list that ends passes no cell twice, so it is not longer than the
  heap.
* `Moves.trans` — operations one after the other.
* `Moves.frame` — what is not owned stays as it is, and is not owned afterwards.
* `Shared.step` — owners that share a heap do not disturb each other, and the heap has nothing but
  what they own.
-/

namespace Heaps

/-- What can go wrong. -/
inductive HeapFault where
  /-- A null pointer is followed. -/
  | null
  /-- A pointer to a cell that was freed, or is of another kind, is followed or freed. -/
  | dangling
  /-- A loop passes more cells than there are, so it never ends. -/
  | endless
  /-- An operation has no result, as a division by zero or a read out of bounds has none. -/
  | undefined
  deriving DecidableEq, Repr

/-- A heap: the cell at every address that was ever allocated, unless it was freed. -/
structure Heap (α : Type*) where
  /-- The cells. -/
  cells : List (Option α)
  deriving DecidableEq

variable {α β : Type*}

namespace Heap

/-- The cell at an address. -/
def lookup (h : Heap α) (a : ℕ) : Option α := h.cells[a]?.join

/-- The next address that is allocated. -/
def next (h : Heap α) : ℕ := h.cells.length

/-- Nothing is allocated. -/
def empty : Heap α := ⟨[]⟩

/-- A cell is written or erased. -/
def put (h : Heap α) (a : ℕ) (x : Option α) : Heap α := ⟨h.cells.set a x⟩

/-- The heap with one more cell. -/
def push (h : Heap α) (x : α) : Heap α := ⟨h.cells ++ [some x]⟩

/-- A cell is allocated. -/
def alloc (h : Heap α) (x : α) : ℕ × Heap α := (h.next, h.push x)

/-- A pointer is followed. -/
def load (h : Heap α) : Option ℕ → Except HeapFault α
  | none => .error .null
  | some a =>
    match h.lookup a with
    | none => .error .dangling
    | some x => .ok x

/-- What a pointer points to is overwritten. -/
def store (h : Heap α) (p : Option ℕ) (x : α) : Except HeapFault (Heap α) :=
  match p with
  | none => .error .null
  | some a => if (h.lookup a).isSome then .ok (h.put a (some x)) else .error .dangling

/-- What a pointer points to is freed; nothing is done for a null pointer. -/
def free (h : Heap α) : Option ℕ → Except HeapFault (Heap α)
  | none => .ok h
  | some a => if (h.lookup a).isSome then .ok (h.put a none) else .error .dangling

variable {h : Heap α} {a b : ℕ} {x y : α}

theorem lookup_of_le (hle : h.next ≤ a) : h.lookup a = none := by
  rw [lookup, List.getElem?_eq_none hle]
  rfl

theorem lt_of_lookup (hx : h.lookup a = some x) : a < h.next := by
  by_contra hge
  rw [lookup_of_le (not_lt.mp hge)] at hx
  cases hx

@[simp] theorem lookup_empty (a : ℕ) : (empty : Heap α).lookup a = none := rfl

@[simp] theorem next_put (h : Heap α) (a : ℕ) (x : Option α) : (h.put a x).next = h.next :=
  List.length_set

@[simp] theorem next_push (h : Heap α) (x : α) : (h.push x).next = h.next + 1 := List.length_append

theorem lookup_put_self (hx : h.lookup a = some x) (y : Option α) : (h.put a y).lookup a = y := by
  rw [lookup, put, List.getElem?_set_self (lt_of_lookup hx)]
  rfl

theorem lookup_put_ne (hab : b ≠ a) (y : Option α) : (h.put a y).lookup b = h.lookup b := by
  rw [lookup, put, List.getElem?_set_ne hab.symm, lookup]

@[simp] theorem lookup_push_self (h : Heap α) (x : α) : (h.push x).lookup h.next = some x := by
  simp [lookup, push, next]

theorem lookup_push_ne (ha : a ≠ h.next) (x : α) : (h.push x).lookup a = h.lookup a := by
  rcases Nat.lt_or_gt_of_ne ha with hlt | hgt
  · rw [lookup, push, List.getElem?_append_left hlt, lookup]
  · rw [lookup_of_le hgt.le, lookup_of_le]
    rw [next_push]
    exact hgt

theorem lookup_push_of_lt (ha : a < h.next) (x : α) : (h.push x).lookup a = h.lookup a :=
  lookup_push_ne ha.ne x

theorem load_eq (hx : h.lookup a = some x) : h.load (some a) = .ok x := by
  simp only [load, hx]

theorem store_eq (hx : h.lookup a = some x) (y : α) :
    h.store (some a) y = .ok (h.put a (some y)) := by
  simp [store, hx]

theorem free_eq (hx : h.lookup a = some x) : h.free (some a) = .ok (h.put a none) := by
  simp [free, hx]

end Heap

open Heap

/-! ### List segments -/

section Lists

variable (node : β → Option ℕ → α)

/-- The cells from `p` to `q`, with their addresses. `node` is how a value and a pointer to the next
cell are stored. -/
def Seg (h : Heap α) : Option ℕ → List (ℕ × β) → Option ℕ → Prop
  | p, [], q => p = q
  | p, x :: l, q => p = some x.1 ∧ ∃ next, h.lookup x.1 = some (node x.2 next) ∧ Seg h next l q

/-- The addresses of some cells. -/
def addresses (l : List (ℕ × β)) : Finset ℕ := (l.map Prod.fst).toFinset

variable {node} {h h' : Heap α} {p q : Option ℕ} {l l' : List (ℕ × β)} {a : ℕ} {x : β}

@[simp] theorem seg_nil : Seg node h p [] q ↔ p = q := Iff.rfl

theorem seg_cons {c : ℕ × β} : Seg node h p (c :: l) q ↔
    p = some c.1 ∧ ∃ next, h.lookup c.1 = some (node c.2 next) ∧ Seg node h next l q := Iff.rfl

@[simp] theorem addresses_nil : addresses ([] : List (ℕ × β)) = ∅ := rfl

@[simp] theorem addresses_cons (c : ℕ × β) (l : List (ℕ × β)) :
    addresses (c :: l) = insert c.1 (addresses l) := by
  simp [addresses]

@[simp] theorem addresses_append (l l' : List (ℕ × β)) :
    addresses (l ++ l') = addresses l ∪ addresses l' := by
  simp [addresses]

theorem addresses_concat (l : List (ℕ × β)) (c : ℕ × β) :
    addresses (l ++ [c]) = insert c.1 (addresses l) := by
  rw [addresses_append, addresses_cons, addresses_nil, Finset.union_comm]
  rfl

/-- A segment is cut in two. -/
theorem seg_append : Seg node h p (l ++ l') q ↔ ∃ m, Seg node h p l m ∧ Seg node h m l' q := by
  induction l generalizing p with
  | nil => simp
  | cons c l ih =>
    simp only [List.cons_append, seg_cons, ih]
    constructor
    · rintro ⟨hp, next, hnext, m, hl, hl'⟩
      exact ⟨m, ⟨hp, next, hnext, hl⟩, hl'⟩
    · rintro ⟨m, ⟨hp, next, hnext, hl⟩, hl'⟩
      exact ⟨hp, next, hnext, m, hl, hl'⟩

/-- A segment depends on its own cells only. -/
theorem Seg.congr (hseg : Seg node h p l q) (hsame : ∀ a ∈ addresses l, h'.lookup a = h.lookup a) :
    Seg node h' p l q := by
  induction l generalizing p with
  | nil => exact hseg
  | cons c l ih =>
    obtain ⟨hp, next, hnext, hl⟩ := hseg
    refine ⟨hp, next, ?_, ih hl fun a ha => hsame a ?_⟩
    · rw [hsame c.1 (by simp), hnext]
    · rw [addresses_cons]
      exact Finset.mem_insert_of_mem ha

theorem Seg.lookup (hseg : Seg node h p l q) (ha : a ∈ addresses l) : ∃ y, h.lookup a = some y := by
  induction l generalizing p with
  | nil => simp at ha
  | cons c l ih =>
    obtain ⟨-, next, hnext, hl⟩ := hseg
    rw [addresses_cons, Finset.mem_insert] at ha
    rcases ha with rfl | ha
    · exact ⟨_, hnext⟩
    · exact ih hl ha

theorem Seg.lt (hseg : Seg node h p l q) (ha : a ∈ addresses l) : a < h.next := by
  obtain ⟨y, hy⟩ := hseg.lookup ha
  exact lt_of_lookup hy

section Nodes

variable (hnode : ∀ x next x' next', node x next = node x' next' → x = x' ∧ next = next')
include hnode

/-- There is one list from a pointer to the end. -/
theorem Seg.unique (hseg : Seg node h p l none) (hseg' : Seg node h p l' none) : l = l' := by
  induction l generalizing p l' with
  | nil =>
    obtain rfl : p = none := hseg
    cases l' with
    | nil => rfl
    | cons c l' => cases hseg'.1
  | cons c l ih =>
    obtain ⟨rfl, next, hnext, hl⟩ := hseg
    cases l' with
    | nil => cases hseg'
    | cons c' l' =>
      obtain ⟨haddr, next', hnext', hl'⟩ := hseg'
      have haddr : c.1 = c'.1 := Option.some.inj haddr
      rw [← haddr, hnext] at hnext'
      obtain ⟨hval, rfl⟩ := hnode _ _ _ _ (Option.some.inj hnext')
      rw [ih hl hl', Prod.ext haddr hval]

/-- A list that ends passes no cell twice. From the second time on it would be a shorter one from
the same cell. -/
theorem Seg.nodup (hseg : Seg node h p l none) : (l.map Prod.fst).Nodup := by
  induction l generalizing p with
  | nil => exact List.nodup_nil
  | cons c l ih =>
    have hall := hseg
    obtain ⟨rfl, next, hnext, hl⟩ := hseg
    refine List.nodup_cons.mpr ⟨fun hmem => ?_, ih hl⟩
    obtain ⟨d, hd, haddr⟩ := List.mem_map.mp hmem
    obtain ⟨l₁, l₂, rfl⟩ := List.append_of_mem hd
    obtain ⟨m, -, hm⟩ := seg_append.mp hl
    have hfrom : Seg node h (some c.1) (d :: l₂) none := by
      obtain ⟨hm', hrest⟩ := hm
      exact ⟨congrArg some haddr.symm, hrest⟩
    have hlength := congrArg List.length (hall.unique hnode hfrom)
    simp only [List.length_cons, List.length_append] at hlength
    omega

/-- It is not longer than the heap. -/
theorem Seg.length_le (hseg : Seg node h p l none) : l.length ≤ h.next := by
  have hsubset : addresses l ⊆ Finset.range h.next := fun a ha => Finset.mem_range.mpr (hseg.lt ha)
  have hcard := Finset.card_le_card hsubset
  rwa [addresses, List.toFinset_card_of_nodup (hseg.nodup hnode), List.length_map,
    Finset.card_range] at hcard

end Nodes

/-- The last cell is given a next one. -/
theorem Seg.link (hseg : Seg node h p (l ++ [(a, x)]) none)
    (hnodup : ((l ++ [(a, x)]).map Prod.fst).Nodup) (hrest : Seg node h q l' none)
    (ha : a ∉ addresses l') :
    Seg node (h.put a (some (node x q))) p (l ++ [(a, x)] ++ l') none := by
  obtain ⟨m, hl, hm, next, hnext, hnone⟩ := seg_append.mp hseg
  have hne : ∀ b ∈ addresses l, b ≠ a := by
    rintro b hb rfl
    rw [List.map_append, List.nodup_append] at hnodup
    exact hnodup.2.2 _ (List.mem_toFinset.mp hb) _ (List.mem_singleton.mpr rfl) rfl
  refine seg_append.mpr ⟨q, seg_append.mpr ⟨m, ?_, hm, q, lookup_put_self hnext _, rfl⟩, ?_⟩
  · exact hl.congr fun b hb => lookup_put_ne (hne b hb) _
  · refine hrest.congr fun b hb => lookup_put_ne ?_ _
    rintro rfl
    exact ha hb

/-- A cell is given another value. -/
theorem Seg.setValue {y : β} (hseg : Seg node h p (l ++ (a, x) :: l') none)
    (hnodup : ((l ++ (a, x) :: l').map Prod.fst).Nodup) {next : Option ℕ}
    (hnext : h.lookup a = some (node x next)) (hrest : Seg node h next l' none) :
    Seg node (h.put a (some (node y next))) p (l ++ (a, y) :: l') none := by
  obtain ⟨m, hl, hm, -⟩ := seg_append.mp hseg
  rw [List.map_append, List.nodup_append, List.map_cons, List.nodup_cons] at hnodup
  obtain ⟨-, ⟨ha, -⟩, hdisjoint⟩ := hnodup
  refine seg_append.mpr ⟨m, ?_, hm, next, lookup_put_self hnext _, ?_⟩
  · refine hl.congr fun b hb => lookup_put_ne ?_ _
    rintro rfl
    exact hdisjoint _ (List.mem_toFinset.mp hb) _ (List.mem_cons_self ..) rfl
  · refine hrest.congr fun b hb => lookup_put_ne ?_ _
    rintro rfl
    exact ha (List.mem_toFinset.mp hb)

end Lists

/-! ### What an operation owns -/

/-- An operation that owns `S` before and `S'` after it. -/
structure Moves (h h' : Heap α) (S S' : Finset ℕ) : Prop where
  /-- Addresses are not allocated again. -/
  next_le : h.next ≤ h'.next
  /-- It touches nothing else. -/
  same : ∀ a, a ∉ S → a ∉ S' → h'.lookup a = h.lookup a
  /-- What it no longer owns is freed. -/
  freed : ∀ a ∈ S, a ∉ S' → h'.lookup a = none
  /-- What it owns now it has owned before, or has allocated. -/
  owned : ∀ a ∈ S', a ∈ S ∨ h.next ≤ a

variable {h₁ h₂ h₃ : Heap α} {S₁ S₂ S₃ T : Finset ℕ} {a : ℕ} {x : α}

theorem Moves.refl (h : Heap α) (S : Finset ℕ) : Moves h h S S :=
  ⟨le_rfl, fun _ _ _ => rfl, fun _ ha hna => absurd ha hna, fun _ ha => .inl ha⟩

/-- One operation after another. -/
theorem Moves.trans (h12 : Moves h₁ h₂ S₁ S₂) (h23 : Moves h₂ h₃ S₂ S₃) : Moves h₁ h₃ S₁ S₃ := by
  refine ⟨h12.next_le.trans h23.next_le, fun a h1 h3 => ?_, fun a h1 h3 => ?_, fun a h3 => ?_⟩
  · by_cases h2 : a ∈ S₂
    · rw [h23.freed a h2 h3, lookup_of_le ((h12.owned a h2).resolve_left h1)]
    · rw [h23.same a h2 h3, h12.same a h1 h2]
  · by_cases h2 : a ∈ S₂
    · exact h23.freed a h2 h3
    · rw [h23.same a h2 h3, h12.freed a h1 h2]
  · rcases h23.owned a h3 with h2 | hnew
    · exact h12.owned a h2
    · exact .inr (h12.next_le.trans hnew)

/-- What is not owned is left as it is, and is not owned afterwards. -/
theorem Moves.frame (h12 : Moves h₁ h₂ S₁ S₂) (hlt : ∀ a ∈ T, a < h₁.next)
    (hdisjoint : Disjoint S₁ T) :
    (∀ a ∈ T, h₂.lookup a = h₁.lookup a) ∧ Disjoint S₂ T := by
  have hnot : ∀ a ∈ T, a ∉ S₁ ∧ a ∉ S₂ := fun a ha => by
    have h1 : a ∉ S₁ := fun h1 => Finset.disjoint_left.mp hdisjoint h1 ha
    exact ⟨h1, fun h2 => absurd (hlt a ha) (not_lt.mpr ((h12.owned a h2).resolve_left h1))⟩
  exact ⟨fun a ha => h12.same a (hnot a ha).1 (hnot a ha).2, Finset.disjoint_right.mpr fun a ha =>
    (hnot a ha).2⟩

/-- A cell that is not owned is left as it is. -/
theorem Moves.keeps (h12 : Moves h₁ h₂ S₁ S₂) (hx : h₁.lookup a = some x) (ha : a ∉ S₁) :
    h₂.lookup a = some x ∧ a ∉ S₂ := by
  obtain ⟨hsame, hdisjoint⟩ :=
    h12.frame (T := {a}) (by simpa using lt_of_lookup hx) (by simpa using ha)
  exact ⟨by rw [hsame a (Finset.mem_singleton_self a), hx], by simpa using hdisjoint⟩

/-- An operation also owns what it does not use. -/
theorem Moves.widen (h12 : Moves h₁ h₂ S₁ S₂) (T : Finset ℕ) : Moves h₁ h₂ (S₁ ∪ T) (S₂ ∪ T) := by
  refine ⟨h12.next_le, fun a h1 h2 => ?_, fun a h1 h2 => ?_, fun a h2 => ?_⟩
  · rw [Finset.mem_union, not_or] at h1 h2
    exact h12.same a h1.1 h2.1
  · rw [Finset.mem_union, not_or] at h2
    exact h12.freed a ((Finset.mem_union.mp h1).resolve_right h2.2) h2.1
  · rw [Finset.mem_union] at h2 ⊢
    rcases h2 with h2 | h2
    · exact (h12.owned a h2).imp_left .inl
    · exact .inl (.inr h2)

/-- Allocating a cell. -/
theorem moves_push (h : Heap α) (x : α) (S : Finset ℕ) :
    Moves h (h.push x) S (insert h.next S) := by
  refine ⟨by simp, fun a _ hna => ?_, fun a ha hna => absurd (Finset.mem_insert_of_mem ha) hna,
    fun a ha => ?_⟩
  · rw [Finset.mem_insert, not_or] at hna
    exact lookup_push_ne hna.1 x
  · exact (Finset.mem_insert.mp ha).symm.imp_right fun heq => heq.ge

/-- Writing an owned cell. -/
theorem moves_put {S : Finset ℕ} (ha : a ∈ S) (y : α) : Moves h₁ (h₁.put a (some y)) S S :=
  ⟨by simp, fun _ hb _ => lookup_put_ne (ne_of_mem_of_not_mem ha hb).symm _, fun _ hb hnb =>
    absurd hb hnb, fun _ hb => .inl hb⟩

/-- Freeing an owned cell. -/
theorem moves_free {S : Finset ℕ} (hx : h₁.lookup a = some x) (ha : a ∈ S) :
    Moves h₁ (h₁.put a none) S (S.erase a) := by
  refine ⟨by simp, fun b hb _ => lookup_put_ne (ne_of_mem_of_not_mem ha hb).symm _,
    fun b hb hnb => ?_, fun b hb => .inl (Finset.mem_of_mem_erase hb)⟩
  obtain rfl : b = a := by
    by_contra hne
    exact hnb (Finset.mem_erase.mpr ⟨hne, hb⟩)
  exact lookup_put_self hx none

/-! ### Owners that share a heap

`Rep h p x S` says that in the heap `h`, what `p` points to stands for `x` and is made of the cells
in `S`. -/

section Shared

variable {ι P X : Type*} (Rep : Heap α → P → X → Finset ℕ → Prop)

/-- Every owner has the cells that stand for its value, no cell has two owners, and there are no
other cells. -/
structure Shared (h : Heap α) (p : ι → P) (x : ι → X) (own : ι → Finset ℕ) : Prop where
  /-- What everyone owns stands for their value. -/
  stands : ∀ i, Rep h (p i) (x i) (own i)
  /-- Nothing has two owners. -/
  disjoint : ∀ i j, i ≠ j → Disjoint (own i) (own j)
  /-- Every cell has an owner. -/
  owned : ∀ a y, h.lookup a = some y → ∃ i, a ∈ own i

variable {Rep} {h h' : Heap α} {p : ι → P} {x : ι → X} {own : ι → Finset ℕ}

/-- What nobody owns has been freed. -/
theorem Shared.lookup_eq_none (hs : Shared Rep h p x own) {a : ℕ} (hown : ∀ i, a ∉ own i) :
    h.lookup a = none := by
  by_contra hne
  obtain ⟨y, hy⟩ := Option.ne_none_iff_exists'.mp hne
  obtain ⟨i, hi⟩ := hs.owned a y hy
  exact hown i hi

variable [DecidableEq ι]
  (hlive : ∀ {h : Heap α} {p : P} {x : X} {S : Finset ℕ} {a : ℕ}, Rep h p x S → a ∈ S → a < h.next)
  (hcongr : ∀ {h h' : Heap α} {p : P} {x : X} {S : Finset ℕ}, Rep h p x S →
    (∀ a ∈ S, h'.lookup a = h.lookup a) → Rep h' p x S)
include hlive hcongr

/-- One of the owners does something. -/
theorem Shared.step (hs : Shared Rep h p x own) {i : ι} {p' : P} {x' : X} {S' : Finset ℕ}
    (hmoves : Moves h h' (own i) S') (hrep : Rep h' p' x' S') :
    Shared Rep h' (Function.update p i p') (Function.update x i x') (Function.update own i S') := by
  have hothers : ∀ j, j ≠ i → (∀ a ∈ own j, h'.lookup a = h.lookup a) ∧
      Disjoint S' (own j) := fun j hj =>
    hmoves.frame (fun a ha => hlive (hs.stands j) ha) (hs.disjoint i j hj.symm)
  refine ⟨fun j => ?_, fun j k hjk => ?_, fun a y hy => ?_⟩
  · by_cases hj : j = i
    · subst hj
      simpa using hrep
    · simpa [hj] using hcongr (hs.stands j) (hothers j hj).1
  · by_cases hj : j = i
    · subst hj
      simpa [hjk.symm] using (hothers k hjk.symm).2
    · by_cases hk : k = i
      · subst hk
        simpa [hj] using (hothers j hj).2.symm
      · simpa [hj, hk] using hs.disjoint j k hjk
  · by_cases hS' : a ∈ S'
    · exact ⟨i, by simpa using hS'⟩
    · have hnot : a ∉ own i := fun ha => by
        rw [hmoves.freed a ha hS'] at hy
        cases hy
      rw [hmoves.same a hnot hS'] at hy
      obtain ⟨j, hj⟩ := hs.owned a y hy
      have hji : j ≠ i := by
        rintro rfl
        exact hnot hj
      exact ⟨j, by simpa [hji] using hj⟩

end Shared

end Heaps

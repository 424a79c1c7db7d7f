import Mathlib.Data.List.Basic

/-!
# Runs

A machine is a step function on states, driven by a list of events. This module has the ways in
which a property of a step becomes one of a whole run: an invariant that every allowed step keeps, a
relation that is kept when two machines take the same step, or corresponding ones, or when one of
them takes a step more, and something that comes about because a good step is taken again and again.
-/

namespace Runs

variable {σ ε : Type*} (step : σ → ε → σ)

/-- The state after some events. -/
def run (s : σ) (es : List ε) : σ := es.foldl step s

/-- Every event of a run meets `P`, in the state it is met in. -/
def Along (P : σ → ε → Prop) : σ → List ε → Prop
  | _, [] => True
  | s, e :: es => P s e ∧ Along P (step s e) es

instance Along.decidable {P : σ → ε → Prop} [∀ s e, Decidable (P s e)] :
    ∀ s es, Decidable (Along step P s es)
  | _, [] => inferInstanceAs (Decidable True)
  | s, e :: es => @instDecidableAnd _ _ inferInstance (Along.decidable (step s e) es)

variable {step} {P : σ → ε → Prop} {s t : σ} {es : List ε}

@[simp] theorem run_nil : run step s [] = s := rfl

@[simp] theorem run_cons {e : ε} : run step s (e :: es) = run step (step s e) es := rfl

theorem run_append {es' : List ε} : run step s (es ++ es') = run step (run step s es) es' :=
  List.foldl_append

theorem along_append {es' : List ε} :
    Along step P s (es ++ es') ↔ Along step P s es ∧ Along step P (run step s es) es' := by
  induction es generalizing s with
  | nil => simp [Along]
  | cons e es ih => simp [Along, ih, and_assoc]

theorem along_of_forall (h : ∀ e ∈ es, ∀ s, P s e) : Along step P s es := by
  induction es generalizing s with
  | nil => trivial
  | cons e es ih =>
    exact ⟨h e (List.mem_cons_self ..) s, ih fun e' he' => h e' (List.mem_cons_of_mem _ he')⟩

/-- Two properties that agree wherever an invariant holds agree along a run. -/
theorem along_congr {Q : σ → ε → Prop} {Inv : σ → Prop}
    (hes : ∀ e ∈ es, ∀ s, Inv s → (P s e ↔ Q s e)) (hstep : ∀ s e, Inv s → Inv (step s e))
    (h : Inv s) : Along step P s es ↔ Along step Q s es := by
  induction es generalizing s with
  | nil => exact Iff.rfl
  | cons e es ih =>
    exact and_congr (hes e (List.mem_cons_self ..) s h)
      (ih (fun e' he' => hes e' (List.mem_cons_of_mem _ he')) (hstep s e h))

/-- What every allowed step keeps holds after every run of allowed steps. -/
theorem Along.invariant {Inv : σ → Prop} (hes : Along step P s es)
    (hstep : ∀ s e, P s e → Inv s → Inv (step s e)) (h : Inv s) : Inv (run step s es) := by
  induction es generalizing s with
  | nil => exact h
  | cons e es ih => exact ih hes.2 (hstep s e hes.1 h)

/-- What every step keeps holds after every run. -/
theorem invariant {Inv : σ → Prop} (hstep : ∀ s e, Inv s → Inv (step s e)) (h : Inv s)
    (es : List ε) :
    Inv (run step s es) := by
  induction es generalizing s with
  | nil => exact h
  | cons e es ih => exact ih (hstep s e h)

/-- Two machines that stay related step by step are related after every run. -/
theorem simulation {R : σ → σ → Prop} (hstep : ∀ s t e, R s t → R (step s e) (step t e)) (h : R s t)
    (es : List ε) :
    R (run step s es) (run step t es) := by
  induction es generalizing s t with
  | nil => exact h
  | cons e es ih => exact ih (hstep s t e h)

/-! ### Two runs, side by side

A machine is driven by some events, and once more, from another state, by their images. As long as
the states of the first run meet `Q`, the two stay related. -/

section

variable {R : σ → σ → Prop} {f : ε → ε} {Q : σ → Prop}
  (hstep : ∀ s t e, Q s → R s t → R (step s e) (step t (f e)))
include hstep

/-- The two are related in the end if `Q` has held before every event. -/
theorem simulation_map (hQ : ∀ pre e, pre ++ [e] <+: es → Q (run step s pre)) (h : R s t) :
    R (run step s es) (run step t (es.map f)) := by
  induction es generalizing s t with
  | nil => exact h
  | cons e es ih =>
    have hfirst : Q s := hQ [] e ⟨es, rfl⟩
    exact ih (fun pre e' hpre => hQ (e :: pre) e' (List.prefix_cons_inj e |>.mpr hpre))
      (hstep s t e hfirst h)

/-- If what is seen of two related states is the same exactly where `Q` holds, then the two runs
look the same at every point exactly if `Q` holds at every point. The induction is on how far the
runs have come. -/
theorem lockstep_iff {β : Type*} {obs : σ → β} (hobs : ∀ s t, R s t → (obs t = obs s ↔ Q s))
    (h : R s t) :
    (∀ pre, pre <+: es → obs (run step t (pre.map f)) = obs (run step s pre)) ↔ ∀ pre, pre <+: es →
      Q (run step s pre) := by
  constructor
  · intro hsame pre
    induction hn : pre.length using Nat.strongRecOn generalizing pre with
    | ind n ih =>
      intro hpre
      refine (hobs _ _ (simulation_map hstep (fun pre' e hpre' => ?_) h)).mp (hsame pre hpre)
      have hlen := hpre'.length_le
      rw [List.length_append, List.length_singleton] at hlen
      exact ih pre'.length (by omega) pre' rfl
        (((List.prefix_append pre' [e]).trans hpre').trans hpre)
  · intro hQ pre hpre
    refine (hobs _ _ (simulation_map hstep (fun pre' e hpre' => ?_) h)).mpr (hQ pre hpre)
    exact hQ pre' (((List.prefix_append pre' [e]).trans hpre').trans hpre)

end

/-! ### Endless runs -/

/-- A rule for what comes about in an endless run `x`: `W k` says that at most `k` steps of progress
are left. Every step reaches `Q`, makes progress, or leaves the run waiting in `R`, and does the
last in `R` only if it is not a good step; and a good step is taken again and again. Until `Q` is
reached, `W` holds. Once the run is waiting, it gets on at the next good step at the latest. -/
theorem leads_to {x : ℕ → σ} {good : ℕ → Prop} {W : ℕ → σ → Prop} {R Q : σ → Prop}
    (hfair : ∀ n, ∃ m, n ≤ m ∧ good m)
    (hstep : ∀ n k, W k (x n) → Q (x (n + 1)) ∨ (∃ j < k, W j (x (n + 1))) ∨ W k (x (n + 1)) ∧
      R (x (n + 1)) ∧ (R (x n) → ¬ good n))
    {k n : ℕ} (h : W k (x n)) :
    ∃ m, Q (x (n + m)) ∧ ∀ j < m, ∃ k, W k (x (n + j)) := by
  have hcons : ∀ {n k}, W k (x n) → (∃ m, Q (x (n + 1 + m)) ∧ ∀ j < m, ∃ k, W k (x (n + 1 + j))) →
      ∃ m, Q (x (n + m)) ∧ ∀ j < m, ∃ k, W k (x (n + j)) := by
    rintro n k h ⟨m, hQ, hW⟩
    refine ⟨m + 1, by rwa [Nat.add_comm m, ← Nat.add_assoc], fun j hj => ?_⟩
    cases j with
    | zero => exact ⟨k, h⟩
    | succ j =>
      rw [Nat.add_comm j, ← Nat.add_assoc]
      exact hW j (by omega)
  have hreached : ∀ {n}, Q (x n) → ∃ m, Q (x (n + m)) ∧ ∀ j < m, ∃ k, W k (x (n + j)) :=
    fun hQ => ⟨0, hQ, fun j hj => absurd hj (Nat.not_lt_zero j)⟩
  induction k using Nat.strongRecOn generalizing n with
  | ind k ih =>
    have hready : ∀ d n, W k (x n) → R (x n) → good (n + d) → ∃ m, Q (x (n + m)) ∧
        ∀ j < m, ∃ k, W k (x (n + j)) := by
      intro d
      induction d with
      | zero =>
        intro n h hR hgood
        rcases hstep n k h with hQ | ⟨j, hj, h'⟩ | ⟨-, -, hno⟩
        · exact hcons h (hreached hQ)
        · exact hcons h (ih j hj h')
        · exact absurd hgood (hno hR)
      | succ d ihd =>
        intro n h hR hgood
        rcases hstep n k h with hQ | ⟨j, hj, h'⟩ | ⟨h', hR', -⟩
        · exact hcons h (hreached hQ)
        · exact hcons h (ih j hj h')
        · exact hcons h (ihd (n + 1) h' hR' (by rwa [Nat.add_assoc, Nat.add_comm 1]))
    rcases hstep n k h with hQ | ⟨j, hj, h'⟩ | ⟨h', hR', -⟩
    · exact hcons h (hreached hQ)
    · exact hcons h (ih j hj h')
    · obtain ⟨m, hm, hgood⟩ := hfair (n + 1)
      exact hcons h (hready (m - (n + 1)) (n + 1) h' hR' (by rwa [Nat.add_sub_cancel' hm]))

/-! ### Events that make no difference -/

variable (step) in
/-- The second list of events is the first with others inserted, each of which meets `C` in the
state it is met in, with what is still to come of the first list. -/
inductive Inserted (C : σ → List ε → ε → Prop) : σ → List ε → List ε → Prop where
  /-- Nothing is left. -/
  | nil (s : σ) : Inserted C s [] []
  /-- The next event is one of the first list. -/
  | own {s : σ} {e : ε} {es es' : List ε} (h : Inserted C (step s e) es es') : Inserted C s
      (e :: es) (e :: es')
  /-- The next event is inserted. -/
  | extra {s : σ} {e : ε} {es es' : List ε} (he : C s es e) (h : Inserted C (step s e) es es') :
      Inserted C s es (e :: es')

/-- If the two runs stay related over each event they share, and over each that is inserted, then
they are related in the end. -/
theorem Inserted.unwind {C : σ → List ε → ε → Prop} {R : List ε → σ → σ → Prop} {es' : List ε}
    (h : Inserted step C s es es') (hown : ∀ t s e es, R (e :: es) t s → R es (step t e) (step s e))
    (hextra : ∀ t s e es, C s es e → R es t s → R es t (step s e)) (hR : R es t s) :
    R [] (run step t es) (run step s es') := by
  induction h generalizing t with
  | nil s => exact hR
  | own _ ih => exact ih (hown _ _ _ _ hR)
  | extra he _ ih => exact ih (hextra _ _ _ _ he hR)

end Runs

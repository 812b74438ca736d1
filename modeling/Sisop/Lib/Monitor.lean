import Sisop.Lib.Reach

/-!
# Runs with a record

`monitored` runs a transition system and keeps a record of the run beside each
state.  A step updates the record from what an observer sees of it: the state
before, the event and the state after.  The record decides nothing, so the runs
of the system are the runs of the monitored system without their records.
-/

namespace TransitionSystem

variable {σ ε γ : Type}

/-- The system with a record of its run, which starts as `start`. -/
def monitored (S : TransitionSystem σ ε) (start : γ) (observe : σ → ε → σ → γ → γ) :
    TransitionSystem (σ × γ) ε where
  init x := S.init x.1 ∧ x.2 = start
  step x e y := S.step x.1 e y.1 ∧ y.2 = observe x.1 e y.1 x.2

variable {S : TransitionSystem σ ε} {start : γ} {observe : σ → ε → σ → γ → γ}
  {guard : σ → ε → Prop}

/-- Every run has a record. -/
theorem Reach.monitor {s : σ} (h : Reach S guard s) :
    ∃ r, Reach (S.monitored start observe) (fun x e => guard x.1 e) (s, r) := by
  induction h with
  | init h => exact ⟨start, .init ⟨h, rfl⟩⟩
  | @step s s' e run ok h ih =>
    obtain ⟨r, hr⟩ := ih
    exact ⟨observe s e s' r, .step hr ok ⟨h, rfl⟩⟩

end TransitionSystem

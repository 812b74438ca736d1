import Mathlib.Tactic.Common

/-!
# Loops that test at the end

`do body while (cond)` on a state.  A run is finite, and there is at most one; it
exists when a measure falls with every pass that is followed by another.
-/

namespace DoWhile

variable {σ : Type*}

/-- The loop from `s` ends in `t`. -/
inductive Ends (body : σ → σ) (cond : σ → Prop) : σ → σ → Prop
  | stop {s : σ} (h : ¬ cond (body s)) : Ends body cond s (body s)
  | again {s t : σ} (h : cond (body s)) (ht : Ends body cond (body s) t) : Ends body cond s t

variable {body : σ → σ} {cond : σ → Prop} {s t t' : σ}

theorem Ends.unique (h : Ends body cond s t) (h' : Ends body cond s t') : t = t' := by
  induction h with
  | stop hs =>
      cases h' with
      | stop _ => rfl
      | again ha _ => exact absurd ha hs
  | again ha _ ih =>
      cases h' with
      | stop hs => exact absurd ha hs
      | again _ ht' => exact ih ht'

/-- What holds after the first pass and is kept by the others holds at the end. -/
theorem Ends.invariant {P : σ → Prop} (h : Ends body cond s t) (hfirst : P (body s))
    (hstep : ∀ u, P u → cond u → P (body u)) : P t := by
  induction h with
  | stop _ => exact hfirst
  | again ha _ ih => exact ih (hstep _ hfirst ha)

/-- The loop ends, with what every pass establishes, when a measure falls with every
pass that another one follows. -/
theorem exists_ends (I Q : σ → Prop) (μ : σ → Nat) (hstop : ∀ u, I u → ¬ cond (body u) → Q (body u))
    (hagain : ∀ u, I u → cond (body u) → I (body u) ∧ μ (body u) < μ u) (hs : I s) :
    ∃ t, Ends body cond s t ∧ Q t := by
  induction hn : μ s using Nat.strongRecOn generalizing s with
  | ind n ih =>
      by_cases hc : cond (body s)
      · obtain ⟨hi, hlt⟩ := hagain s hs hc
        obtain ⟨t, ht, hq⟩ := ih (μ (body s)) (hn ▸ hlt) hi rfl
        exact ⟨t, .again hc ht, hq⟩
      · exact ⟨body s, .stop hc, hstop s hs hc⟩

end DoWhile

import Sisop.Lib.Rotation
import Sisop.Jos.Entry

/-!
# What the scheduler selects

`sched_yield` makes one turn around `envs`, from the slot after the current
environment's, and takes the first environment that its build lets it take.  It
counts its calls in `number_of_yields` and its selections in `number_of_switches`,
and with priorities the boosts in `number_of_boosts`, so a step shows in the
counters what the scheduler did in it.
-/

namespace Sisop
namespace Jos

/-- The state `sched_yield` searches, after a boost if one is due. -/
def searched (M : Machine) (s : KState) : KState := schedBoost M (countYield s)

/-- The result of the search of `sched_yield`. -/
def selection (M : Machine) (s : KState) (c : Nat) : Option Nat :=
  Rotation.scan (schedulable M (searched M s)) nenv (schedStart s c) nenv (schedStart s c)

/-- How `sched_yield` leaves the kernel: with the environment it selects, or with
the current one or none when it selects none. -/
inductive Chosen (M : Machine) (c : Nat) (s s' : KState) : Prop
  | next {e d : Nat} (hsel : selection M s c = some e)
      (hr : Ran (countSwitch (schedAge M (searched M s) c)) c e d s')
  | keep {cur d : Nat} (hsel : selection M s c = none) (hc : s.curenv c = some cur)
      (hr : Ran (searched M s) c cur d s')
  | halt (hsel : selection M s c = none) (hh : Halted M (searched M s) c s')

section

variable {M : Machine} {s s' : KState} {c e : Nat} {fault : Prop}

theorem schedScan_eq (M : Machine) (s : KState) (start fuel i : Nat) :
    schedScan M s start fuel i = Rotation.scan (schedulable M s) nenv start fuel i := by
  induction fuel generalizing i with
  | zero => rfl
  | succ fuel ih =>
      rw [schedScan, Rotation.scan, ih]

theorem searched_tweaked (M : Machine) (s : KState) : Tweaked s (searched M s) :=
  (Tweaked.setStats s _).trans (schedBoost_tweaked (countYield s))

theorem switched_tweaked (M : Machine) (s : KState) (c : Nat) :
    Tweaked s (countSwitch (schedAge M (searched M s) c)) :=
  (searched_tweaked M s).trans ((schedAge_tweaked _ c).trans (Tweaked.setStats _ _))

theorem Tweaked.schedStart (h : Tweaked s s') (c : Nat) : schedStart s' c = schedStart s c := by
  unfold Jos.schedStart
  rw [h.curenv]
  cases s.curenv c with
  | none => rfl
  | some cur =>
      dsimp only
      rw [h.envId]

/-- What `sched_yield` does, by what it selects. -/
theorem schedYield_eq (M : Machine) (s : KState) (c : Nat) (hstart : schedStart s c < nenv) :
    schedYield M s c =
      match selection M s c with
      | some next => envRun (countSwitch (schedAge M (searched M s) c)) c next
      | none =>
          match s.curenv c with
          | some cur =>
              if (s.envs cur).envStatus = .running ∧ (s.envs cur).envCpunum = c then
                envRun (searched M s) c cur
              else schedHalt M (searched M s) c
          | none => schedHalt M (searched M s) c := by
  have ht := searched_tweaked M s
  have hlow : ¬ nenv ≤ Jos.schedStart (searched M s) c := by
    rw [ht.schedStart]
    exact Nat.not_le.mpr hstart
  have hs : schedBoost M (countYield s) = searched M s := rfl
  unfold schedYield
  dsimp only
  rw [hs, if_neg hlow, schedScan_eq, ht.schedStart, ← selection, ht.curenv]
  cases selection M s c with
  | some next => rfl
  | none =>
      cases s.curenv c with
      | none => rfl
      | some cur =>
          dsimp only
          rw [ht.status, ht.envCpunum]

theorem schedYield_over (M : Machine) (s : KState) (c : Nat) (hstart : nenv ≤ schedStart s c) :
    ∃ why, schedYield M s c = .undefined why := by
  have hover : nenv ≤ Jos.schedStart (searched M s) c := by
    rw [(searched_tweaked M s).schedStart]
    exact hstart
  unfold schedYield
  exact ⟨_, if_pos hover⟩

theorem chosen_of_yield (h : schedYield M s c = .left s') :
    schedStart s c < nenv ∧ Chosen M c s s' := by
  have hstart : schedStart s c < nenv := by
    by_contra hover
    obtain ⟨why, hun⟩ := schedYield_over M s c (Nat.not_lt.mp hover)
    rw [hun] at h
    cases h
  refine ⟨hstart, ?_⟩
  rw [schedYield_eq M s c hstart] at h
  have hhalt : selection M s c = none → schedHalt M (searched M s) c = .left s' →
      Chosen M c s s' := by
    intro hsel hleft
    rcases schedHalt_cases (M := M) (searched M s) c with hmon | ⟨s₁, hl, hh⟩
    · rw [hmon] at hleft
      cases hleft
    · rw [hl] at hleft
      cases hleft
      exact .halt hsel hh
  cases hsel : selection M s c with
  | some next =>
      rw [hsel] at h
      obtain ⟨d, hr⟩ := envRun_ran h
      exact .next hsel hr
  | none =>
      rw [hsel] at h
      cases hc : s.curenv c with
      | none =>
          rw [hc] at h
          exact hhalt hsel h
      | some cur =>
          rw [hc] at h
          dsimp only at h
          split at h
          · obtain ⟨d, hr⟩ := envRun_ran h
            exact .keep hsel hc hr
          · exact hhalt hsel h

/-- The environment selected is the first one of the rotation that the build lets
the scheduler take. -/
theorem selection_some (hstart : schedStart s c < nenv) (h : selection M s c = some e) :
    e < nenv ∧ schedulable M (searched M s) e = true ∧
      ∀ x, x < nenv → schedulable M (searched M s) x = true →
        Rotation.ahead nenv (schedStart s c) e ≤ Rotation.ahead nenv (schedStart s c) x :=
  Rotation.turn_found hstart h

theorem selection_none (hstart : schedStart s c < nenv) (h : selection M s c = none) {x : Nat}
    (hx : x < nenv) : schedulable M (searched M s) x = false :=
  Rotation.turn_none hstart h hx

/-! ## The counters -/

theorem yields_searched (M : Machine) (s : KState) :
    (searched M s).stats.numberOfYields = s.stats.numberOfYields + 1#32 ∧
      (searched M s).stats.numberOfSwitches = s.stats.numberOfSwitches := by
  unfold searched schedBoost
  cases M.build with
  | roundRobin => exact ⟨rfl, rfl⟩
  | priorities =>
      dsimp only
      split <;> exact ⟨rfl, rfl⟩

theorem stats_schedAge (M : Machine) (s : KState) (c : Nat) : (schedAge M s c).stats = s.stats := by
  unfold schedAge
  split
  · rfl
  · rfl
  · split <;> rfl

/-- Every call of the scheduler is counted. -/
theorem Chosen.yields (h : Chosen M c s s') :
    s'.stats.numberOfYields = s.stats.numberOfYields + 1#32 := by
  obtain ⟨hy, _⟩ := yields_searched M s
  cases h with
  | next _ hr =>
      rw [hr.stats]
      show (schedAge M (searched M s) c).stats.numberOfYields = _
      rw [stats_schedAge, hy]
  | keep _ _ hr => rw [hr.stats, hy]
  | halt _ hh => rw [hh.stats, hy]

/-- Every selection is counted, and nothing else. -/
theorem Chosen.switches (h : Chosen M c s s') : s'.stats.numberOfSwitches =
    if selection M s c = none then s.stats.numberOfSwitches
    else s.stats.numberOfSwitches + 1#32 := by
  obtain ⟨_, hsw⟩ := yields_searched M s
  cases h with
  | next hsel hr =>
      rw [if_neg (by rw [hsel]; exact Option.some_ne_none _), hr.stats]
      show (schedAge M (searched M s) c).stats.numberOfSwitches + 1#32 = _
      rw [stats_schedAge, hsw]
  | keep hsel _ hr => rw [if_pos hsel, hr.stats, hsw]
  | halt hsel hh => rw [if_pos hsel, hh.stats, hsw]

theorem Leaves.chosen (h : Leaves M c fault s s')
    (hy : s'.stats.numberOfYields ≠ s.stats.numberOfYields) :
    schedStart s c < nenv ∧ Chosen M c s s' := by
  cases h with
  | back _ _ h =>
      obtain ⟨d, hr⟩ := envRun_ran h
      exact absurd (by rw [hr.stats]) hy
  | yield h => exact chosen_of_yield h

end

end Jos
end Sisop

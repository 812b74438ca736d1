import Sisop.Jos.Kernel

/-!
# How a CPU leaves the kernel

Inversion lemmas for `env_run` and `sched_yield`: everything they can do to the
environment table and the CPUs.  The invariants of the table are proved from
these and never unfold the scheduler.
-/

namespace Sisop
namespace Jos

/-- What `env_run` leaves: `e` runs on `c` with its directory `d`, and the
environment that ran there before, if it was still running, is runnable. -/
structure Ran (s : KState) (c e d : Nat) (s' : KState) : Prop where
  pm : s'.pm = s.pm
  stats : s'.stats = s.stats
  envFreeList : s'.envFreeList = s.envFreeList
  cpus : ∀ c', s'.cpus c' =
    if c' = c then { s.cpus c with cpuEnv := some e, cr3 := d } else s.cpus c'
  self : s'.envs e =
    { s.envs e with
      envRuns := (s.envs e).envRuns + 1#32
      envStatus := .running
      envCpunum := c }
  other : ∀ x, x ≠ e → s'.envs x =
    if s.curenv c = some x ∧ (s.envs x).envStatus = .running then
      { s.envs x with envStatus := .runnable }
    else s.envs x

/-- Nothing changed but priorities and statistics. -/
structure Tweaked (s s' : KState) : Prop where
  pm : s'.pm = s.pm
  envFreeList : s'.envFreeList = s.envFreeList
  cpus : s'.cpus = s.cpus
  envs : ∀ x, ∃ p, s'.envs x = { s.envs x with envPriority := p }

/-- What `sched_halt` leaves. -/
structure Halted (M : Machine) (s : KState) (c : Nat) (s' : KState) : Prop where
  pm : s'.pm = s.pm
  stats : s'.stats = s.stats
  envFreeList : s'.envFreeList = s.envFreeList
  cpus : ∀ c', s'.cpus c' =
    if c' = c then { cpuStatus := .halted, cpuEnv := none, cr3 := M.kernPgdir } else s.cpus c'
  envs : s'.envs = s.envs

section

variable {M : Machine} {s s' : KState} {c e : Nat}

theorem preempt_envs (s : KState) (c x : Nat) : (preempt s c).envs x =
    if s.curenv c = some x ∧ (s.envs x).envStatus = .running then
      { s.envs x with envStatus := .runnable }
    else s.envs x := by
  unfold preempt
  cases hc : s.curenv c with
  | none => simp
  | some old =>
      by_cases hr : (s.envs old).envStatus = .running
      · by_cases hx : x = old
        · subst hx
          simp [hr, KState.setStatus]
        · have hne : ¬ old = x := fun h => hx h.symm
          simp [hr, KState.setStatus, KState.envs_setEnv, hx, hne]
      · by_cases hx : x = old
        · subst hx
          simp [hr]
        · have hne : ¬ old = x := fun h => hx h.symm
          simp [hr, hne]

theorem preempt_frame (s : KState) (c : Nat) : (preempt s c).pm = s.pm ∧
    (preempt s c).stats = s.stats ∧ (preempt s c).envFreeList = s.envFreeList ∧
    (preempt s c).cpus = s.cpus := by
  unfold preempt
  split
  · split <;> exact ⟨rfl, rfl, rfl, rfl⟩
  · exact ⟨rfl, rfl, rfl, rfl⟩

theorem preempt_envPgdir (s : KState) (c x : Nat) :
    ((preempt s c).envs x).envPgdir = (s.envs x).envPgdir := by
  rw [preempt_envs]
  split <;> rfl

theorem Ran.dirs {d : Nat} (h : Ran s c e d s') : s'.dirs = s.dirs := by
  funext x
  by_cases hx : x = e
  · rw [KState.dirs, hx, h.self, KState.dirs]
  · rw [KState.dirs, h.other x hx, KState.dirs]
    split <;> rfl

theorem envRun_left {d : Nat} (hd : (s.envs e).envPgdir = some d) :
    ∃ s', envRun s c e = .left s' ∧ Ran s c e d s' := by
  obtain ⟨hpm, hstats, hlist, hcpus⟩ := preempt_frame s c
  have hself : ((preempt s c).envs e).envPgdir = some d := (preempt_envPgdir s c e).trans hd
  unfold envRun
  simp only [KState.envs_setEnv_self, KState.envs_setCurenv, hself]
  refine ⟨_, rfl, hpm, hstats, hlist, fun c' => ?_, ?_, fun x hx => ?_⟩
  · simp only [KState.cpus_setEnv, KState.lcr3, KState.cpus_setCpu, KState.setCurenv, hcpus]
    by_cases hc : c' = c
    · simp [hc]
    · simp [hc]
  · simp only [KState.envs_setEnv_self, KState.envs_lcr3, KState.envs_setCurenv, preempt_envs]
    split <;> rfl
  · rw [KState.envs_setEnv_of_ne _ _ _ _ hx, KState.envs_lcr3, KState.envs_setEnv_of_ne _ _ _ _ hx,
      KState.envs_setCurenv, preempt_envs]

theorem envRun_panic (hd : (s.envs e).envPgdir = none) : ∃ msg, envRun s c e = .panic msg := by
  have hself : ((preempt s c).envs e).envPgdir = none := (preempt_envPgdir s c e).trans hd
  unfold envRun
  simp only [KState.envs_setEnv_self, KState.envs_setCurenv, hself]
  exact ⟨_, rfl⟩

namespace Tweaked

theorem refl (s : KState) : Tweaked s s :=
  ⟨rfl, rfl, rfl, fun x => ⟨(s.envs x).envPriority, rfl⟩⟩

theorem setStats (s : KState) (stats : SchedStats) : Tweaked s { s with stats := stats } :=
  ⟨rfl, rfl, rfl, fun x => ⟨(s.envs x).envPriority, rfl⟩⟩

theorem trans {s₁ s₂ : KState} (h : Tweaked s s₁) (h' : Tweaked s₁ s₂) : Tweaked s s₂ := by
  refine ⟨h'.pm.trans h.pm, h'.envFreeList.trans h.envFreeList, h'.cpus.trans h.cpus,
    fun x => ?_⟩
  obtain ⟨p, hp⟩ := h.envs x
  obtain ⟨p', hp'⟩ := h'.envs x
  exact ⟨p', by rw [hp', hp]⟩

theorem status (h : Tweaked s s') (x : Nat) : (s'.envs x).envStatus = (s.envs x).envStatus := by
  obtain ⟨p, hp⟩ := h.envs x
  rw [hp]

theorem envPgdir (h : Tweaked s s') (x : Nat) : (s'.envs x).envPgdir = (s.envs x).envPgdir := by
  obtain ⟨p, hp⟩ := h.envs x
  rw [hp]

theorem envId (h : Tweaked s s') (x : Nat) : (s'.envs x).envId = (s.envs x).envId := by
  obtain ⟨p, hp⟩ := h.envs x
  rw [hp]

theorem envCpunum (h : Tweaked s s') (x : Nat) : (s'.envs x).envCpunum = (s.envs x).envCpunum := by
  obtain ⟨p, hp⟩ := h.envs x
  rw [hp]

theorem curenv (h : Tweaked s s') (c : Nat) : s'.curenv c = s.curenv c := by
  rw [KState.curenv, h.cpus]
  rfl

end Tweaked

theorem schedBoost_tweaked (s : KState) : Tweaked s (schedBoost M s) := by
  unfold schedBoost
  cases M.build with
  | roundRobin => exact Tweaked.refl s
  | priorities =>
      dsimp only
      split
      · refine ⟨rfl, rfl, rfl, fun x => ?_⟩
        by_cases hx : x < nenv ∧ (s.envs x).envStatus = .runnable
        · exact ⟨0, if_pos hx⟩
        · exact ⟨(s.envs x).envPriority, if_neg hx⟩
      · exact Tweaked.refl s

theorem schedAge_tweaked (s : KState) (c : Nat) : Tweaked s (schedAge M s c) := by
  unfold schedAge
  cases M.build with
  | roundRobin => exact Tweaked.refl s
  | priorities =>
      cases s.curenv c with
      | none => exact Tweaked.refl s
      | some cur =>
          dsimp only
          split
          · refine ⟨rfl, rfl, rfl, fun x => ?_⟩
            rw [KState.envs_setEnv]
            by_cases hx : x = cur
            · rw [if_pos hx, hx]
              exact ⟨_, rfl⟩
            · rw [if_neg hx]
              exact ⟨(s.envs x).envPriority, rfl⟩
          · exact Tweaked.refl s

theorem schedulable_runnable {i : Nat} (h : schedulable M s i = true) :
    (s.envs i).envStatus = .runnable := by
  unfold schedulable at h
  cases hb : M.build with
  | roundRobin => simpa [hb] using h
  | priorities =>
      simp only [hb, decide_eq_true_eq] at h
      exact h.1

/-- The search finds runnable environments of the table. -/
theorem schedScan_some {start fuel i j : Nat} (hi : i < nenv)
    (h : schedScan M s start fuel i = some j) : j < nenv ∧ (s.envs j).envStatus = .runnable := by
  induction fuel generalizing i with
  | zero => cases h
  | succ fuel ih =>
      unfold schedScan at h
      split at h
      · rename_i hs
        cases h
        exact ⟨hi, schedulable_runnable hs⟩
      · split at h
        · cases h
        · exact ih (Nat.mod_lt _ (by decide)) h

theorem schedHalt_cases (s : KState) (c : Nat) :
    schedHalt M s c = .monitor ∨ ∃ s', schedHalt M s c = .left s' ∧ Halted M s c s' := by
  unfold schedHalt
  split
  · refine .inr ⟨_, rfl, rfl, rfl, rfl, fun c' => ?_, rfl⟩
    simp only [KState.cpus_setCpu, KState.lcr3, KState.setCurenv]
    by_cases hc : c' = c
    · simp [hc]
    · simp [hc]
  · exact .inl rfl

/-- Everything `sched_yield` can do: overrun `envs`, enter the monitor, run a
runnable environment, go on with the current one, or halt.  It halts only when
the current environment is not its own to go on with. -/
theorem schedYield_cases (s : KState) (c : Nat) :
    (∃ why cur, schedYield M s c = .undefined why ∧ s.curenv c = some cur ∧
      nenv ≤ envx (s.envs cur).envId + 1) ∨
    schedYield M s c = .monitor ∨
    ∃ s₁, Tweaked s s₁ ∧
      ((∃ next, next < nenv ∧ (s.envs next).envStatus = .runnable ∧
          schedYield M s c = envRun s₁ c next) ∨
        (∃ cur, s.curenv c = some cur ∧ (s.envs cur).envStatus = .running ∧
          schedYield M s c = envRun s₁ c cur) ∨
        ((∀ cur, s.curenv c = some cur → (s.envs cur).envStatus = .running →
            (s.envs cur).envCpunum ≠ c) ∧
          ∃ s', schedYield M s c = .left s' ∧ Halted M s₁ c s')) := by
  have hs₂ : Tweaked s (schedBoost M (countYield s)) :=
    (Tweaked.setStats s _).trans (schedBoost_tweaked (countYield s))
  unfold schedYield
  generalize schedBoost M (countYield s) = s₂ at hs₂
  dsimp only
  by_cases hover : nenv ≤ schedStart s₂ c
  · left
    rw [if_pos hover]
    unfold schedStart at hover
    cases hc : s₂.curenv c with
    | none =>
        rw [hc] at hover
        exact absurd (show nenv ≤ 0 from hover) (by decide)
    | some cur =>
        rw [hc] at hover
        refine ⟨_, cur, rfl, (hs₂.curenv c).symm.trans hc, ?_⟩
        rw [← hs₂.envId]
        exact hover
  · right
    rw [if_neg hover]
    cases hscan : schedScan M s₂ (schedStart s₂ c) nenv (schedStart s₂ c) with
    | some next =>
        obtain ⟨hlt, hrun⟩ := schedScan_some (Nat.lt_of_not_le hover) hscan
        rw [hs₂.status] at hrun
        refine .inr ⟨_, ?_, .inl ⟨next, hlt, hrun, rfl⟩⟩
        exact hs₂.trans ((schedAge_tweaked s₂ c).trans (Tweaked.setStats _ _))
    | none =>
        have hhalt : (∀ cur, s.curenv c = some cur → (s.envs cur).envStatus = .running →
            (s.envs cur).envCpunum ≠ c) →
            schedHalt M s₂ c = .monitor ∨ ∃ s₁, Tweaked s s₁ ∧
              ((∃ next, next < nenv ∧ (s.envs next).envStatus = .runnable ∧
                  schedHalt M s₂ c = envRun s₁ c next) ∨
                (∃ cur, s.curenv c = some cur ∧ (s.envs cur).envStatus = .running ∧
                  schedHalt M s₂ c = envRun s₁ c cur) ∨
                ((∀ cur, s.curenv c = some cur → (s.envs cur).envStatus = .running →
                    (s.envs cur).envCpunum ≠ c) ∧
                  ∃ s', schedHalt M s₂ c = .left s' ∧ Halted M s₁ c s')) := by
          intro hno
          rcases schedHalt_cases (M := M) s₂ c with hmon | hleft
          · exact .inl hmon
          · exact .inr ⟨s₂, hs₂, .inr (.inr ⟨hno, hleft⟩)⟩
        cases hc : s₂.curenv c with
        | none =>
            refine hhalt fun cur hcur => ?_
            rw [← hs₂.curenv, hc] at hcur
            cases hcur
        | some cur =>
            have hcur : s.curenv c = some cur := (hs₂.curenv c).symm.trans hc
            dsimp only
            split
            · rename_i hrun
              rw [hs₂.status] at hrun
              exact .inr ⟨s₂, hs₂, .inr (.inl ⟨cur, hcur, hrun.1, rfl⟩)⟩
            · rename_i hrun
              rw [hs₂.status, hs₂.envCpunum] at hrun
              refine hhalt fun cur' hcur' hst hcpu => hrun ?_
              rw [hcur] at hcur'
              cases hcur'
              exact ⟨hst, hcpu⟩

/-- A system call that returns leaves its result in the saved `eax`. -/
theorem trap_syscall {cur : Nat} {tf : Trapframe} {inp : Inputs} (hc : s.curenv c = some cur)
    (hst : (s.envs cur).envStatus ≠ .dying) (hno : tf.trapno = tSyscall) :
    trap M s c tf inp = endOf (syscall M (trapState s c cur tf) c cur tf.regs inp >>= fun x =>
      pure (trapReturn M (setEax x.2 cur x.1) c)) := by
  have hcur : (cpuStarted s c).curenv c = some cur := by
    rw [KState.curenv, cpuStarted, KState.cpus_setCpu, if_pos rfl]
    exact hc
  have hst' : ¬ ((cpuStarted s c).envs cur).envStatus = .dying := hst
  have hdispatch : trapDispatch M (saveTf (cpuStarted s c) cur tf) c cur tf inp =
      syscall M (trapState s c cur tf) c cur tf.regs inp >>= fun x =>
        pure (setEax x.2 cur x.1) := by
    unfold trapDispatch
    rw [hno, if_neg (by decide), if_neg (by decide), if_pos rfl]
    rfl
  unfold trap
  simp only [hcur, if_neg hst', hdispatch]
  cases syscall M (trapState s c cur tf) c cur tf.regs inp with
  | error stop => rfl
  | ok x => rfl

/-- A system call that returns while its caller is still running goes back to the
caller. -/
theorem trap_call {cur d : Nat} {tf : Trapframe} {inp : Inputs} {r : Int} {s₁ : KState}
    (hc : s.curenv c = some cur) (hst : (s.envs cur).envStatus ≠ .dying)
    (hno : tf.trapno = tSyscall)
    (hcall : syscall M (trapState s c cur tf) c cur tf.regs inp = .ok (r, s₁))
    (hc₁ : s₁.curenv c = some cur) (hst₁ : (s₁.envs cur).envStatus = .running)
    (hd : (s₁.envs cur).envPgdir = some d) :
    ∃ s', trap M s c tf inp = .left s' ∧ Ran (setEax s₁ cur r) c cur d s' := by
  have hrun : ((setEax s₁ cur r).envs cur).envStatus = .running := by
    rw [setEax, KState.envs_setEnv_self]
    exact hst₁
  have hdir : ((setEax s₁ cur r).envs cur).envPgdir = some d := by
    rw [setEax, KState.envs_setEnv_self]
    exact hd
  obtain ⟨s', hleft, hran⟩ := envRun_left (c := c) hdir
  refine ⟨s', ?_, hran⟩
  rw [trap_syscall hc hst hno, hcall]
  show trapReturn M (setEax s₁ cur r) c = .left s'
  unfold trapReturn
  rw [show (setEax s₁ cur r).curenv c = some cur from hc₁]
  simp only [hrun, if_true]
  exact hleft

end

end Jos
end Sisop

import Sisop.Jos.Entry
import Sisop.Jos.Run

/-!
# One CPU for each environment

`cpu_env` of a CPU is the environment it runs.  Nothing in the kernel looks at
the other CPUs: what keeps an environment on one CPU is its status, which is
never runnable while a CPU has it.

The law breaks when a status is written on behalf of another environment, by
`sys_env_set_status` or by the end of a send, while the target runs elsewhere,
and when an environment is freed under a CPU that runs it and its slot taken
again.  `HandsOff` is the condition that this does not happen.
-/

namespace Sisop
namespace Jos

open TransitionSystem

/-- No step makes an environment runnable that another CPU has, or destroys one,
unless to mark it as dying while it is running. -/
def HandsOff (M : Machine) (s : KState) : Event → Prop
  | .trap c tf _ => ∀ cur, s.curenv c = some cur → (s.envs cur).envStatus ≠ .dying →
      (∀ e, setsStatus (trapState s c cur tf) cur tf = some (e, .runnable) → ¬ elsewhere s c e) ∧
      (∀ e, sendsTo (trapState s c cur tf) cur tf = some e → ¬ elsewhere s c e) ∧
      ∀ e, destroys M (trapState s c cur tf) cur tf = some e → (s.envs e).envStatus ≠ .running →
        ¬ elsewhere s c e
  | _ => True

/-- No environment is on two CPUs, and none on a CPU is runnable, so the search
of `sched_yield` finds none of them. -/
structure Solo (M : Machine) (s : KState) : Prop where
  one_cpu : ∀ c c' e, s.curenv c = some e → s.curenv c' = some e → c = c'
  not_runnable : ∀ c e, s.curenv c = some e → (s.envs e).envStatus ≠ .runnable
  unselected : ∀ c start fuel i e, i < nenv → schedScan M s start fuel i = some e →
    s.curenv c ≠ some e

/-- The invariant behind `Solo`, while CPU `c` is in the kernel.  The other CPUs
are in user mode or halted. -/
structure SoloOn (c : Nat) (s : KState) : Prop where
  one_cpu : ∀ c₁ c₂ e, s.curenv c₁ = some e → s.curenv c₂ = some e → c₁ = c₂
  others : ∀ c' e, c' ≠ c → s.curenv c' = some e →
    (s.envs e).envStatus ≠ .runnable ∧ (s.envs e).envStatus ≠ .free
  cpunum : ∀ c' e, s.curenv c' = some e → (s.envs e).envCpunum = c'
  owned : ∀ e, (s.envs e).envStatus = .running ∨ (s.envs e).envStatus = .dying →
    ∃ c', s.curenv c' = some e

/-- The same before CPU `c` reschedules. -/
structure SoloIn (c : Nat) (s : KState) : Prop extends SoloOn c s where
  self : ∀ e, s.curenv c = some e → (s.envs e).envStatus ≠ .dying ∧ (s.envs e).envStatus ≠ .free

/-- The invariant between kernel entries. -/
structure SoloInv (s : KState) : Prop where
  one_cpu : ∀ c₁ c₂ e, s.curenv c₁ = some e → s.curenv c₂ = some e → c₁ = c₂
  ready : ∀ c e, s.curenv c = some e →
    (s.envs e).envStatus ≠ .runnable ∧ (s.envs e).envStatus ≠ .free
  cpunum : ∀ c e, s.curenv c = some e → (s.envs e).envCpunum = c
  owned : ∀ e, (s.envs e).envStatus = .running ∨ (s.envs e).envStatus = .dying →
    ∃ c, s.curenv c = some e

section

variable {M : Machine} {K : Nat → Prop} {s s₁ s₂ s' : KState} {c cur e : Nat} {tf : Trapframe}
  {fault : Prop}

theorem SoloInv.on (h : SoloInv s) (c : Nat) : SoloOn c s :=
  ⟨h.one_cpu, fun c' e _ hc => h.ready c' e hc, h.cpunum, h.owned⟩

/-- The other CPUs do not have what CPU `c` has. -/
theorem SoloOn.not_elsewhere (h : SoloOn c s) (hc : s.curenv c = some e) : ¬ elsewhere s c e := by
  rintro ⟨c', hne, hc'⟩
  exact hne (h.one_cpu c' c e hc' hc)

theorem SoloOn.congr (h : SoloOn c s) (hcur : ∀ c', s'.curenv c' = s.curenv c')
    (hst : ∀ x, (s'.envs x).envStatus = (s.envs x).envStatus)
    (hnum : ∀ x, (s'.envs x).envCpunum = (s.envs x).envCpunum) : SoloOn c s' := by
  refine ⟨fun c₁ c₂ x h₁ h₂ => ?_, fun c' x hne hc => ?_, fun c' x hc => ?_, fun x hx => ?_⟩
  · rw [hcur] at h₁ h₂
    exact h.one_cpu c₁ c₂ x h₁ h₂
  · rw [hcur] at hc
    rw [hst]
    exact h.others c' x hne hc
  · rw [hcur] at hc
    rw [hnum]
    exact h.cpunum c' x hc
  · rw [hst] at hx
    obtain ⟨c', hc⟩ := h.owned x hx
    exact ⟨c', (hcur c').trans hc⟩

theorem SoloIn.congr (h : SoloIn c s) (hcur : ∀ c', s'.curenv c' = s.curenv c')
    (hst : ∀ x, (s'.envs x).envStatus = (s.envs x).envStatus)
    (hnum : ∀ x, (s'.envs x).envCpunum = (s.envs x).envCpunum) : SoloIn c s' := by
  refine ⟨h.toSoloOn.congr hcur hst hnum, fun x hc => ?_⟩
  rw [hcur] at hc
  rw [hst]
  exact h.self x hc

theorem SoloIn.quiet (h : SoloIn c s) (hq : Quiet cur s s') : SoloIn c s' :=
  h.congr hq.curenv hq.envStatus hq.envCpunum

/-- One environment gets another status. -/
theorem SoloIn.newStatus (h : SoloIn c s) (hcur : ∀ c', s'.curenv c' = s.curenv c')
    (hnum : ∀ x, (s'.envs x).envCpunum = (s.envs x).envCpunum)
    (hst : ∀ x, x ≠ e → (s'.envs x).envStatus = (s.envs x).envStatus)
    (hother : (s'.envs e).envStatus = .runnable ∨ (s'.envs e).envStatus = .free →
      ¬ elsewhere s c e)
    (hself : s.curenv c = some e →
      (s'.envs e).envStatus ≠ .dying ∧ (s'.envs e).envStatus ≠ .free)
    (howned : (s'.envs e).envStatus = .running ∨ (s'.envs e).envStatus = .dying →
      (s.envs e).envStatus = .running) : SoloIn c s' := by
  refine ⟨⟨fun c₁ c₂ x h₁ h₂ => ?_, fun c' x hne hc => ?_, fun c' x hc => ?_, fun x hx => ?_⟩,
    fun x hc => ?_⟩
  · rw [hcur] at h₁ h₂
    exact h.one_cpu c₁ c₂ x h₁ h₂
  · rw [hcur] at hc
    by_cases hx : x = e
    · subst hx
      exact ⟨fun hr => hother (.inl hr) ⟨c', hne, hc⟩, fun hf => hother (.inr hf) ⟨c', hne, hc⟩⟩
    · rw [hst x hx]
      exact h.others c' x hne hc
  · rw [hcur] at hc
    rw [hnum]
    exact h.cpunum c' x hc
  · by_cases hxe : x = e
    · subst hxe
      obtain ⟨c', hc⟩ := h.owned x (.inl (howned hx))
      exact ⟨c', (hcur c').trans hc⟩
    · rw [hst x hxe] at hx
      obtain ⟨c', hc⟩ := h.owned x hx
      exact ⟨c', (hcur c').trans hc⟩
  · rw [hcur] at hc
    by_cases hx : x = e
    · subst hx
      exact hself hc
    · rw [hst x hx]
      exact h.self x hc

theorem SoloIn.setEnv (h : SoloIn c s) {f : Env → Env}
    (hnum : (f (s.envs e)).envCpunum = (s.envs e).envCpunum)
    (hother : (f (s.envs e)).envStatus = .runnable ∨ (f (s.envs e)).envStatus = .free →
      ¬ elsewhere s c e)
    (hself : s.curenv c = some e →
      (f (s.envs e)).envStatus ≠ .dying ∧ (f (s.envs e)).envStatus ≠ .free)
    (howned : (f (s.envs e)).envStatus = .running ∨ (f (s.envs e)).envStatus = .dying →
      (s.envs e).envStatus = .running) : SoloIn c (s.setEnv e f) := by
  refine h.newStatus (e := e) (fun _ => rfl) (fun x => ?_) (fun x hx => ?_) ?_ ?_ ?_
  · rw [KState.envs_setEnv]
    split
    · rename_i hx
      rw [hx, hnum]
    · rfl
  · rw [KState.envs_setEnv_of_ne _ _ _ _ hx]
  · rw [KState.envs_setEnv_self]
    exact hother
  · rw [KState.envs_setEnv_self]
    exact hself
  · rw [KState.envs_setEnv_self]
    exact howned

theorem SoloIn.sameStatus (h : SoloIn c s) {f : Env → Env}
    (hst : (f (s.envs e)).envStatus = (s.envs e).envStatus)
    (hnum : (f (s.envs e)).envCpunum = (s.envs e).envCpunum) : SoloIn c (s.setEnv e f) := by
  refine h.congr (fun _ => rfl) (fun x => ?_) fun x => ?_
  · rw [KState.envs_setEnv]
    split
    · rename_i hx
      rw [hx, hst]
    · rfl
  · rw [KState.envs_setEnv]
    split
    · rename_i hx
      rw [hx, hnum]
    · rfl

/-- The current environment is freed, and `curenv` is cleared. -/
theorem SoloOn.exit (h : SoloOn c s) (hc : s.curenv c = some cur) (hf : Freed s cur s₁) :
    SoloIn c (s₁.setCurenv c none) := by
  have hcur : ∀ c' x, (s₁.setCurenv c none).curenv c' = some x →
      c' ≠ c ∧ s.curenv c' = some x ∧ x ≠ cur := by
    intro c' x hx
    rw [KState.curenv_setCurenv] at hx
    split at hx
    · cases hx
    · rename_i hne
      rw [hf.curenv] at hx
      refine ⟨hne, hx, ?_⟩
      rintro rfl
      exact hne (h.one_cpu c' c x hx hc)
  refine ⟨⟨fun c₁ c₂ x h₁ h₂ => ?_, fun c' x hne hx => ?_, fun c' x hx => ?_, fun x hx => ?_⟩,
    fun x hx => ?_⟩
  · exact h.one_cpu c₁ c₂ x (hcur c₁ x h₁).2.1 (hcur c₂ x h₂).2.1
  · obtain ⟨_, hold, hxc⟩ := hcur c' x hx
    rw [KState.envs_setCurenv, hf.other x hxc]
    exact h.others c' x hne hold
  · obtain ⟨_, hold, hxc⟩ := hcur c' x hx
    rw [KState.envs_setCurenv, hf.other x hxc]
    exact h.cpunum c' x hold
  · rw [KState.envs_setCurenv] at hx
    have hxc : x ≠ cur := by
      rintro rfl
      rw [hf.self] at hx
      rcases hx with hx | hx <;> cases hx
    rw [hf.other x hxc] at hx
    obtain ⟨c', hold⟩ := h.owned x hx
    refine ⟨c', ?_⟩
    rw [KState.curenv_setCurenv, if_neg, hf.curenv]
    · exact hold
    · rintro rfl
      exact hxc (Option.some.inj (hold.symm.trans hc))
  · exact absurd rfl (hcur c x hx).1

/-! ## One step -/

theorem setsStatus_settable {st : EnvStatus} (h : setsStatus s cur tf = some (e, st)) :
    st = .runnable ∨ st = .notRunnable := by
  unfold setsStatus settableStatus at h
  split at h
  · split at h
    · rename_i hst _
      cases h
      split at hst
      · cases hst
        exact .inl rfl
      · split at hst
        · cases hst
          exact .inr rfl
        · cases hst
    · cases h
  · cases h

/-- The acts of an entry keep the invariant when they keep their hands off. -/
theorem SoloIn.act (h : SoloIn c s) (hc : s.curenv c = some cur)
    (hset : ∀ e, setsStatus s cur tf = some (e, .runnable) → ¬ elsewhere s c e)
    (hsend : ∀ e, sendsTo s cur tf = some e → ¬ elsewhere s c e)
    (hdestroy : ∀ e, destroys M s cur tf = some e → (s.envs e).envStatus ≠ .running →
      ¬ elsewhere s c e)
    (ha : Act M c cur tf s s') : SoloIn c s' := by
  cases ha with
  | none hd => exact h
  | @fork e s₁ hd halloc =>
      obtain ⟨d, hself⟩ := halloc.self
      refine h.newStatus (e := e) (fun c' => ?_) (fun x => ?_) (fun x hx => ?_) (fun hst => ?_)
        (fun _ => ?_) fun hst => ?_
      · rw [forked, KState.curenv_setEnv, KState.curenv, halloc.cpus]
        rfl
      · rw [forked, KState.envs_setEnv]
        split
        · rename_i hx
          rw [hx, hself]
        · rename_i hx
          rw [halloc.other x hx]
      · rw [forked, KState.envs_setEnv_of_ne _ _ _ _ hx, halloc.other x hx]
      · rw [forked, KState.envs_setEnv_self] at hst
        rcases hst with hst | hst <;> cases hst
      · rw [forked, KState.envs_setEnv_self]
        exact ⟨by simp, by simp⟩
      · rw [forked, KState.envs_setEnv_self] at hst
        rcases hst with hst | hst <;> cases hst
  | @setStatus e st hset' =>
      rcases setsStatus_settable hset' with rfl | rfl
      · exact h.setEnv rfl (fun _ => hset e hset') (fun _ => ⟨by simp, by simp⟩) (by simp)
      · exact h.setEnv rfl (by simp) (fun _ => ⟨by simp, by simp⟩) (by simp)
  | @setPriority e p _ _ =>
      have ht := prioritized_tweaked s e p
      exact h.congr ht.curenv ht.status ht.envCpunum
  | @dying e hd hst hne =>
      refine h.setEnv rfl (by simp) (fun hce => ?_) fun _ => hst
      exact absurd (Option.some.inj (hce.symm.trans hc)) hne
  | @free e s₁ hd hst hne hf =>
      refine h.newStatus (e := e) hf.curenv (fun x => ?_) (fun x hx => ?_) (fun _ => ?_)
        (fun hce => ?_) fun hx => ?_
      · by_cases hx : x = e
        · rw [hx, hf.self]
        · rw [hf.other x hx]
      · rw [hf.other x hx]
      · exact hdestroy e hd hst
      · exact absurd (Option.some.inj (hce.symm.trans hc)) hne
      · rw [hf.self] at hx
        rcases hx with hx | hx <;> cases hx
  | exit hd hf => exact h.toSoloOn.exit hc hf
  | @send dst hto =>
      refine h.newStatus (e := dst) (fun _ => rfl) (fun x => ?_) (fun x hx => ?_)
        (fun _ => hsend dst hto) (fun _ => ?_) fun hx => ?_
      · by_cases hx : x = dst
        · rw [hx, envs_delivered_self]
        · rw [envs_delivered_of_ne hx]
      · rw [envs_delivered_of_ne hx]
      · rw [envs_delivered_self]
        exact ⟨by simp, by simp⟩
      · rw [envs_delivered_self] at hx
        rcases hx with hx | hx <;> cases hx
  | recvFail hva hbad => exact h.sameStatus rfl rfl

theorem SoloIn.body (h : SoloIn c s) (hc : s.curenv c = some cur)
    (hset : ∀ e, setsStatus s cur tf = some (e, .runnable) → ¬ elsewhere s c e)
    (hsend : ∀ e, sendsTo s cur tf = some e → ¬ elsewhere s c e)
    (hdestroy : ∀ e, destroys M s cur tf = some e → (s.envs e).envStatus ≠ .running →
      ¬ elsewhere s c e)
    (hb : Body M c cur tf s s') : SoloIn c s' := by
  cases hb with
  | act ha hq => exact (h.act hc hset hsend hdestroy ha).quiet hq
  | recv hva hgood =>
      exact h.setEnv rfl (by simp) (fun _ => ⟨by simp, by simp⟩) (by simp)

/-- Rescheduling gives CPU `c` an environment that no other CPU has. -/
theorem SoloIn.resched (h : SoloIn c s) (hr : Resched M c fault s s') : SoloInv s' := by
  cases hr with
  | @run s₁ e d ht he hr =>
      -- No other CPU has the environment that runs next.
      have hnot : ∀ c', c' ≠ c → s.curenv c' ≠ some e := by
        intro c' hne hc'
        rcases he with hst | ⟨hce, _⟩
        · exact (h.others c' e hne hc').1 hst
        · exact hne (h.one_cpu c' c e hc' hce)
      have hcur : ∀ c', s'.curenv c' = if c' = c then some e else s.curenv c' := by
        intro c'
        rw [KState.curenv, hr.cpus]
        split
        · rfl
        · exact ht.curenv c'
      have hother : ∀ c' x, c' ≠ c → s.curenv c' = some x → s'.envs x = s₁.envs x := by
        intro c' x hne hx
        have hxe : x ≠ e := by
          rintro rfl
          exact hnot c' hne hx
        rw [hr.other x hxe, if_neg]
        rintro ⟨hx₁, _⟩
        rw [ht.curenv] at hx₁
        exact hne (h.one_cpu c' c x hx hx₁)
      refine ⟨fun c₁ c₂ x h₁ h₂ => ?_, fun c' x hx => ?_, fun c' x hx => ?_, fun x hx => ?_⟩
      · rw [hcur] at h₁ h₂
        split at h₁ <;> split at h₂
        · rename_i hc₁ hc₂
          rw [hc₁, hc₂]
        · rename_i hc₁ hc₂
          cases h₁
          exact absurd h₂ (hnot c₂ hc₂)
        · rename_i hc₁ hc₂
          cases h₂
          exact absurd h₁ (hnot c₁ hc₁)
        · exact h.one_cpu c₁ c₂ x h₁ h₂
      · rw [hcur] at hx
        split at hx
        · cases hx
          rw [hr.self]
          exact ⟨by simp, by simp⟩
        · rename_i hne
          rw [hother c' x hne hx, ht.status]
          exact h.others c' x hne hx
      · rw [hcur] at hx
        split at hx
        · rename_i hc
          cases hx
          rw [hr.self]
          exact hc.symm
        · rename_i hne
          rw [hother c' x hne hx, ht.envCpunum]
          exact h.cpunum c' x hx
      · by_cases hxe : x = e
        · exact ⟨c, by rw [hcur, if_pos rfl, hxe]⟩
        · rw [hr.other x hxe] at hx
          split at hx
          · rcases hx with hx | hx <;> cases hx
          · rename_i hpre
            rw [ht.status] at hx
            obtain ⟨c', hold⟩ := h.owned x hx
            have hne : c' ≠ c := by
              rintro rfl
              rcases hx with hrun | hdying
              · exact hpre ⟨(ht.curenv c').trans hold, by rw [ht.status]; exact hrun⟩
              · exact (h.self x hold).1 hdying
            exact ⟨c', by rw [hcur, if_neg hne]; exact hold⟩
  | @halt s₁ ht hno hh =>
      have hcur : ∀ c', s'.curenv c' = if c' = c then none else s.curenv c' := by
        intro c'
        rw [KState.curenv, hh.cpus]
        split
        · rfl
        · exact ht.curenv c'
      have hsome : ∀ c' x, s'.curenv c' = some x → c' ≠ c ∧ s.curenv c' = some x := by
        intro c' x hx
        rw [hcur] at hx
        split at hx
        · cases hx
        · rename_i hne
          exact ⟨hne, hx⟩
      refine ⟨fun c₁ c₂ x h₁ h₂ => ?_, fun c' x hx => ?_, fun c' x hx => ?_, fun x hx => ?_⟩
      · exact h.one_cpu c₁ c₂ x (hsome c₁ x h₁).2 (hsome c₂ x h₂).2
      · obtain ⟨hne, hold⟩ := hsome c' x hx
        rw [hh.envs, ht.status]
        exact h.others c' x hne hold
      · rw [hh.envs, ht.envCpunum]
        exact h.cpunum c' x (hsome c' x hx).2
      · rw [hh.envs, ht.status] at hx
        obtain ⟨c', hold⟩ := h.owned x hx
        have hne : c' ≠ c := by
          rintro rfl
          rcases hx with hrun | hdying
          · exact hno x hold hrun (h.cpunum c' x hold)
          · exact (h.self x hold).1 hdying
        exact ⟨c', by rw [hcur, if_neg hne]; exact hold⟩

/-- With `HandsOff` no environment is freed that another CPU runs. -/
theorem SoloInv.freesOwn (h : SoloInv s) {ev : Event} (hoff : HandsOff M s ev) :
    FreesOwn M s ev := by
  cases ev with
  | trap c tf inp =>
      intro cur hc
      have hon := (h.on c).not_elsewhere hc
      refine ⟨fun _ => hon, fun hst e he hnot => ?_⟩
      by_cases hrun : (s.envs e).envStatus = .running
      · have hself : e = cur := by
          by_contra hne
          exact hnot ⟨hrun, hne⟩
        rw [hself]
        exact hon
      · exact (hoff cur hc hst).2.2 e he hrun
  | create elf => trivial
  | start c => trivial
  | wake c trapno => trivial
  | store c va b => trivial

theorem SoloInv.trapState (h : SoloInv s) (hc : s.curenv c = some cur)
    (hst : (s.envs cur).envStatus ≠ .dying) (tf : Trapframe) :
    SoloIn c (trapState s c cur tf) := by
  refine ⟨(h.on c).congr (fun c' => curenv_trapState s c cur c' tf)
    (fun x => trapState_status s c cur x tf) fun x => ?_, fun x hx => ?_⟩
  · rw [Jos.trapState, saveTf, KState.envs_setEnv]
    split
    · rename_i hx
      rw [hx]
      rfl
    · rfl
  · rw [curenv_trapState, hc] at hx
    cases hx
    rw [trapState_status]
    exact ⟨hst, (h.ready c cur hc).2⟩

theorem SoloInv.cpuStarted (h : SoloInv s) (c : Nat) : SoloInv (cpuStarted s c) := by
  refine ⟨fun c₁ c₂ x h₁ h₂ => ?_, fun c' x hx => ?_, fun c' x hx => ?_, fun x hx => ?_⟩
  · rw [curenv_cpuStarted] at h₁ h₂
    exact h.one_cpu c₁ c₂ x h₁ h₂
  · rw [curenv_cpuStarted] at hx
    exact h.ready c' x hx
  · rw [curenv_cpuStarted] at hx
    exact h.cpunum c' x hx
  · obtain ⟨c', hold⟩ := h.owned x hx
    exact ⟨c', (curenv_cpuStarted s c c').trans hold⟩

theorem SoloInv.idle (h : SoloInv s) (hc : s.curenv c = none) : SoloIn c s := by
  refine ⟨h.on c, fun x hx => ?_⟩
  rw [hc] at hx
  cases hx

/-- What a trap does to the table before it reschedules. -/
theorem SoloInv.trap_body (h : SoloInv s) {inp : Inputs} (hoff : HandsOff M s (.trap c tf inp))
    (hc : s.curenv c = some cur) (hst : (s.envs cur).envStatus ≠ .dying)
    (hbody : Body M c cur tf (Jos.trapState s c cur tf) s₂) : SoloIn c s₂ := by
  obtain ⟨hset, hsend, hdestroy⟩ := hoff cur hc hst
  refine (h.trapState hc hst tf).body ((curenv_trapState s c cur c tf).trans hc) ?_ ?_ ?_ hbody
  · intro e he
    rw [elsewhere_trapState]
    exact hset e he
  · intro e he
    rw [elsewhere_trapState]
    exact hsend e he
  · intro e he hrun
    rw [elsewhere_trapState]
    rw [trapState_status] at hrun
    exact hdestroy e he hrun

theorem SoloInv.step (h : SoloInv s) (hb : BaseInv M K s) {ev : Event}
    (hoff : HandsOff M s ev) (he : Entry M s ev s') : SoloInv s' := by
  cases he with
  | @create elf e s₁ s' ha hq =>
      have hfree : (s.envs e).envStatus = .free := (hb.head_free ha.head).2
      have hcur : ∀ c', s'.curenv c' = s.curenv c' := fun c' => by
        rw [hq.curenv, KState.curenv, ha.cpus]
        rfl
      have hsame : ∀ c' x, s'.curenv c' = some x → s.curenv c' = some x ∧ x ≠ e := by
        intro c' x hx
        rw [hcur] at hx
        refine ⟨hx, ?_⟩
        rintro rfl
        exact (h.ready c' x hx).2 hfree
      refine ⟨fun c₁ c₂ x h₁ h₂ => ?_, fun c' x hx => ?_, fun c' x hx => ?_, fun x hx => ?_⟩
      · exact h.one_cpu c₁ c₂ x (hsame c₁ x h₁).1 (hsame c₂ x h₂).1
      · obtain ⟨hold, hxe⟩ := hsame c' x hx
        rw [hq.envStatus, ha.other x hxe]
        exact h.ready c' x hold
      · obtain ⟨hold, hxe⟩ := hsame c' x hx
        rw [hq.envCpunum, ha.other x hxe]
        exact h.cpunum c' x hold
      · have hxe : x ≠ e := by
          rintro rfl
          obtain ⟨d, hself⟩ := ha.self
          rw [hq.envStatus, hself] at hx
          rcases hx with hx | hx <;> cases hx
        rw [hq.envStatus, ha.other x hxe] at hx
        obtain ⟨c', hold⟩ := h.owned x hx
        exact ⟨c', (hcur c').trans hold⟩
  | start hc hr => exact (h.idle hc).resched hr.resched
  | @wake c trapno s' hc hr =>
      exact ((h.cpuStarted c).idle ((curenv_cpuStarted s c c).trans hc)).resched hr.resched
  | @collect c cur tf inp s₁ s' hc hst hf hr =>
      have hcur : (Jos.cpuStarted s c).curenv c = some cur := (curenv_cpuStarted s c c).trans hc
      exact (((h.cpuStarted c).on c).exit hcur hf).resched hr.resched
  | @trap c cur tf inp s₂ s' hc hst hbody hr =>
      exact (h.trap_body hoff hc hst hbody).resched hr.resched
  | store m => exact ⟨h.one_cpu, h.ready, h.cpunum, h.owned⟩

theorem Booted.solo (h : Booted M K s) : SoloInv s := by
  have hnone : ∀ c, s.curenv c = none := fun c => (h.cpus c).1
  obtain ⟨envs, _, henvs⟩ := h.envs
  refine ⟨fun c₁ c₂ x h₁ => ?_, fun c x hx => ?_, fun c x hx => ?_, fun x hx => ?_⟩
  · rw [hnone] at h₁
    cases h₁
  · rw [hnone] at hx
    cases hx
  · rw [hnone] at hx
    cases hx
  · rw [henvs] at hx
    rcases hx with hx | hx <;> cases hx

/-! ## Runs -/

/-- In a run whose steps fit and keep their hands off, memory and the table agree
and every environment is on one CPU at most. -/
theorem solo_reach (h : (kernel M K).Reach (fun s ev => Fits s ev ∧ HandsOff M s ev) s) :
    BaseInv M K s ∧ SoloInv s := by
  refine h.invariant (P := fun s => BaseInv M K s ∧ SoloInv s)
    (fun s hs => ⟨Booted.base hs, Booted.solo hs⟩) fun s ev s' hs hok hstep => ?_
  have hown := hs.2.freesOwn hok.2
  refine ⟨allows_landing (outcome_landing hs.1 hstep.1 hok.1 hown) hstep.2, ?_⟩
  exact hs.2.step hs.1 hok.2 (entry_of_step hs.1 hok.1 hown hstep).2

/-! ## Runs whose steps are checked -/

/-- What is counted in `pp_ref`, and not in the page tables, of a page mapped once more. -/
def pageFits (s : KState) (w perm : Word) : Bool :=
  w = 0#32 ∨ pgnum w ||| pgnum perm = pgnum w ∧ (s.pm.ppRef (pgnum w)).toNat < 65535

def callFits (s : KState) (cur : Nat) (r : PushRegs) : Bool :=
  match sysno r.eax with
  | some .pageMap => (envid2env s cur r.edx true).toOption.all fun src =>
      pageFits s (wordAt s src r.ecx) r.esi
  | some .ipcTrySend => pageFits s (wordAt s cur r.ebx) 0#32
  | _ => true

/-- `e` is where it ran last, on `c` or on no CPU. -/
def alone (s : KState) (c e : Nat) : Bool :=
  s.curenv (s.envs e).envCpunum ≠ some e ∨ (s.envs e).envCpunum = c

/-- A trap that fits, keeps its hands off the other CPUs, and leaves the dying as they are. -/
structure CarefulTrap (M : Machine) (s : KState) (c cur : Nat) (tf : Trapframe) : Prop where
  inTable : cur + 1 < nenv
  fits : callFits (trapState s c cur tf) cur tf.regs = true
  sets : (setsStatus (trapState s c cur tf) cur tf).all (fun x =>
    (s.envs x.1).envStatus ≠ .dying && (x.2 ≠ .runnable || alone s c x.1)) = true
  sends : (sendsTo (trapState s c cur tf) cur tf).all (alone s c) = true
  destroys : (destroys M (trapState s c cur tf) cur tf).all (fun e =>
    (s.envs e).envStatus = .running || alone s c e) = true

instance (M : Machine) (s : KState) (c cur : Nat) (tf : Trapframe) :
    Decidable (CarefulTrap M s c cur tf) :=
  decidable_of_iff (_ ∧ _ ∧ _ ∧ _ ∧ _)
    ⟨fun h => ⟨h.1, h.2.1, h.2.2.1, h.2.2.2.1, h.2.2.2.2⟩,
      fun h => ⟨h.inTable, h.fits, h.sets, h.sends, h.destroys⟩⟩

def careful (M : Machine) (s : KState) : Event → Bool
  | .trap c tf _ => (s.curenv c).all fun cur =>
      (s.envs cur).envStatus = .dying ∨ CarefulTrap M s c cur tf
  | _ => true

theorem sharable_of_pageFits (hb : BaseInv M K s) {va perm : Word}
    (h : pageFits s (wordAt s e va) perm = true) : Sharable s (wordAt s e va) perm := by
  intro hne
  obtain ⟨free, hp⟩ := hb.pages
  obtain ⟨hbits, hroom⟩ := (of_decide_eq_true h).resolve_left hne
  have htarget : target s.pm s.dirs (.pte e (pdx va) (ptx va)) = some (pgnum (wordAt s e va)) :=
    entry_of_ne hne
  rw [hp.count_eq (hp.target_pool _ _ htarget).2.2] at hroom
  exact ⟨hbits, hroom⟩

theorem pagesFit_of_callFits (hb : BaseInv M K s) {r : PushRegs} (h : callFits s cur r = true) :
    PagesFit s cur r := by
  unfold callFits at h
  unfold PagesFit
  cases hno : sysno r.eax with
  | none => trivial
  | some no =>
      rw [hno] at h
      cases no with
      | pageMap =>
          intro _ _ src dst hsrc _ _
          dsimp only at h
          rw [hsrc] at h
          exact sharable_of_pageFits hb h
      | ipcTrySend => exact fun dst _ _ _ _ => sharable_of_pageFits hb h
      | _ => trivial

theorem SoloInv.not_elsewhere_of_alone (h : SoloInv s) (ha : alone s c e = true) :
    ¬ elsewhere s c e := by
  rintro ⟨c', hne, hc'⟩
  have hplace := of_decide_eq_true ha
  rw [h.cpunum c' e hc'] at hplace
  exact hplace.elim (fun hx => hx hc') fun hx => hne hx

theorem CarefulTrap.of_careful {inp : Inputs} (h : careful M s (.trap c tf inp) = true)
    (hc : s.curenv c = some cur) (hst : (s.envs cur).envStatus ≠ .dying) :
    CarefulTrap M s c cur tf := by
  unfold careful at h
  dsimp only at h
  rw [hc, Option.all_some, decide_eq_true_eq] at h
  exact h.resolve_left hst

theorem careful_sound (hb : BaseInv M K s) (hs : SoloInv s) {ev : Event}
    (h : careful M s ev = true) : Fits s ev ∧ HandsOff M s ev := by
  cases ev with
  | trap c tf inp =>
      refine ⟨fun cur hc hst => ?_, fun cur hc hst => ?_⟩
      · obtain ⟨hlt, hcall, -⟩ := CarefulTrap.of_careful h hc hst
        have hbase : BaseInv M K (trapState s c cur tf) :=
          (hb.cpuStarted c).setEnv (e := cur) (f := fun env => { env with envTf := tf })
            ⟨rfl, rfl, rfl, Iff.rfl, id⟩
        exact ⟨fun _ => hlt, fun _ => pagesFit_of_callFits hbase hcall⟩
      · obtain ⟨-, -, hset, hsend, hdestroy⟩ := CarefulTrap.of_careful h hc hst
        refine ⟨fun e he => ?_, fun e he => ?_, fun e he hrun => ?_⟩
        · rw [he] at hset
          obtain ⟨-, hset⟩ := Bool.and_eq_true_iff.mp hset
          exact hs.not_elsewhere_of_alone hset
        · rw [he] at hsend
          exact hs.not_elsewhere_of_alone hsend
        · rw [he] at hdestroy
          rcases Bool.or_eq_true_iff.mp hdestroy with hx | hx
          · exact absurd (of_decide_eq_true hx) hrun
          · exact hs.not_elsewhere_of_alone hx
  | create elf => exact ⟨trivial, trivial⟩
  | start c => exact ⟨trivial, trivial⟩
  | wake c trapno => exact ⟨trivial, trivial⟩
  | store c va b => exact ⟨trivial, trivial⟩

/-- Executes a list of careful steps. -/
def runCarefully (M : Machine) (evs : List Event) (s : KState) : Option KState :=
  evs.foldlM (fun s ev => if careful M s ev then exec M s ev else none) s

/-- Such a run is one under every guard that careful steps meet. -/
theorem reach_carefully {guard : KState → Event → Prop}
    (hguard : ∀ s ev, SoloInv s → careful M s ev = true → Fits s ev → HandsOff M s ev → guard s ev)
    {evs : List Event} (hr : (kernel M K).Reach guard s) (hb : BaseInv M K s) (hs : SoloInv s)
    (h : runCarefully M evs s = some s') :
    (kernel M K).Reach guard s' ∧ BaseInv M K s' ∧ SoloInv s' := by
  induction evs generalizing s with
  | nil =>
      cases h
      exact ⟨hr, hb, hs⟩
  | cons ev evs ih =>
      unfold runCarefully at h
      rw [List.foldlM_cons, Option.bind_eq_bind, Option.bind_eq_some_iff] at h
      obtain ⟨s₁, hexec, hrest⟩ := h
      split at hexec
      · rename_i hcare
        obtain ⟨hfits, hoff⟩ := careful_sound hb hs hcare
        have hstep : (kernel M K).step s ev s₁ := step_of_exec hexec
        have hown := hs.freesOwn hoff
        refine ih (hr.step (hguard s ev hs hcare hfits hoff) hstep) ?_ ?_ hrest
        · exact allows_landing (outcome_landing hb hstep.1 hfits hown) hstep.2
        · exact hs.step hb hoff (entry_of_step hb hfits hown hstep).2
      · cases hexec

/-- A state that a careful run reaches from the boot, and that has a property. -/
theorem exists_careful (guard : KState → Event → Prop)
    (hguard : ∀ s ev, SoloInv s → careful M s ev = true → Fits s ev → HandsOff M s ev → guard s ev)
    {evs : List Event} {p : KState → Bool} (hboot : Booted M K s)
    (h : (runCarefully M evs s).any p = true) :
    ∃ s', (kernel M K).Reach guard s' ∧ BaseInv M K s' ∧ SoloInv s' ∧ p s' = true := by
  cases hrun : runCarefully M evs s with
  | none => simp [hrun] at h
  | some s' =>
      rw [hrun] at h
      obtain ⟨hr, hb, hs⟩ := reach_carefully hguard (.init hboot) hboot.base hboot.solo hrun
      exact ⟨s', hr, hb, hs, h⟩

end

/-- No environment is on two CPUs, and none on a CPU can be selected, in every
run whose steps keep their hands off the environments of the other CPUs. -/
theorem solo_of_reach {M : Machine} {K : Nat → Prop} {s : KState}
    (h : (kernel M K).Reach (fun s ev => Fits s ev ∧ HandsOff M s ev) s) : Solo M s := by
  obtain ⟨_, hs⟩ := solo_reach h
  refine ⟨hs.one_cpu, fun c e hc => (hs.ready c e hc).1, fun c start fuel i e hi hscan hc => ?_⟩
  exact (hs.ready c e hc).1 (schedScan_some hi hscan).2

/-- A parent forks a child and makes it runnable, the other CPU runs it, and the parent yields. -/
def forkedChild : List Event :=
  [.create emptyImage, .start 0, .start 1, call 0 7#32 0#32 0#32 0#32 0#32 0#32,
    call 0 8#32 0x1001#32 2#32 0#32 0#32 0#32, .wake 1 irqTimer,
    call 0 10#32 0#32 0#32 0#32 0#32 0#32]

theorem solo_pc : ∃ s, s.curenv 0 = some 0 ∧ s.curenv 1 = some 1 ∧
    (s.envs 1).envParentId = (s.envs 0).envId ∧ Solo (pc .roundRobin) s := by
  have hrun : (runCarefully (pc .roundRobin) forkedChild pcBoot).any (fun s =>
      s.curenv 0 = some 0 ∧ s.curenv 1 = some 1 ∧
        (s.envs 1).envParentId = (s.envs 0).envId) = true := by decide +kernel
  obtain ⟨s, hreach, -, -, hcur⟩ := exists_careful
    (fun s ev => Fits s ev ∧ HandsOff (pc .roundRobin) s ev)
    (fun _ _ _ _ hfits hoff => ⟨hfits, hoff⟩) (pcBoot_booted .roundRobin) hrun
  rw [decide_eq_true_eq] at hcur
  exact ⟨s, hcur.1, hcur.2.1, hcur.2.2, solo_of_reach hreach⟩

/-- A parent that sets a running child runnable, and then yields, runs it on a
second CPU. -/
theorem child_on_two_cpus : ¬ ∀ s, (kernel (pc .roundRobin) lowPages).Reach anyEvent s →
    Solo (pc .roundRobin) s := by
  intro hall
  have hrun : (run (pc .roundRobin) [.create emptyImage, .start 0, .start 1,
      call 0 7#32 0#32 0#32 0#32 0#32 0#32, call 0 8#32 0x1001#32 2#32 0#32 0#32 0#32,
      .wake 1 irqTimer, call 0 8#32 0x1001#32 2#32 0#32 0#32 0#32,
      call 0 10#32 0#32 0#32 0#32 0#32 0#32] pcBoot).any (fun s =>
        s.curenv 0 = some 1 ∧ s.curenv 1 = some 1) = true := by decide +kernel
  obtain ⟨s, hreach, hcur⟩ := reach_of_any (pcBoot_booted .roundRobin) hrun
  rw [decide_eq_true_eq] at hcur
  have hsame := (hall s hreach).one_cpu 0 1 1 hcur.1 hcur.2
  exact absurd hsame (by decide)

end Jos
end Sisop

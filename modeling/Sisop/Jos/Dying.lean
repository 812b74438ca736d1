import Sisop.Jos.Mapping
import Sisop.Jos.Solo

/-!
# Dying environments

An environment that is destroyed while another CPU runs it is only marked:
`env_destroy` makes it `ENV_DYING`, and the CPU that runs it frees it at its next
trap.  Until then its page directory is in that CPU's CR3.

`env_destroy` takes any status but `ENV_RUNNING` for an environment that no other
CPU runs.  A second request finds the environment dying and frees it at once.
-/

namespace Sisop
namespace Jos

open TransitionSystem

/-- No status is set on a dying environment. -/
def LeavesDying (s : KState) : Event → Prop
  | .trap c tf _ => ∀ cur, s.curenv c = some cur → (s.envs cur).envStatus ≠ .dying →
      ∀ e st, setsStatus (trapState s c cur tf) cur tf = some (e, st) →
        (s.envs e).envStatus ≠ .dying
  | _ => True

/-- What a CPU in user mode has in CR3 is in use: the directory of its
environment, its page tables, and the pages they map. -/
structure DirInUse (s : KState) (c e : Nat) : Prop where
  cr3 : (s.envs e).envPgdir = some (s.cpus c).cr3
  dir : ∀ free, LinkChain.Visits s.pm.ppLink s.pm.pageFreeList free → (s.cpus c).cr3 ∉ free
  tables : ∀ free, LinkChain.Visits s.pm.ppLink s.pm.pageFreeList free →
    ∀ i t, i < pdxUtop → tableAt s e i = some t → t ∉ free
  pages : ∀ free, LinkChain.Visits s.pm.ppLink s.pm.pageFreeList free →
    ∀ va q, va < utop → mapped s e va = some q → q ∉ free

/-- What a step does to environments that die. -/
structure Dies (M : Machine) (s : KState) (ev : Event) (s' : KState) : Prop where
  /-- An environment is freed by a trap, and only when no other CPU has it. -/
  freed_alone : ∀ e, (s.envs e).envStatus ≠ .free → (s'.envs e).envStatus = .free →
    ∃ c tf inp, ev = .trap c tf inp ∧ ¬ elsewhere s c e
  /-- One that is destroyed while another CPU runs it becomes dying. -/
  marked : ∀ c tf inp cur e, ev = .trap c tf inp → s.curenv c = some cur →
    (s.envs cur).envStatus ≠ .dying → destroys M (trapState s c cur tf) cur tf = some e →
    elsewhere s c e → (s'.envs e).envStatus = .dying
  /-- A dying environment stays where it is while its CPU does not trap. -/
  waits : ∀ c e, s.curenv c = some e → (s.envs e).envStatus = .dying →
    (∀ tf inp, ev ≠ .trap c tf inp) → s'.curenv c = some e ∧ (s'.envs e).envStatus = .dying
  /-- The next trap of its CPU frees it. -/
  collected : ∀ c e tf inp, s.curenv c = some e → (s.envs e).envStatus = .dying →
    ev = .trap c tf inp → (s'.envs e).envStatus = .free ∧ ∀ c', s'.curenv c' ≠ some e

/-- The protocol of destruction in a state and in the steps `ok` from it. -/
structure Destruction (M : Machine) (K : Nat → Prop) (ok : KState → Event → Prop)
    (s : KState) : Prop where
  inUse : ∀ c e, s.curenv c = some e → DirInUse s c e
  on_cpu : ∀ e, (s.envs e).envStatus = .dying → ∃ c, s.curenv c = some e ∧ ¬ elsewhere s c e
  step : ∀ ev s', ok s ev → (kernel M K).step s ev s' → Dies M s ev s'

section

variable {M : Machine} {K : Nat → Prop} {s s₁ s₂ s' : KState} {c c' cur e : Nat} {tf : Trapframe}
  {fault : Prop}

theorem BaseInv.dirInUse (h : BaseInv M K s) (hc : s.curenv c = some e) : DirInUse s c e := by
  have hdir := h.cpu c e hc
  obtain ⟨free, hp⟩ := h.pages
  refine ⟨hdir, fun free' hvis => ?_, fun free' hvis i t hi ht => ?_,
    fun free' hvis va q hva hq => ?_⟩
  · obtain rfl := LinkChain.unique hvis hp.chain
    exact fun hmem => hp.free_unref _ hmem (.dir e) hdir
  · obtain rfl := LinkChain.unique hvis hp.chain
    rw [tableAt_eq_target hp hi] at ht
    exact fun hmem => hp.free_unref _ hmem (.pde e i) ht
  · obtain rfl := LinkChain.unique hvis hp.chain
    rw [mapped_eq_target hp ((pdx_lt_pdxUtop_iff va).mpr hva)] at hq
    exact (hp.data_of_pte hq).1

/-! ## What acts do to an environment another CPU has -/

theorem destroys_none_of_sysno {no : Sysno} (hno : tf.trapno = tSyscall)
    (hsys : sysno tf.regs.eax = some no) (hcputs : no ≠ .cputs) (hdestroy : no ≠ .envDestroy)
    (hupcall : no ≠ .envSetPgfaultUpcall) : destroys M s cur tf = none := by
  rw [destroys_syscall hno, syscallDestroys, hsys]
  cases no <;> simp_all

theorem destroys_of_setsStatus {x : Nat × EnvStatus} (h : setsStatus s cur tf = some x) :
    destroys M s cur tf = none := by
  unfold setsStatus at h
  split at h
  · rename_i hcall
    exact destroys_none_of_sysno hcall.1 hcall.2 (by simp) (by simp) (by simp)
  · cases h

theorem destroys_of_sendsTo (h : sendsTo s cur tf = some e) : destroys M s cur tf = none := by
  unfold sendsTo at h
  split at h
  · rename_i hcall
    exact destroys_none_of_sysno hcall.1 hcall.2 (by simp) (by simp) (by simp)
  · cases h

theorem destroys_of_recvVa {va : Word} (h : recvVa tf = some va) : destroys M s cur tf = none := by
  unfold recvVa at h
  split at h
  · rename_i hcall
    exact destroys_none_of_sysno hcall.1 hcall.2 (by simp) (by simp) (by simp)
  · cases h

/-- `env_destroy` of an environment that runs elsewhere marks it. -/
theorem Body.marks (hb : Body M c cur tf s s') (hd : destroys M s cur tf = some e)
    (hst : (s.envs e).envStatus = .running) (hne : e ≠ cur) :
    (s'.envs e).envStatus = .dying := by
  have habs : destroys M s cur tf ≠ none := by
    rw [hd]
    exact Option.some_ne_none e
  cases hb with
  | recv hva _ => exact absurd (destroys_of_recvVa hva) habs
  | @act s₁ _ ha hq =>
      rw [hq.envStatus]
      cases ha with
      | none hd' => exact absurd hd' habs
      | fork hd' _ => exact absurd hd' habs
      | setStatus hset => exact absurd (destroys_of_setsStatus hset) habs
      | setPriority hd' _ => exact absurd hd' habs
      | send hto => exact absurd (destroys_of_sendsTo hto) habs
      | recvFail hva _ => exact absurd (destroys_of_recvVa hva) habs
      | dying hd' _ _ =>
          obtain rfl := Option.some.inj (hd'.symm.trans hd)
          rw [KState.setStatus, KState.envs_setEnv_self]
      | free hd' hst' _ _ =>
          obtain rfl := Option.some.inj (hd'.symm.trans hd)
          exact absurd hst hst'
      | exit hd' _ =>
          obtain rfl := Option.some.inj (hd'.symm.trans hd)
          exact absurd rfl hne

/-- No act touches a dying environment of another CPU. -/
theorem Body.keeps_dying (hb : Body M c cur tf s s') (hne : e ≠ cur)
    (hst : (s.envs e).envStatus = .dying) (helse : elsewhere s c e)
    (hfree : ∀ x, s.envFreeList = some x → (s.envs x).envStatus = .free)
    (hset : ∀ x st, setsStatus s cur tf = some (x, st) → (s.envs x).envStatus ≠ .dying)
    (hsend : ∀ x, sendsTo s cur tf = some x → ¬ elsewhere s c x)
    (hdestroy : ∀ x, destroys M s cur tf = some x → (s.envs x).envStatus ≠ .running →
      ¬ elsewhere s c x) : (s'.envs e).envStatus = .dying := by
  cases hb with
  | recv hva _ => rw [received, KState.envs_setEnv_of_ne _ _ _ _ hne, hst]
  | @act s₁ _ ha hq =>
      rw [hq.envStatus]
      cases ha with
      | none _ => exact hst
      | @fork e' s₁ _ halloc =>
          have hx : e ≠ e' := by
            rintro rfl
            rw [hfree e halloc.head] at hst
            cases hst
          rw [forked, KState.envs_setEnv_of_ne _ _ _ _ hx, halloc.other e hx, hst]
      | @setStatus e' st hset' =>
          have hx : e ≠ e' := by
            rintro rfl
            exact hset e st hset' hst
          rw [KState.setStatus, KState.envs_setEnv_of_ne _ _ _ _ hx, hst]
      | setPriority _ _ => exact ((prioritized_tweaked s _ _).status e).trans hst
      | @dying e' _ hst' _ =>
          by_cases hx : e = e'
          · rw [hx, KState.setStatus, KState.envs_setEnv_self]
          · rw [KState.setStatus, KState.envs_setEnv_of_ne _ _ _ _ hx, hst]
      | @free e' _ hd hst' _ hf =>
          have hx : e ≠ e' := by
            rintro rfl
            exact hdestroy e hd hst' helse
          rw [hf.other e hx, hst]
      | exit _ hf => rw [KState.envs_setCurenv, hf.other e hne, hst]
      | @send dst hto =>
          have hx : e ≠ dst := by
            rintro rfl
            exact hsend e hto helse
          rw [envs_delivered_of_ne hx, hst]
      | recvFail _ _ => rw [KState.envs_setEnv_of_ne _ _ _ _ hne, hst]

/-- An act that frees an environment destroys it, and not to mark it. -/
theorem Body.frees (hb : Body M c cur tf s s') (hst : (s.envs e).envStatus ≠ .free)
    (hst' : (s'.envs e).envStatus = .free) :
    e = cur ∨ destroys M s cur tf = some e ∧ (s.envs e).envStatus ≠ .running := by
  cases hb with
  | recv hva _ =>
      rw [received, KState.envs_setEnv] at hst'
      split at hst'
      · cases hst'
      · exact absurd hst' hst
  | @act s₁ _ ha hq =>
      rw [hq.envStatus] at hst'
      cases ha with
      | none _ => exact absurd hst' hst
      | @fork e' s₁ _ halloc =>
          rw [forked, KState.envs_setEnv] at hst'
          split at hst'
          · cases hst'
          · rename_i hx
            rw [halloc.other e hx] at hst'
            exact absurd hst' hst
      | @setStatus e' st hset =>
          rw [KState.setStatus, KState.envs_setEnv] at hst'
          split at hst'
          · rcases setsStatus_settable hset with rfl | rfl <;> cases hst'
          · exact absurd hst' hst
      | setPriority _ _ => exact absurd (((prioritized_tweaked s _ _).status e).symm.trans hst') hst
      | dying _ _ _ =>
          rw [KState.setStatus, KState.envs_setEnv] at hst'
          split at hst'
          · cases hst'
          · exact absurd hst' hst
      | @free e' _ hd hrun _ hf =>
          by_cases hx : e = e'
          · rw [hx]
            exact .inr ⟨hd, hrun⟩
          · rw [hf.other e hx] at hst'
            exact absurd hst' hst
      | exit _ hf =>
          by_cases hx : e = cur
          · exact .inl hx
          · rw [KState.envs_setCurenv, hf.other e hx] at hst'
            exact absurd hst' hst
      | @send dst hto =>
          by_cases hx : e = dst
          · rw [hx, envs_delivered_self] at hst'
            cases hst'
          · rw [envs_delivered_of_ne hx] at hst'
            exact absurd hst' hst
      | recvFail _ _ =>
          rw [KState.envs_setEnv] at hst'
          split at hst'
          · rename_i hx
            rw [hx] at hst
            exact absurd hst' hst
          · exact absurd hst' hst

/-! ## What rescheduling does -/

theorem Resched.free_iff (hr : Resched M c fault s s') (hnext : fault → ∀ x, s.curenv c = some x →
    (s.envs x).envStatus ≠ .free) (e : Nat) :
    (s'.envs e).envStatus = .free ↔ (s.envs e).envStatus = .free := by
  cases hr with
  | @run s₁ x d ht he hr =>
      by_cases hx : e = x
      · subst hx
        rw [hr.self]
        refine iff_of_false (by simp) ?_
        rcases he with hst | ⟨hc, hst | hf⟩
        · rw [hst]
          decide
        · rw [hst]
          decide
        · exact hnext hf e hc
      · rw [hr.other e hx, ← ht.status e]
        split
        · rename_i hpre
          rw [hpre.2]
          exact iff_of_false (by simp) (by simp)
        · exact Iff.rfl
  | halt ht _ hh => rw [hh.envs, ht.status]

/-- Rescheduling CPU `c` leaves the other CPUs and their environments alone. -/
theorem SoloIn.resched_other (h : SoloIn c s) (hr : Resched M c fault s s') (hne : c' ≠ c)
    (he : s.curenv c' = some e) :
    s'.curenv c' = some e ∧ (s'.envs e).envStatus = (s.envs e).envStatus := by
  cases hr with
  | @run s₁ x d ht hx hr =>
      have hxe : e ≠ x := by
        rintro rfl
        rcases hx with hst | ⟨hc, _⟩
        · exact (h.others c' e hne he).1 hst
        · exact hne (h.one_cpu c' c e he hc)
      constructor
      · rw [KState.curenv, hr.cpus, if_neg hne]
        exact (ht.curenv c').trans he
      · rw [hr.other e hxe, if_neg, ht.status]
        rintro ⟨hc, _⟩
        rw [ht.curenv] at hc
        exact hne (h.one_cpu c' c e he hc)
  | halt ht _ hh =>
      constructor
      · rw [KState.curenv, hh.cpus, if_neg hne]
        exact (ht.curenv c').trans he
      · rw [hh.envs, ht.status]

/-- A CPU does not go on with a free environment. -/
theorem SoloIn.resched_free (h : SoloIn c s) (hr : Resched M c fault s s')
    (hst : (s.envs e).envStatus = .free) : s'.curenv c' ≠ some e := by
  intro he
  refine ((h.resched hr).ready c' e he).2 ?_
  exact (hr.free_iff (fun _ x hx => (h.self x hx).2) e).mpr hst

/-- An entry moves no other CPU to another environment before it reschedules. -/
theorem Body.curenv_other (hb : Body M c cur tf s s') (hne : c' ≠ c) :
    s'.curenv c' = s.curenv c' :=
  (hb.curenv_cases c').resolve_right fun h => hne h.1

/-! ## Steps and runs -/

theorem SoloInv.dies (h : SoloInv s) (hb : BaseInv M K s) {ev : Event}
    (hoff : HandsOff M s ev) (hleave : LeavesDying s ev) (he : Entry M s ev s') :
    Dies M s ev s' := by
  -- A step that only reschedules a CPU without an environment.
  have hidle : ∀ c s₀, SoloInv s₀ → s₀.curenv c = none → Leaves M c False s₀ s' →
      (∀ x, (s₀.envs x).envStatus = (s.envs x).envStatus) →
      (∀ c', s₀.curenv c' = s.curenv c') → (∀ c tf inp, ev ≠ .trap c tf inp) →
      Dies M s ev s' := by
    intro c s₀ h₀ hc hl hst hcur hev
    have hr := hl.resched
    have hin := h₀.idle hc
    refine ⟨fun x hx hx' => ?_, fun c' tf inp _ _ heq => absurd heq (hev c' tf inp),
      fun c' x hx hd _ => ?_, fun c' _ tf inp _ _ heq => absurd heq (hev c' tf inp)⟩
    · rw [hr.free_iff (fun _ y hy => (hin.self y hy).2), hst] at hx'
      exact absurd hx' hx
    · have hne : c' ≠ c := by
        rintro rfl
        rw [← hcur, hc] at hx
        cases hx
      obtain ⟨hcur', hst'⟩ := hin.resched_other hr hne ((hcur c').trans hx)
      exact ⟨hcur', hst'.trans ((hst x).trans hd)⟩
  cases he with
  | @create elf e s₁ s' ha hq =>
      have hfree : (s.envs e).envStatus = .free := (hb.head_free ha.head).2
      obtain ⟨d, hself⟩ := ha.self
      refine ⟨fun x hx hx' => ?_, ?_, fun c x hx hd _ => ?_, ?_⟩
      · rw [hq.envStatus] at hx'
        by_cases hxe : x = e
        · rw [hxe, hself] at hx'
          cases hx'
        · rw [ha.other x hxe] at hx'
          exact absurd hx' hx
      · intro c tf inp cur e' heq
        cases heq
      · have hxe : x ≠ e := by
          rintro rfl
          rw [hfree] at hd
          cases hd
        rw [hq.curenv, hq.envStatus, ha.other x hxe, KState.curenv, ha.cpus]
        exact ⟨hx, hd⟩
      · intro c e' tf inp _ _ heq
        cases heq
  | start hc hr => exact hidle _ s h hc hr (fun _ => rfl) (fun _ => rfl) (by simp)
  | @wake c trapno s' hc hr =>
      exact hidle c _ (h.cpuStarted c) ((curenv_cpuStarted s c c).trans hc) hr (fun _ => rfl)
        (curenv_cpuStarted s c) (by simp)
  | @collect c cur tf inp s₁ s' hc hst hf hl =>
      have hr := hl.resched
      have hcur : (Jos.cpuStarted s c).curenv c = some cur := (curenv_cpuStarted s c c).trans hc
      have hin := ((h.cpuStarted c).on c).exit hcur hf
      have hgone : ((s₁.setCurenv c none).envs cur).envStatus = .free := by
        rw [KState.envs_setCurenv, hf.self]
      have hother : ∀ x, x ≠ cur →
          ((s₁.setCurenv c none).envs x).envStatus = (s.envs x).envStatus := by
        intro x hx
        rw [KState.envs_setCurenv, hf.other x hx]
        rfl
      refine ⟨fun x hx hx' => ?_, fun c' tf' inp' cur' x heq hc' hst' => ?_,
        fun c' x hx hd hev => ?_, fun c' x tf' inp' hx hd heq => ?_⟩
      · by_cases hxc : x = cur
        · exact ⟨c, tf, inp, rfl, hxc ▸ (h.on c).not_elsewhere hc⟩
        · rw [hr.free_iff (fun _ y hy => (hin.self y hy).2), hother x hxc] at hx'
          exact absurd hx' hx
      · cases heq
        rw [hc] at hc'
        cases hc'
        exact absurd hst hst'
      · have hne : c' ≠ c := by
          rintro rfl
          exact hev tf inp rfl
        have hxc : x ≠ cur := by
          rintro rfl
          exact hne (h.one_cpu c' c x hx hc)
        have hx₁ : (s₁.setCurenv c none).curenv c' = some x := by
          rw [KState.curenv_setCurenv, if_neg hne, hf.curenv, curenv_cpuStarted]
          exact hx
        obtain ⟨hcur', hst'⟩ := hin.resched_other hr hne hx₁
        exact ⟨hcur', hst'.trans ((hother x hxc).trans hd)⟩
      · cases heq
        rw [hc] at hx
        cases hx
        refine ⟨(hr.free_iff (fun _ y hy => (hin.self y hy).2) cur).mpr hgone, fun c' => ?_⟩
        exact hin.resched_free hr hgone
  | @trap c cur tf inp s₂ s' hc hst hbody hl =>
      have hr := hl.resched
      obtain ⟨hset, hsend, hdestroy⟩ := hoff cur hc hst
      have hcur := (curenv_trapState s c cur c tf).trans hc
      have hin := h.trap_body hoff hc hst hbody
      have hdestroy' : ∀ x, destroys M (Jos.trapState s c cur tf) cur tf = some x →
          ((Jos.trapState s c cur tf).envs x).envStatus ≠ .running →
          ¬ elsewhere (Jos.trapState s c cur tf) c x := by
        intro x hx hrun
        rw [elsewhere_trapState]
        rw [trapState_status] at hrun
        exact hdestroy x hx hrun
      have hkeep : ∀ c' x, c' ≠ c → s.curenv c' = some x → s₂.curenv c' = some x := by
        intro c' x hne hx
        rw [hbody.curenv_other hne, curenv_trapState]
        exact hx
      refine ⟨fun x hx hx' => ?_, fun c' tf' inp' cur' x heq hc' _ hd helse => ?_,
        fun c' x hx hd hev => ?_, fun c' x tf' inp' hx hd heq => ?_⟩
      · refine ⟨c, tf, inp, rfl, ?_⟩
        rw [hr.free_iff (fun _ y hy => (hin.self y hy).2)] at hx'
        rcases hbody.frees (by rw [trapState_status]; exact hx) hx' with rfl | ⟨hd, hrun⟩
        · exact (h.on c).not_elsewhere hc
        · rw [← elsewhere_trapState]
          exact hdestroy' x hd hrun
      · cases heq
        rw [hc] at hc'
        cases hc'
        have hrun : (s.envs x).envStatus = .running := by
          by_contra hrun
          exact hdestroy x hd hrun helse
        have hxc : x ≠ cur := by
          rintro rfl
          exact (h.on c).not_elsewhere hc helse
        obtain ⟨c', hne, hx⟩ := helse
        rw [(hin.resched_other hr hne (hkeep c' x hne hx)).2]
        exact hbody.marks hd (by rw [trapState_status]; exact hrun) hxc
      · have hne : c' ≠ c := by
          rintro rfl
          exact hev tf inp rfl
        have hxc : x ≠ cur := by
          rintro rfl
          exact hne (h.one_cpu c' c x hx hc)
        obtain ⟨hcur', hst'⟩ := hin.resched_other hr hne (hkeep c' x hne hx)
        refine ⟨hcur', hst'.trans (hbody.keeps_dying hxc ?_ ?_ ?_ ?_ (fun y hy => ?_)
          hdestroy')⟩
        · rw [trapState_status]
          exact hd
        · rw [elsewhere_trapState]
          exact ⟨c', hne, hx⟩
        · intro y hy
          rw [trapState_status]
          exact (hb.head_free hy).2
        · intro y st hy
          rw [trapState_status]
          exact hleave cur hc hst y st hy
        · rw [elsewhere_trapState]
          exact hsend y hy
      · cases heq
        rw [hc] at hx
        cases hx
        exact absurd hd hst
  | @store c va b m =>
      refine ⟨fun x hx hx' => absurd hx' hx, ?_, fun c x hx hd _ => ⟨hx, hd⟩, ?_⟩
      · intro c tf inp cur e heq
        cases heq
      · intro c x tf inp _ _ heq
        cases heq

end

/-- The protocol of destruction holds in every run that keeps its hands off the
environments of other CPUs and sets no status on a dying environment. -/
theorem destruction_of_reach {M : Machine} {K : Nat → Prop} {s : KState}
    (h : (kernel M K).Reach
      (fun s ev => Fits s ev ∧ HandsOff M s ev ∧ LeavesDying s ev) s) :
    Destruction M K (fun s ev => Fits s ev ∧ HandsOff M s ev ∧ LeavesDying s ev) s := by
  obtain ⟨hb, hs⟩ := solo_reach (h.mono fun _ _ hok => ⟨hok.1, hok.2.1⟩)
  refine ⟨fun c e hc => hb.dirInUse hc, fun e he => ?_, fun ev s' hok hstep => ?_⟩
  · obtain ⟨c, hc⟩ := hs.owned e (.inr he)
    exact ⟨c, hc, (hs.on c).not_elsewhere hc⟩
  · have hown := hs.freesOwn hok.2.1
    exact hs.dies hb hok.2.1 hok.2.2 (entry_of_step hb hok.1 hown hstep).2

theorem leavesDying_of_careful {M : Machine} {s : KState} {ev : Event}
    (h : careful M s ev = true) : LeavesDying s ev := by
  cases ev with
  | trap c tf inp =>
      intro cur hc hst e st he
      have hset := (CarefulTrap.of_careful h hc hst).sets
      rw [he] at hset
      exact of_decide_eq_true (Bool.and_eq_true_iff.mp hset).1
  | _ => trivial

/-- The child that another CPU runs is destroyed by its parent, and then its CPU has a timer
interrupt. -/
theorem destruction_forked : ∃ s s₁ s₂, s.curenv 1 = some 1 ∧ (s.envs 1).envStatus = .running ∧
    exec (pc .roundRobin) s (call 0 3#32 0x1001#32 0#32 0#32 0#32 0#32) = some s₁ ∧
    s₁.curenv 1 = some 1 ∧ (s₁.envs 1).envStatus = .dying ∧
    Destruction (pc .roundRobin) lowPages
      (fun s ev => Fits s ev ∧ HandsOff (pc .roundRobin) s ev ∧ LeavesDying s ev) s₁ ∧
    exec (pc .roundRobin) s₁ (.trap 1 { initTf with trapno := irqTimer } ⟨0#32, none, 0⟩) = some s₂ ∧
    s₂.curenv 1 = none ∧ (s₂.envs 1).envStatus = .free ∧
    Destruction (pc .roundRobin) lowPages
      (fun s ev => Fits s ev ∧ HandsOff (pc .roundRobin) s ev ∧ LeavesDying s ev) s₂ := by
  have hrun : (runCarefully (pc .roundRobin) forkedChild pcBoot).any (fun s =>
      s.curenv 1 = some 1 ∧ (s.envs 1).envStatus = .running ∧
        careful (pc .roundRobin) s (call 0 3#32 0x1001#32 0#32 0#32 0#32 0#32) = true ∧
        (exec (pc .roundRobin) s (call 0 3#32 0x1001#32 0#32 0#32 0#32 0#32)).any (fun s =>
          s.curenv 1 = some 1 ∧ (s.envs 1).envStatus = .dying ∧
            (exec (pc .roundRobin) s
              (.trap 1 { initTf with trapno := irqTimer } ⟨0#32, none, 0⟩)).any (fun s =>
                s.curenv 1 = none ∧ (s.envs 1).envStatus = .free) = true) = true) = true := by
    decide +kernel
  obtain ⟨s, hreach, hb, hs, hp⟩ := exists_careful
    (fun s ev => Fits s ev ∧ HandsOff (pc .roundRobin) s ev ∧ LeavesDying s ev)
    (fun _ _ _ hcare hfits hoff => ⟨hfits, hoff, leavesDying_of_careful hcare⟩)
    (pcBoot_booted .roundRobin) hrun
  rw [decide_eq_true_eq, Option.any_eq_true] at hp
  obtain ⟨hcur, hst, hcare, s₁, hdestroy, hp₁⟩ := hp
  rw [decide_eq_true_eq, Option.any_eq_true] at hp₁
  obtain ⟨hcur₁, hst₁, s₂, htimer, hp₂⟩ := hp₁
  rw [decide_eq_true_eq] at hp₂
  obtain ⟨hfits, hoff⟩ := careful_sound hb hs hcare
  have hreach₁ := reach_exec _ hreach ⟨hfits, hoff, leavesDying_of_careful hcare⟩ hdestroy
  -- A dying environment that traps does nothing more that a guard is about.
  have hdying : ∀ cur, s₁.curenv 1 = some cur → (s₁.envs cur).envStatus = .dying := by
    intro cur hc
    rw [hcur₁] at hc
    cases hc
    exact hst₁
  have hreach₂ := reach_exec (.trap 1 { initTf with trapno := irqTimer } ⟨0#32, none, 0⟩) hreach₁
    ⟨fun cur hc hne => absurd (hdying cur hc) hne, fun cur hc hne => absurd (hdying cur hc) hne,
      fun cur hc hne => absurd (hdying cur hc) hne⟩ htimer
  exact ⟨s, s₁, s₂, hcur, hst, hdestroy, hcur₁, hst₁, destruction_of_reach hreach₁, htimer, hp₂.1,
    hp₂.2, destruction_of_reach hreach₂⟩

/-- A parent that destroys a running child twice takes the page directory away
from the CPU that runs it. -/
theorem child_destroyed_twice : ¬ ∀ s, (kernel (pc .roundRobin) lowPages).Reach anyEvent s →
    Destruction (pc .roundRobin) lowPages anyEvent s := by
  intro hall
  have hrun : (run (pc .roundRobin) [.create emptyImage, .start 0, .start 1,
      call 0 7#32 0#32 0#32 0#32 0#32 0#32, call 0 8#32 0x1001#32 2#32 0#32 0#32 0#32,
      .wake 1 irqTimer, call 0 3#32 0x1001#32 0#32 0#32 0#32 0#32,
      call 0 3#32 0x1001#32 0#32 0#32 0#32 0#32] pcBoot).any (fun s =>
        s.curenv 1 = some 1 ∧ (s.envs 1).envPgdir = none ∧
          s.pm.pageFreeList = some (s.cpus 1).cr3) = true := by decide +kernel
  obtain ⟨s, hreach, hcur⟩ := reach_of_any (pcBoot_booted .roundRobin) hrun
  rw [decide_eq_true_eq] at hcur
  obtain ⟨hcur, hnone, _⟩ := hcur
  have hcr3 := ((hall s hreach).inUse 1 1 hcur).cr3
  rw [hnone] at hcr3
  cases hcr3

end Jos
end Sisop

import Sisop.Jos.Solo

/-!
# Waiting for a message

`env_ipc_recving` says that an environment waits for a message, and so does its
status, `ENV_NOT_RUNNABLE`.  `sys_ipc_recv` sets both, and a send clears the flag
and rewrites the status and the saved `eax` on its strength.

`sys_ipc_recv` sets the flag before it looks at its argument, and keeps it when it
fails.  `sys_env_set_status` changes the status and keeps the flag.  `Receives`
excludes both.
-/

namespace Sisop
namespace Jos

open TransitionSystem

/-- Every receive has a valid argument, no environment with its flag set is made
runnable, none that another CPU has is made runnable or destroyed while it is not
running. -/
def Receives (M : Machine) (s : KState) : Event → Prop
  | .trap c tf _ => ∀ cur, s.curenv c = some cur → (s.envs cur).envStatus ≠ .dying →
      (∀ va, recvVa tf = some va → ¬ badVa va) ∧
      (∀ e, setsStatus (trapState s c cur tf) cur tf = some (e, .runnable) →
        ¬ elsewhere s c e ∧ (s.envs e).envIpcRecving = false) ∧
      ∀ e, destroys M (trapState s c cur tf) cur tf = some e → (s.envs e).envStatus ≠ .running →
        ¬ elsewhere s c e
  | _ => True

/-- An environment whose last trap is a `sys_ipc_recv` that did not fail. -/
def InRecv (env : Env) : Prop := ∃ va, recvVa env.envTf = some va ∧ ¬ badVa va

/-- Blocked inside `sys_ipc_recv`. -/
structure Blocked (s : KState) (e : Nat) : Prop where
  status : (s.envs e).envStatus = .notRunnable
  no_cpu : ∀ c, s.curenv c ≠ some e
  call : InRecv (s.envs e)

/-- The flag is set of blocked environments alone, and so a send is for one. -/
structure RecvOnly (s : KState) : Prop where
  blocked : ∀ e, (s.envs e).envStatus ≠ .free → (s.envs e).envIpcRecving = true → Blocked s e
  send_blocked : ∀ c cur tf e, s.curenv c = some cur →
    sendsTo (trapState s c cur tf) cur tf = some e → Blocked s e

/-- The invariant while CPU `c` is in the kernel. -/
def RecvIn (c : Nat) (s : KState) : Prop :=
  ∀ e, (s.envs e).envStatus ≠ .free → (s.envs e).envIpcRecving = true →
    (s.envs e).envStatus = .notRunnable ∧ (∀ c', c' ≠ c → s.curenv c' ≠ some e) ∧
      InRecv (s.envs e)

/-- The invariant between kernel entries. -/
def RecvInv (s : KState) : Prop :=
  ∀ e, (s.envs e).envStatus ≠ .free → (s.envs e).envIpcRecving = true → Blocked s e

section

variable {M : Machine} {K : Nat → Prop} {s s₁ s₂ s' : KState} {c cur e : Nat} {tf : Trapframe}
  {fault : Prop}

theorem RecvInv.recvIn (h : RecvInv s) (c : Nat) : RecvIn c s := by
  intro e hst hrecv
  have hb := h e hst hrecv
  exact ⟨hb.status, fun c' _ => hb.no_cpu c', hb.call⟩

/-- An environment that a CPU has does not wait. -/
theorem RecvInv.current (h : RecvInv s) (hs : SoloInv s) (hc : s.curenv c = some cur) :
    (s.envs cur).envIpcRecving = false := by
  by_contra hrecv
  rw [Bool.not_eq_false] at hrecv
  exact (h cur (hs.ready c cur hc).2 hrecv).no_cpu c hc

/-- Environments other than `e` keep what the invariant speaks of. -/
theorem RecvIn.update (h : RecvIn c s) (hcur : ∀ c' x, c' ≠ c → s'.curenv c' = some x →
      s.curenv c' = some x)
    (hother : ∀ x, x ≠ e → (s'.envs x).envStatus = (s.envs x).envStatus ∧
      (s'.envs x).envIpcRecving = (s.envs x).envIpcRecving ∧
      (s'.envs x).envTf = (s.envs x).envTf)
    (hself : (s'.envs e).envStatus ≠ .free → (s'.envs e).envIpcRecving = true →
      (s'.envs e).envStatus = .notRunnable ∧ (∀ c', c' ≠ c → s'.curenv c' ≠ some e) ∧
        InRecv (s'.envs e)) : RecvIn c s' := by
  intro x hst hrecv
  by_cases hx : x = e
  · subst hx
    exact hself hst hrecv
  · obtain ⟨hst', hrecv', htf⟩ := hother x hx
    rw [hst'] at hst
    rw [hrecv'] at hrecv
    obtain ⟨hblock, hcpu, hcall⟩ := h x hst hrecv
    refine ⟨hst'.trans hblock, fun c' hne hx' => hcpu c' hne (hcur c' x hne hx'), ?_⟩
    unfold InRecv
    rw [htf]
    exact hcall

theorem RecvIn.setEnv (h : RecvIn c s) {f : Env → Env}
    (hself : (f (s.envs e)).envStatus ≠ .free → (f (s.envs e)).envIpcRecving = true →
      (f (s.envs e)).envStatus = .notRunnable ∧ (∀ c', c' ≠ c → s.curenv c' ≠ some e) ∧
        InRecv (f (s.envs e))) : RecvIn c (s.setEnv e f) := by
  refine h.update (e := e) (fun _ _ _ hx => hx) (fun x hx => ?_) ?_
  · rw [KState.envs_setEnv_of_ne _ _ _ _ hx]
    exact ⟨rfl, rfl, rfl⟩
  · rw [KState.envs_setEnv_self]
    exact hself

/-- Quiet changes, when `cur` does not wait. -/
theorem RecvIn.quiet (h : RecvIn c s) (hq : Quiet cur s s')
    (hcur : (s.envs cur).envStatus = .free ∨ (s.envs cur).envIpcRecving = false) :
    RecvIn c s' := by
  refine h.update (e := cur) (fun c' x _ hx => ?_) (fun x hx => ?_) fun hst hrecv => ?_
  · rw [hq.curenv] at hx
    exact hx
  · obtain ⟨tf, u, henv, htf⟩ := hq.envs x
    rw [henv]
    exact ⟨rfl, rfl, htf hx⟩
  · obtain ⟨tf, u, henv, _⟩ := hq.envs cur
    rw [henv] at hst hrecv
    rcases hcur with hfree | hno
    · exact absurd hfree hst
    · exact absurd (hno.symm.trans hrecv) Bool.false_ne_true

/-- The acts of an entry whose caller does not wait. -/
theorem RecvIn.act (h : RecvIn c s) (hcur : (s.envs cur).envIpcRecving = false)
    (hva : ∀ va, recvVa tf = some va → ¬ badVa va)
    (hset : ∀ e, setsStatus s cur tf = some (e, .runnable) → (s.envs e).envIpcRecving = false)
    (ha : Act M c cur tf s s') :
    RecvIn c s' ∧ ((s'.envs cur).envStatus = .free ∧ s'.curenv c = none ∨
      (s'.envs cur).envIpcRecving = false) := by
  cases ha with
  | none _ => exact ⟨h, .inr hcur⟩
  | @fork e s₁ _ halloc =>
      obtain ⟨d, hself⟩ := halloc.self
      have hnew : ((forked s₁ cur e).envs e).envIpcRecving = false := by
        rw [forked, KState.envs_setEnv_self, hself]
      have hother : ∀ x, x ≠ e → (forked s₁ cur e).envs x = s.envs x := by
        intro x hx
        rw [forked, KState.envs_setEnv_of_ne _ _ _ _ hx, halloc.other x hx]
      refine ⟨h.update (e := e) (fun c' x _ hx => ?_) (fun x hx => ?_) fun _ hrecv => ?_, .inr ?_⟩
      · rw [forked, KState.curenv_setEnv, KState.curenv, halloc.cpus] at hx
        exact hx
      · rw [hother x hx]
        exact ⟨rfl, rfl, rfl⟩
      · exact absurd (hnew.symm.trans hrecv) Bool.false_ne_true
      · by_cases hx : cur = e
        · subst hx
          exact hnew
        · rw [hother cur hx]
          exact hcur
  | @setStatus e st hset' =>
      have hrecv : ∀ x, ((s.setStatus e st).envs x).envIpcRecving = (s.envs x).envIpcRecving := by
        intro x
        rw [KState.setStatus, KState.envs_setEnv]
        split
        · rename_i hx
          rw [hx]
        · rfl
      refine ⟨h.setEnv fun _ hrecv' => ?_, .inr ((hrecv cur).trans hcur)⟩
      have hne : e ≠ cur := by
        rintro rfl
        exact Bool.false_ne_true (hcur.symm.trans hrecv')
      obtain ⟨hold, hcpu, hcall⟩ := h e ((setsStatus_ok hset').resolve_left hne) hrecv'
      refine ⟨?_, hcpu, hcall⟩
      rcases setsStatus_settable hset' with rfl | rfl
      · exact absurd ((hset e hset').symm.trans hrecv') Bool.false_ne_true
      · rfl
  | @setPriority e p _ _ =>
      refine ⟨h.update (e := e) (fun _ _ _ hx => hx) (fun x hx => ?_) fun hst hrecv => ?_, .inr ?_⟩
      · rw [prioritized, KState.envs_setEnv_of_ne _ _ _ _ hx]
        exact ⟨rfl, rfl, rfl⟩
      · rw [prioritized, KState.envs_setEnv_self] at hst hrecv ⊢
        exact h e hst hrecv
      · obtain ⟨p', henv⟩ := (prioritized_tweaked s e p).envs cur
        rw [henv]
        exact hcur
  | @dying e hd hst hne =>
      refine ⟨h.setEnv fun _ hrecv => ?_, .inr ?_⟩
      · have hblock := (h e (by rw [hst]; decide) hrecv).1
        rw [hst] at hblock
        cases hblock
      · rw [KState.setStatus, KState.envs_setEnv_of_ne _ _ _ _ hne.symm]
        exact hcur
  | @free e _ hd hst hne hf =>
      refine ⟨h.update (e := e) (fun c' x _ hx => ?_) (fun x hx => ?_) fun hlive _ => ?_, .inr ?_⟩
      · rw [hf.curenv] at hx
        exact hx
      · rw [hf.other x hx]
        exact ⟨rfl, rfl, rfl⟩
      · rw [hf.self] at hlive
        exact absurd rfl hlive
      · rw [hf.other cur hne.symm]
        exact hcur
  | exit hd hf =>
      refine ⟨h.update (e := cur) (fun c' x hne hx => ?_) (fun x hx => ?_) fun hlive _ => ?_,
        .inl ⟨?_, KState.curenv_setCurenv_self _ _ _⟩⟩
      · rw [KState.curenv_setCurenv, if_neg hne, hf.curenv] at hx
        exact hx
      · rw [KState.envs_setCurenv, hf.other x hx]
        exact ⟨rfl, rfl, rfl⟩
      · rw [KState.envs_setCurenv, hf.self] at hlive
        exact absurd rfl hlive
      · rw [KState.envs_setCurenv, hf.self]
  | @send dst hto =>
      refine ⟨h.update (e := dst) (fun _ _ _ hx => hx) (fun x hx => ?_) fun _ hrecv => ?_,
        .inr ?_⟩
      · rw [envs_delivered_of_ne hx]
        exact ⟨rfl, rfl, rfl⟩
      · rw [envs_delivered_self] at hrecv
        cases hrecv
      · by_cases hx : cur = dst
        · rw [← hx, envs_delivered_self]
        · rw [envs_delivered_of_ne hx]
          exact hcur
  | @recvFail va hva' hbad => exact absurd hbad (hva va hva')

/-- Before CPU `c` reschedules, only its own environment may be blocked on a CPU,
and not after a page fault. -/
theorem RecvIn.resched (h : RecvIn c s) (hr : Resched M c fault s s')
    (hfault : fault → ∀ x, s.curenv c = some x → (s.envs x).envIpcRecving = false) :
    RecvInv s' := by
  cases hr with
  | @run s₁ e d ht he hr =>
      -- The environment that runs next does not wait.
      have hno : (s.envs e).envIpcRecving = false := by
        by_contra hrecv
        rw [Bool.not_eq_false] at hrecv
        rcases he with hst | ⟨hc, hst | hf⟩
        · have hblock := (h e (by rw [hst]; decide) hrecv).1
          rw [hst] at hblock
          cases hblock
        · have hblock := (h e (by rw [hst]; decide) hrecv).1
          rw [hst] at hblock
          cases hblock
        · exact Bool.false_ne_true ((hfault hf e hc).symm.trans hrecv)
      intro x hst hrecv
      have hx : x ≠ e := by
        rintro rfl
        obtain ⟨p, htw⟩ := ht.envs x
        rw [hr.self, htw] at hrecv
        exact Bool.false_ne_true (hno.symm.trans hrecv)
      obtain ⟨p, htw⟩ := ht.envs x
      have hsame : s'.envs x = { s.envs x with envPriority := p } ∨
          (s.envs x).envStatus = .running ∧
            s'.envs x = { s.envs x with envPriority := p, envStatus := .runnable } := by
        rw [hr.other x hx, htw]
        split
        · rename_i hpre
          exact .inr ⟨hpre.2, rfl⟩
        · exact .inl rfl
      rcases hsame with hsame | ⟨hrun, hsame⟩
      · rw [hsame] at hst hrecv
        obtain ⟨hblock, hcpu, hcall⟩ := h x hst hrecv
        refine ⟨by rw [hsame]; exact hblock, fun c' hx' => ?_, by rw [InRecv, hsame]; exact hcall⟩
        rw [KState.curenv, hr.cpus] at hx'
        split at hx'
        · exact hx (Option.some.inj hx').symm
        · rename_i hne
          exact hcpu c' hne ((ht.curenv c').symm.trans hx')
      · rw [hsame] at hrecv
        have hblock := (h x (by rw [hrun]; decide) hrecv).1
        rw [hrun] at hblock
        cases hblock
  | @halt s₁ ht _ hh =>
      intro x hst hrecv
      obtain ⟨p, htw⟩ := ht.envs x
      rw [hh.envs, htw] at hst hrecv
      obtain ⟨hblock, hcpu, hcall⟩ := h x hst hrecv
      refine ⟨?_, fun c' hx => ?_, ?_⟩
      · rw [hh.envs, htw]
        exact hblock
      · rw [KState.curenv, hh.cpus] at hx
        split at hx
        · cases hx
        · rename_i hne
          exact hcpu c' hne ((ht.curenv c').symm.trans hx)
      · rw [InRecv, hh.envs, htw]
        exact hcall

theorem RecvInv.trapState (h : RecvInv s) (hs : SoloInv s) (hc : s.curenv c = some cur)
    (tf : Trapframe) : RecvIn c (trapState s c cur tf) := by
  refine (h.recvIn c).update (e := cur) (fun c' x _ hx => ?_) (fun x hx => ?_) fun _ hrecv => ?_
  · rw [curenv_trapState] at hx
    exact hx
  · rw [Jos.trapState, saveTf, KState.envs_setEnv_of_ne _ _ _ _ hx]
    exact ⟨rfl, rfl, rfl⟩
  · rw [Jos.trapState, saveTf, KState.envs_setEnv_self] at hrecv
    exact absurd ((h.current hs hc).symm.trans hrecv) Bool.false_ne_true

theorem trapState_recving (s : KState) (c cur x : Nat) (tf : Trapframe) :
    ((trapState s c cur tf).envs x).envIpcRecving = (s.envs x).envIpcRecving := by
  rw [trapState, saveTf, KState.envs_setEnv]
  split
  · rename_i hx
    rw [hx]
    rfl
  · rfl

theorem RecvInv.cpuStarted (h : RecvInv s) (c : Nat) : RecvInv (cpuStarted s c) := by
  intro x hst hrecv
  have hb := h x hst hrecv
  refine ⟨hb.status, fun c' hx => hb.no_cpu c' ?_, hb.call⟩
  rw [curenv_cpuStarted] at hx
  exact hx

/-- A send finds a blocked environment. -/
theorem RecvInv.send_blocked (h : RecvInv s) (hs : SoloInv s) (hc : s.curenv c = some cur)
    (hto : sendsTo (Jos.trapState s c cur tf) cur tf = some e) : Blocked s e := by
  obtain ⟨hlive, hrecv⟩ := sendsTo_ok hto
  rw [trapState_status] at hlive
  rw [trapState_recving] at hrecv
  refine h e ?_ hrecv
  rcases hlive with rfl | hlive
  · exact (hs.ready c e hc).2
  · exact hlive

/-- With `Receives` the steps keep their hands off. -/
theorem RecvInv.handsOff (h : RecvInv s) (hs : SoloInv s) {ev : Event}
    (hok : Receives M s ev) : HandsOff M s ev := by
  cases ev with
  | trap c tf inp =>
      intro cur hc hst
      obtain ⟨_, hset, hdestroy⟩ := hok cur hc hst
      refine ⟨fun e he => (hset e he).1, fun e he => ?_, hdestroy⟩
      rintro ⟨c', _, hc'⟩
      exact (h.send_blocked hs hc he).no_cpu c' hc'
  | create elf => trivial
  | start c => trivial
  | wake c trapno => trivial
  | store c va b => trivial

theorem RecvInv.step (h : RecvInv s) (hs : SoloInv s) {ev : Event}
    (hok : Receives M s ev) (he : Entry M s ev s') : RecvInv s' := by
  cases he with
  | @create elf e s₁ s' ha hq =>
      intro x hst hrecv
      obtain ⟨tf, u, henv, htf⟩ := hq.envs x
      have hx : x ≠ e := by
        rintro rfl
        obtain ⟨d, hself⟩ := ha.self
        rw [henv, hself] at hrecv
        cases hrecv
      rw [henv, ha.other x hx] at hst hrecv
      have hblock := h x hst hrecv
      refine ⟨?_, fun c hc => hblock.no_cpu c ?_, ?_⟩
      · rw [henv, ha.other x hx]
        exact hblock.status
      · rw [hq.curenv, KState.curenv, ha.cpus] at hc
        exact hc
      · rw [InRecv, henv, htf hx, ha.other x hx]
        exact hblock.call
  | start hc hr => exact (h.recvIn _).resched hr.resched False.elim
  | @wake c trapno s' hc hr => exact ((h.cpuStarted c).recvIn c).resched hr.resched False.elim
  | @collect c cur tf inp s₁ s' hc hst hf hr =>
      refine (((h.cpuStarted c).recvIn c).update (e := cur) (fun c' x hne hx => ?_)
        (fun x hx => ?_) fun hlive _ => ?_).resched hr.resched False.elim
      · rw [KState.curenv_setCurenv, if_neg hne, hf.curenv] at hx
        exact hx
      · rw [KState.envs_setCurenv, hf.other x hx]
        exact ⟨rfl, rfl, rfl⟩
      · rw [KState.envs_setCurenv, hf.self] at hlive
        exact absurd rfl hlive
  | @trap c cur tf inp s₂ s' hc hst hbody hr =>
      obtain ⟨hva, hset, hdestroy⟩ := hok cur hc hst
      have hin := h.trapState hs hc tf
      have hcur : ((Jos.trapState s c cur tf).envs cur).envIpcRecving = false :=
        (trapState_recving s c cur cur tf).trans (h.current hs hc)
      have hc₀ : (Jos.trapState s c cur tf).curenv c = some cur :=
        (curenv_trapState s c cur c tf).trans hc
      have hcases := hbody.curenv_cases c
      cases hbody with
      | @act s₁ _ ha hq =>
          obtain ⟨hin₁, hno⟩ := hin.act hcur hva (fun e he => by
            rw [trapState_recving]
            exact (hset e he).2) ha
          have hquiet := hin₁.quiet hq (hno.imp (fun hfree => hfree.1) id)
          refine hquiet.resched hr.resched fun _ x hx => ?_
          rcases hcases with hsame | ⟨_, hnone⟩
          · rw [hsame, hc₀] at hx
            cases hx
            obtain ⟨tf', u, henv, _⟩ := hq.envs cur
            rw [henv]
            refine hno.resolve_left fun hfree => ?_
            rw [hq.curenv, hfree.2, hc₀] at hsame
            cases hsame
          · rw [hnone] at hx
            cases hx
      | @recv va hva' hgood =>
          refine RecvIn.resched (hin.setEnv fun _ _ => ⟨rfl, fun c' hne hx => ?_, va, ?_, hgood⟩)
            hr.resched fun hpf => ?_
          · rw [curenv_trapState] at hx
            exact hne (hs.one_cpu c' c cur hx hc)
          · rw [Jos.trapState, saveTf, KState.envs_setEnv_self]
            exact hva'
          · unfold recvVa at hva'
            rw [hpf, if_neg fun hcall => absurd hcall.1 (by decide)] at hva'
            cases hva'
  | store m => exact fun x hst hrecv => ⟨(h x hst hrecv).status, (h x hst hrecv).no_cpu,
      (h x hst hrecv).call⟩

theorem Booted.recvInv (h : Booted M K s) : RecvInv s := by
  intro x hst _
  obtain ⟨envs, _, henvs⟩ := h.envs
  rw [henvs] at hst
  exact absurd rfl hst

/-! ## Runs -/

theorem recv_step {ev : Event} (h : BaseInv M K s ∧ SoloInv s ∧ RecvInv s) (hfits : Fits s ev)
    (hok : Receives M s ev) (hstep : (kernel M K).step s ev s') :
    BaseInv M K s' ∧ SoloInv s' ∧ RecvInv s' := by
  obtain ⟨hb, hsolo, hrecv⟩ := h
  have hoff := hrecv.handsOff hsolo hok
  have hown := hsolo.freesOwn hoff
  have hentry := (entry_of_step hb hfits hown hstep).2
  exact ⟨allows_landing (outcome_landing hb hstep.1 hfits hown) hstep.2,
    hsolo.step hb hoff hentry, hrecv.step hsolo hok hentry⟩

theorem recv_reach (h : (kernel M K).Reach (fun s ev => Fits s ev ∧ Receives M s ev) s) :
    BaseInv M K s ∧ SoloInv s ∧ RecvInv s :=
  h.invariant (P := fun s => BaseInv M K s ∧ SoloInv s ∧ RecvInv s)
    (fun _ hs => ⟨Booted.base hs, Booted.solo hs, Booted.recvInv hs⟩)
    fun _ _ _ hs hok hstep => recv_step hs hok.1 hok.2 hstep

end

/-- Only blocked environments have `env_ipc_recving` set, in every run whose
receives are valid and which makes no waiting environment runnable but by a send. -/
theorem recvOnly_of_reach {M : Machine} {K : Nat → Prop} {s : KState}
    (h : (kernel M K).Reach (fun s ev => Fits s ev ∧ Receives M s ev) s) : RecvOnly s := by
  obtain ⟨_, hs, hr⟩ := recv_reach h
  exact ⟨hr, fun c cur tf e hc hto => hr.send_blocked hs hc hto⟩

/-- An environment that waits, with a second one running on another CPU. -/
theorem recvOnly_pc : ∃ s, (s.envs 0).envIpcRecving = true ∧ s.curenv 1 = some 1 ∧
    RecvOnly s := by
  have hrun : (run (pc .roundRobin) [.create emptyImage, .create emptyImage, .start 0, .start 1]
      pcBoot).any (fun s => s.curenv 0 = some 0 ∧
        (exec (pc .roundRobin) s (call 0 12#32 0x1000#32 0#32 0#32 0#32 0#32)).any (fun s =>
          (s.envs 0).envIpcRecving = true ∧ s.curenv 1 = some 1) = true) = true := by
    decide +kernel
  have hguard : ∀ s, ∀ ev ∈ [Event.create emptyImage, .create emptyImage, .start 0, .start 1],
      Fits s ev ∧ Receives (pc .roundRobin) s ev := by
    intro s ev hev
    simp only [List.mem_cons, List.not_mem_nil, or_false] at hev
    rcases hev with rfl | rfl | rfl | rfl <;> exact ⟨trivial, trivial⟩
  obtain ⟨s, hreach, hcur⟩ := exists_reach (pcBoot_booted .roundRobin) hguard hrun
  rw [decide_eq_true_eq] at hcur
  obtain ⟨hc, hcall⟩ := hcur
  cases hx : exec (pc .roundRobin) s (call 0 12#32 0x1000#32 0#32 0#32 0#32 0#32) with
  | none => simp [hx] at hcall
  | some s' =>
      rw [hx, Option.any_some, decide_eq_true_eq] at hcall
      refine ⟨s', hcall.1, hcall.2, recvOnly_of_reach (reach_exec _ hreach ⟨?_, ?_⟩ hx)⟩
      · intro cur hcur
        obtain rfl := Option.some.inj (hc.symm.trans hcur)
        exact fun _ => ⟨fun _ => by decide, fun _ => trivial⟩
      · intro cur _ _
        refine ⟨fun va hva => ?_, fun e he => ?_, fun e he _ => ?_⟩
        · obtain rfl : (0x1000#32 : Word) = va := Option.some.inj hva
          decide
        · cases he
        · cases he

/-- A receive that fails leaves the flag set of an environment that runs. -/
theorem flag_after_failed_recv : ¬ ∀ s, (kernel (pc .roundRobin) lowPages).Reach anyEvent s →
    RecvOnly s := by
  intro hall
  have hrun : (run (pc .roundRobin) [.create emptyImage, .start 0,
      call 0 12#32 1#32 0#32 0#32 0#32 0#32] pcBoot).any (fun s =>
        (s.envs 0).envStatus = .running ∧ (s.envs 0).envIpcRecving = true) = true := by decide
  obtain ⟨s, hreach, hflag⟩ := reach_of_any (pcBoot_booted .roundRobin) hrun
  rw [decide_eq_true_eq] at hflag
  have hblock := ((hall s hreach).blocked 0 (by rw [hflag.1]; decide) hflag.2).status
  rw [hflag.1] at hblock
  cases hblock

end Jos
end Sisop

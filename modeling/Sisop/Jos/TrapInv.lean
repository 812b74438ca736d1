import Sisop.Jos.SyscallInv

/-!
# Runs of the kernel keep memory and the table in agreement

The last part of the traversal: system call dispatch, page faults, interrupts,
the creation of the first environments and stores from user mode.  `base_reach`
is the result for whole runs.
-/

namespace Sisop
namespace Jos

open RefCount Exit TransitionSystem

section

variable {M : Machine} {K : Nat → Prop} {s : KState} {c cur e : Nat}

namespace Calling

theorem sysIpcRecv_returns (h : Calling M K c cur s) {dstva : Word}
    (hlt : ¬ badVa dstva → cur + 1 < nenv) : Returns M K c cur (sysIpcRecv M s c cur dstva) := by
  unfold sysIpcRecv
  have h₁ : Calling M K c cur (s.setEnv cur fun env => { env with envIpcRecving := true }) :=
    h.setEnv ⟨rfl, rfl, rfl, Iff.rfl, id⟩ rfl
  by_cases hva : badVa dstva
  · rw [if_pos hva]
    exact returns_ok h₁
  · rw [if_neg hva]
    have h₂ := h₁.setEnvStatus (e := cur) (f := fun env =>
      { env with envIpcDstva := dstva, envStatus := .notRunnable })
      ⟨rfl, rfl, rfl, iff_of_false (fun h0 => EnvStatus.noConfusion h0)
        (h₁.base.not_free h₁.dir), fun _ => BitVec.not_le.mp (not_or.mp hva).1⟩ fun _ => hlt hva
    exact post_error.mpr (h₂.schedYield_landing (hlt hva))

/-- `syscall`, when the page it maps fits and the environment it frees runs on no
other CPU. -/
theorem syscall_returns (h : Calling M K c cur s) {r : PushRegs} {inp : Inputs}
    (hyield : syscallYields s cur r → cur + 1 < nenv) (hfit : PagesFit s cur r)
    (hother : ∀ e, syscallDestroys M s cur r = some e →
      ¬ ((s.envs e).envStatus = .running ∧ e ≠ cur) → ¬ elsewhere s c e) :
    Returns M K c cur (syscall M s c cur r inp) := by
  unfold syscallYields at hyield
  unfold PagesFit at hfit
  unfold syscallDestroys at hother
  unfold syscall
  cases hno : sysno r.eax with
  | none => exact returns_ok h
  | some no =>
      simp only [hno] at hyield hfit hother
      cases no with
      | cputs =>
          refine h.sysCputs_returns fun hf => hother cur ?_ fun hne => hne.2 rfl
          rw [if_pos hf]
      | cgetc => exact returns_ok h
      | getenvid => exact returns_ok h
      | envDestroy =>
          refine h.sysEnvDestroy_returns fun e he => hother e ?_
          rw [he]
          rfl
      | pageAlloc => exact h.sysPageAlloc_returns _ _ _
      | pageMap => exact h.sysPageMap_returns hfit
      | pageUnmap => exact h.sysPageUnmap_returns _ _
      | exofork => exact post_ok.mpr h.sysExofork_calling
      | envSetStatus => exact post_ok.mpr (h.sysEnvSetStatus_calling hyield)
      | envSetPgfaultUpcall =>
          refine h.sysEnvSetPgfaultUpcall_returns fun e he hf => hother e ?_
          rw [he]
          exact if_pos hf
      | yield => exact post_error.mpr (h.schedYield_landing (hyield trivial))
      | ipcTrySend => exact h.sysIpcTrySend_returns hfit hyield
      | ipcRecv => exact h.sysIpcRecv_returns hyield
      | envGetPriority => exact returns_ok h
      | envSetPriority => exact post_ok.mpr (h.sysEnvSetPriority_calling _ _)

end Calling

/-! ## Page faults -/

theorem kernelStoreBytes_post {m : PMap} {dirs : Nat → Option Nat} {free : List Nat}
    {held : Nat → Nat} {d : Nat} {L : KState → Prop} (h : PageInv M K m dirs free held)
    (hd : dirs e = some d) {va : Word} {bs : List (BitVec 8)}
    (hva : bs = [] ∨ va.toNat + bs.length ≤ utop.toNat) :
    Post (kernelStoreBytes m d va bs) (fun m' => PageInv M K m' dirs free held) (Landing L) := by
  rw [kernelStoreBytes_low hva]
  cases hs : storeBytes m d kernelStore va bs with
  | none => exact post_error.mpr trivial
  | some m' =>
      refine post_ok.mpr ?_
      rcases hva with rfl | hlen
      · cases hs
        exact h
      · exact (h.storeBytes_spec hd _ hlen hs).1

theorem length_bytes (u : UTrapframe) : u.bytes.length = sizeofUTrapframe := rfl

/-- The push of `page_fault_handler` ends below `UTOP` for every stack pointer. -/
theorem utfAddr_le (esp : Word) : (utfAddr esp).toNat + sizeofUTrapframe ≤ utop.toNat := by
  have htop : exstkTop.toNat = 4005560319 := by decide
  have hexstk : exstk.toNat = 4005556224 := by decide
  have hutop : utop.toNat = 4005560320 := rfl
  unfold utfAddr
  split
  · have hpush : (exstkTop - 52#32).toNat = 4005560267 := by decide
    rw [hpush]
    decide
  · rename_i hin
    rw [not_or, BitVec.not_lt, BitVec.not_lt, BitVec.le_def, BitVec.le_def] at hin
    have hesp : (esp - 4#32 - 52#32).toNat = esp.toNat - 56 := by
      simp only [BitVec.toNat_sub, BitVec.toNat_ofNat]
      omega
    rw [hesp, sizeofUTrapframe]
    omega

theorem pushUtf_post {m : PMap} {dirs : Nat → Option Nat} {free : List Nat} {held : Nat → Nat}
    {d : Nat} {L : KState → Prop} (h : PageInv M K m dirs free held) (hd : dirs e = some d)
    (u : UTrapframe) :
    Post (pushUtf m d u) (fun m' => PageInv M K m' dirs free held) (Landing L) := by
  unfold pushUtf pushScratch
  refine Post.bind (Q := fun m' => PageInv M K m' dirs free held) ?_ fun m' h' => ?_
  · split
    · exact post_ok.mpr h
    · rename_i hin
      refine kernelStoreBytes_post h hd (.inr ?_)
      have hexstk : exstk.toNat = 4005556224 := by decide
      have htop : exstkTop.toNat = 4005560319 := by decide
      have hutop : utop.toNat = 4005560320 := rfl
      rw [not_or, BitVec.not_lt, BitVec.not_lt, BitVec.le_def, BitVec.le_def] at hin
      have hesp : (u.utfEsp - 4#32).toNat = u.utfEsp.toNat - 4 := by
        simp only [BitVec.toNat_sub, BitVec.toNat_ofNat]
        omega
      rw [hesp, show (wordBytes 0#32).length = 4 from rfl]
      omega
  · refine kernelStoreBytes_post h' hd (.inr ?_)
    rw [length_bytes]
    exact utfAddr_le _

namespace Calling

theorem pageFaultHandler_post (h : Calling M K c cur s) (faultVa : Word)
    (hother : ((s.envs cur).envPgfaultUpcall ≠ 0#32 →
      checkFails M s cur exstk 4096#32 (pteU ||| pteW) = true) → ¬ elsewhere s c cur) :
    Post (pageFaultHandler M s c cur faultVa) (InKernel M K c) (Landing (BaseInv M K)) := by
  unfold pageFaultHandler
  by_cases hup : (s.envs cur).envPgfaultUpcall ≠ 0#32
  · rw [if_pos hup]
    refine Post.bind (h.userMemAssert_post h.dir fun hf _ => hother fun _ => hf) ?_
    rintro s' ⟨h', hsame | hne⟩
    · subst hsame
      obtain ⟨free, hp⟩ := h.base.pages
      refine Post.bind (pushUtf_post hp h.cr3 _) fun m hm => ?_
      have hcall : Calling M K c cur { s' with pm := m } := h.setPm ⟨free, hm⟩
      dsimp only
      split
      · exact post_error.mpr trivial
      · refine post_error.mpr (InKernel.envRun_landing (hcall.setEnv (e := cur) (f := fun env =>
          { env with
            envTf :=
              { env.envTf with
                esp := utfAddr (s'.envs cur).envTf.esp
                eip := env.envPgfaultUpcall } })
          ⟨rfl, rfl, rfl, Iff.rfl, id⟩ rfl).toInKernel ?_)
        rw [KState.envs_setEnv_self]
        exact h.dir
    · exact absurd rfl hne
  · rw [if_neg hup]
    refine (h.envDestroy_post h.dir fun _ => hother fun hne => absurd hne hup).imp ?_
      fun _ hl => hl
    exact fun s' hs' => hs'.1

theorem trapDispatch_post (h : Calling M K c cur s) {tf : Trapframe} {inp : Inputs}
    (hyield : Yields s cur tf → cur + 1 < nenv)
    (hfit : tf.trapno = tSyscall → PagesFit s cur tf.regs)
    (hother : ∀ e, destroys M s cur tf = some e →
      ¬ ((s.envs e).envStatus = .running ∧ e ≠ cur) → ¬ elsewhere s c e) :
    Post (trapDispatch M s c cur tf inp) (InKernel M K c) (Landing (BaseInv M K)) := by
  unfold destroys at hother
  unfold trapDispatch
  by_cases hbrk : tf.trapno = tBrkpt
  · rw [if_pos hbrk]
    exact post_ok.mpr h.toInKernel
  · rw [if_neg hbrk] at hother ⊢
    by_cases hpf : tf.trapno = tPgflt
    · rw [if_pos hpf] at hother ⊢
      refine h.pageFaultHandler_post _ fun hf => hother cur ?_ fun hne => hne.2 rfl
      by_cases hup : (s.envs cur).envPgfaultUpcall ≠ 0#32
      · rw [if_pos hup, if_pos (hf hup)]
      · rw [if_neg hup]
    · rw [if_neg hpf] at hother ⊢
      by_cases hsys : tf.trapno = tSyscall
      · rw [if_pos hsys] at hother ⊢
        refine Post.bind (h.syscall_returns (fun hy => hyield (.inr (.inr ⟨hsys, hy⟩)))
          (hfit hsys) hother) ?_
        rintro ⟨r, s'⟩ hs'
        exact post_pure.mpr (hs'.toInKernel.setEnv ⟨rfl, rfl, rfl, Iff.rfl, id⟩ rfl)
      · rw [if_neg hsys] at hother ⊢
        by_cases hspur : tf.trapno = irqSpurious
        · rw [if_pos hspur]
          exact post_ok.mpr h.toInKernel
        · rw [if_neg hspur]
          by_cases htim : tf.trapno = irqTimer
          · rw [if_pos htim]
            exact post_error.mpr (h.schedYield_landing (hyield (.inr (.inl htim))))
          · rw [if_neg htim]
            rw [if_neg (not_or.mpr ⟨hspur, htim⟩)] at hother
            refine (h.envDestroy_post h.dir fun _ => hother cur rfl fun hne => hne.2 rfl).imp ?_
              fun _ hl => hl
            exact fun s' hs' => hs'.1

end Calling

/-! ## Steps of the kernel -/

theorem BaseInv.cpuStarted (h : BaseInv M K s) (c : Nat) : BaseInv M K (cpuStarted s c) := by
  have hcr3 : ∀ c', ((Jos.cpuStarted s c).cpus c').cr3 = (s.cpus c').cr3 := by
    intro c'
    rw [Jos.cpuStarted, KState.cpus_setCpu]
    split
    · rename_i hc
      rw [hc]
    · rfl
  refine h.congr rfl rfl (fun x => SameSlot.refl _) (fun c' x hc => ?_) (fun c' hh => ?_)
  · rw [curenv_cpuStarted] at hc
    rw [hcr3]
    exact h.cpu c' x hc
  · rw [curenv_cpuStarted]
    rw [Jos.cpuStarted, KState.cpus_setCpu] at hh
    split at hh
    · cases hh
    · exact h.halted c' hh

theorem started_cpuStarted (s : KState) (c : Nat) :
    ((cpuStarted s c).cpus c).cpuStatus = .started := by
  rw [cpuStarted, KState.cpus_setCpu, if_pos rfl]

theorem BaseInv.trapState (h : BaseInv M K s) (hc : s.curenv c = some cur)
    (hlt : (s.envs cur).envStatus = .running ∨ cur + 1 < nenv) (tf : Trapframe) :
    Calling M K c cur (trapState s c cur tf) := by
  have hcall : Calling M K c cur (Jos.cpuStarted s c) := by
    have hc' : (Jos.cpuStarted s c).curenv c = some cur := by rw [curenv_cpuStarted, hc]
    refine ⟨⟨h.cpuStarted c, started_cpuStarted s c, fun cur' hcur' => ?_⟩, hc'⟩
    rw [hc'] at hcur'
    cases hcur'
    exact hlt
  exact hcall.setEnv (e := cur) (f := fun env => { env with envTf := tf })
    ⟨rfl, rfl, rfl, Iff.rfl, id⟩ rfl

theorem curenv_trapState (s : KState) (c cur c' : Nat) (tf : Trapframe) :
    (trapState s c cur tf).curenv c' = s.curenv c' := curenv_cpuStarted s c c'

theorem elsewhere_trapState {c' : Nat} {tf : Trapframe} :
    elsewhere (trapState s c cur tf) c' e ↔ elsewhere s c' e := by
  unfold elsewhere
  simp only [curenv_trapState]

theorem dirs_trapState (s : KState) (c cur : Nat) (tf : Trapframe) :
    (trapState s c cur tf).dirs = s.dirs := by
  rw [trapState, saveTf, KState.dirs_setEnv (h := rfl)]
  exact KState.dirs_setCpu _ _ _

theorem dirs_setEax (s : KState) (cur : Nat) (r : Int) : (setEax s cur r).dirs = s.dirs := by
  rw [setEax, KState.dirs_setEnv (h := rfl)]

theorem trapState_status (s : KState) (c cur x : Nat) (tf : Trapframe) :
    ((trapState s c cur tf).envs x).envStatus = (s.envs x).envStatus := by
  rw [trapState, saveTf, KState.envs_setEnv]
  split
  · rename_i hx
    rw [hx]
    rfl
  · rfl

theorem trap_landing (h : BaseInv M K s) {tf : Trapframe} {inp : Inputs}
    (hc : s.curenv c = some cur) (hfit : Fits s (.trap c tf inp))
    (hown : FreesOwn M s (.trap c tf inp)) : Landing (BaseInv M K) (trap M s c tf inp) := by
  obtain ⟨hdying, hdestroy⟩ := hown cur hc
  unfold trap
  simp only [curenv_cpuStarted, hc]
  by_cases hst : (s.envs cur).envStatus = .dying
  · have hst' : ((cpuStarted s c).envs cur).envStatus = .dying := hst
    rw [if_pos hst']
    have hother : ¬ elsewhere (cpuStarted s c) c cur := by
      rintro ⟨c', hne, hc'⟩
      rw [curenv_cpuStarted] at hc'
      exact hdying hst ⟨c', hne, hc'⟩
    have hfree := (h.cpuStarted c).envFree_post (started_cpuStarted s c) (fun cur' hcur' hne => by
      rw [curenv_cpuStarted, hc] at hcur'
      exact absurd (Option.some.inj hcur').symm hne) (h.cur_dir hc) hother
    refine post_endOf (Post.bind (hfree.imp (fun _ hq => hq) fun _ hf => hf.elim) fun s' hs' => ?_)
    refine post_pure.mpr (hs'.1.schedYield_landing fun cur' hcur' => ?_)
    rw [KState.curenv_setCurenv_self] at hcur'
    cases hcur'
  · have hst' : ¬ ((cpuStarted s c).envs cur).envStatus = .dying := hst
    rw [if_neg hst']
    obtain ⟨hyield, hpages⟩ := hfit cur hc hst
    have htable : (s.envs cur).envStatus = .running ∨ cur + 1 < nenv := by
      by_cases hrun : (s.envs cur).envStatus = .running
      · exact .inl hrun
      · exact .inr (hyield (.inl (by rw [trapState_status]; exact hrun)))
    have hcall := h.trapState hc htable tf
    refine post_endOf (Post.bind (hcall.trapDispatch_post hyield hpages fun e he hrun => ?_)
      fun s' hs' => post_pure.mpr hs'.trapReturn_landing)
    rw [elsewhere_trapState]
    refine hdestroy hst e he ?_
    rw [trapState_status] at hrun
    exact hrun

theorem wake_landing (h : BaseInv M K s) (hh : (s.cpus c).cpuStatus = .halted) (trapno : Word) :
    Landing (BaseInv M K) (wake M s c trapno) := by
  have hin : InKernel M K c (cpuStarted s c) := by
    refine ⟨h.cpuStarted c, started_cpuStarted s c, fun cur' hcur' => ?_⟩
    rw [curenv_cpuStarted, h.halted c hh] at hcur'
    cases hcur'
  unfold wake
  dsimp only
  split
  · refine hin.schedYield_landing fun cur' hcur' => ?_
    rw [curenv_cpuStarted, h.halted c hh] at hcur'
    cases hcur'
  · split
    · exact hin.trapReturn_landing
    · trivial

end

end Jos
end Sisop

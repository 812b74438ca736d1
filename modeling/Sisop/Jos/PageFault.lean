import Sisop.Jos.Entry
import Sisop.Jos.Upcall
import Sisop.Jos.UserCheck

/-!
# Page faults of a user program

`page_fault_handler` stores the frame before it looks at where the frame is.  With the
stack pointer of the fault within a frame of the bottom of the exception stack, part of
the frame is below it, and either the store itself faults in the kernel or the test that
follows it stops the kernel.  Everywhere else the handler delivers the fault, or destroys
the environment when it has no exception stack.
-/

namespace Sisop
namespace Jos

open Exit TransitionSystem

/-- The fault is delivered: the frame is on the exception stack, at offset `f` of physical
page `q`, no other byte is written, and the environment goes on at its upcall. -/
structure Resumed (M : Machine) (s : KState) (c cur : Nat) (faultVa : Word) (f q : Nat)
    (s' : KState) : Prop where
  page : translate s.pm (s.cpus c).cr3 userStore exstk = some q
  pushed : Pushed (s.cpus c).cr3 q f faultVa (s.envs cur).envTf s.pm s'.pm
  runs : pageFaultHandler M s c cur faultVa = .error (.left s')
  curenv : s'.curenv c = some cur
  tf : (s'.envs cur).envTf = { (s.envs cur).envTf with
    esp := exstkVa f, eip := (s.envs cur).envPgfaultUpcall }

/-- The environment is destroyed, from the state the fault found, and the kernel goes on
with another one or stops in the monitor for want of any. -/
structure Destroyed (M : Machine) (s : KState) (c cur : Nat) (faultVa : Word) : Prop where
  runs : pageFaultHandler M s c cur faultVa = envDestroy M s c cur
  gone : envDestroy M s c cur = .error .monitor ∨
    ∃ s', envDestroy M s c cur = .error (.left s') ∧ (s'.envs cur).envStatus = .free

/-- What the comment of `page_fault_handler` promises of one fault. -/
def FaultContract (M : Machine) (s : KState) (c cur : Nat) (faultVa : Word) : Prop :=
  (∃ f q s', Resumed M s c cur faultVa f q s') ∨ Destroyed M s c cur faultVa

section

variable {M : Machine} {K : Nat → Prop} {s : KState} {c cur q : Nat} {faultVa : Word}

/-! ## The check of the exception stack -/

/-- The check of `page_fault_handler` passes when the program can write its exception
stack. -/
theorem checkFails_exstk (h : BaseInv M K s) (hcur : s.curenv c = some cur) :
    checkFails M s cur exstk 4096#32 (pteU ||| pteW) = false ↔
      translate s.pm (s.cpus c).cr3 userStore exstk ≠ none := by
  obtain ⟨free, hp⟩ := h.pages
  have hd : s.dirs cur = some (s.cpus c).cr3 := h.cpu c cur hcur
  have hi : pdx exstk < pdxUtop := by decide
  have hneed : pteU ||| pteW ||| pteU ||| pteP = userStore := by decide
  have hentry : Allowed s.pm (s.cpus c).cr3 (pteU ||| pteW ||| pteU) exstk.toNat ↔
      translate s.pm (s.cpus c).cr3 userStore exstk ≠ none := by
    rw [allowed_iff exstk (by decide) rfl, hneed,
      hp.translate_userStore hd hi]
  have hend : (roundup (exstk + 4096#32)).toNat = 4005560320 := by decide
  have hexstk : exstk.toNat = 4005556224 := by decide
  unfold checkFails
  rw [show (s.envs cur).envPgdir = some (s.cpus c).cr3 from hd]
  rcases hp.userMemCheck_spec hd exstk 4096#32
    (pteU ||| pteW ||| pteU) (by decide) with
    ⟨hrun, hall⟩ | ⟨p, hrun, hal, hle, hlt, _, hpage⟩
  · rw [hrun]
    exact iff_of_true rfl (hentry.mp (hall _ (by decide) (by decide)))
  · rw [hrun]
    refine iff_of_false (fun h0 => Bool.noConfusion h0) fun hne => hpage _ ?_ ?_ (hentry.mpr hne)
    · omega
    · omega

/-! ## Destroying the environment -/

/-- `env_free` of the current environment does not stop the kernel: every page it gives
back is counted. -/
theorem envFree_cur (h : BaseInv M K s) (hcur : s.curenv c = some cur) :
    ∃ s', envFree M s c cur = .ok s' ∧ Freed s cur s' := by
  obtain ⟨free, hp⟩ := h.pages
  have hd : (s.envs cur).envPgdir = some (s.cpus c).cr3 := h.cpu c cur hcur
  have hpages := hp.envFreePages_spec (show s.dirs cur = some (s.cpus c).cr3 from hd)
  have hok : ∃ s', envFree M s c cur = .ok s' := by
    unfold envFree
    simp only [hcur, if_true, KState.envs_lcr3, hd, KState.pm_lcr3]
    cases hfree : envFreePages M s.pm (s.cpus c).cr3 with
    | error msg => exact absurd (hpages.exit hfree) id
    | ok m => exact ⟨_, rfl⟩
  obtain ⟨s', hs'⟩ := hok
  exact ⟨s', hs', (envFree_freed M s c cur).value hs'⟩

/-- `env_destroy` of the current environment frees it and does not return. -/
theorem envDestroy_cur (h : BaseInv M K s) (hcur : s.curenv c = some cur) :
    envDestroy M s c cur = .error .monitor ∨
      ∃ s', envDestroy M s c cur = .error (.left s') ∧ (s'.envs cur).envStatus = .free := by
  obtain ⟨s₁, hfree, hf⟩ := envFree_cur h hcur
  have hrun : ¬ ((s.envs cur).envStatus = .running ∧ s.curenv c ≠ some cur) :=
    fun hne => hne.2 hcur
  have hdestroy : envDestroy M s c cur = .error (schedYield M (s₁.setCurenv c none) c) := by
    unfold envDestroy
    rw [if_neg hrun, hfree, Except.ok_bind_eq, if_pos ((hf.curenv c).trans hcur)]
  have hnone : (s₁.setCurenv c none).curenv c = none := KState.curenv_setCurenv_self _ _ _
  have hgone : ((s₁.setCurenv c none).envs cur).envStatus = .free := by
    rw [KState.envs_setCurenv, hf.self]
  rw [hdestroy]
  rcases schedYield_cases (M := M) (s₁.setCurenv c none) c with
    ⟨_, cur', _, hc, _⟩ | hmon | ⟨s₂, ht, hcases⟩
  · rw [hnone] at hc
    cases hc
  · exact .inl (by rw [hmon])
  · rcases hcases with ⟨next, hlt, hst, hnext⟩ | ⟨cur', hc, _, _⟩ | ⟨_, s', hleft, hhalt⟩
    · have hne : next ≠ cur := by
        rintro rfl
        rw [hgone] at hst
        cases hst
      have hdir : (s₂.envs next).envPgdir ≠ none := by
        rw [ht.envPgdir, KState.envs_setCurenv, hf.other next hne]
        rw [KState.envs_setCurenv, hf.other next hne] at hst
        exact h.dir_of_status hlt (by rw [hst]; decide)
      obtain ⟨d, hd⟩ := Option.ne_none_iff_exists'.mp hdir
      obtain ⟨s', hleft, hran⟩ := envRun_left (c := c) hd
      refine .inr ⟨s', by rw [hnext, hleft], ?_⟩
      rw [hran.other cur fun heq => hne heq.symm]
      have hcur₂ : s₂.curenv c ≠ some cur := by
        rw [ht.curenv, hnone]
        exact fun h0 => by cases h0
      rw [if_neg fun hc => hcur₂ hc.1, ht.status]
      exact hgone
    · rw [hnone] at hc
      cases hc
    · refine .inr ⟨s', by rw [hleft], ?_⟩
      rw [hhalt.envs, ht.status]
      exact hgone

theorem destroyed_of_fails (faultVa : Word) (h : BaseInv M K s) (hcur : s.curenv c = some cur)
    (hup : (s.envs cur).envPgfaultUpcall ≠ 0#32)
    (hfails : checkFails M s cur exstk 4096#32 (pteU ||| pteW) = true) :
    Destroyed M s c cur faultVa := by
  have hgone := envDestroy_cur (M := M) h hcur
  refine ⟨?_, hgone⟩
  have hassert : userMemAssert M s c cur exstk 4096#32 (pteU ||| pteW) =
      envDestroy M s c cur := by
    unfold checkFails at hfails
    unfold userMemAssert
    cases hx : userMemCheck M s.pm (s.envs cur).envPgdir exstk 4096#32
        (pteU ||| pteW ||| pteU) with
    | error msg => simp [hx] at hfails
    | ok res =>
        cases res with
        | none => simp [hx] at hfails
        | some a => rfl
  unfold pageFaultHandler
  rw [if_pos hup, hassert]
  rcases hgone with hmon | ⟨s', hleft, _⟩
  · rw [hmon, Except.error_bind_eq]
  · rw [hleft, Except.error_bind_eq]

/-! ## Delivering the fault -/

/-- A check that does not fail passes, when the page directory is well formed. -/
theorem check_passes (h : BaseInv M K s) (hcur : s.curenv c = some cur)
    (hpage : translate s.pm (s.cpus c).cr3 userStore exstk ≠ none) :
    userMemCheck M s.pm (s.envs cur).envPgdir exstk 4096#32 (pteU ||| pteW ||| pteU) =
      .ok none := by
  obtain ⟨free, hp⟩ := h.pages
  have hd : s.dirs cur = some (s.cpus c).cr3 := h.cpu c cur hcur
  have hfails := (checkFails_exstk (M := M) h hcur).mpr hpage
  unfold checkFails at hfails
  rw [show (s.envs cur).envPgdir = some (s.cpus c).cr3 from hd] at hfails ⊢
  rcases hp.userMemCheck_spec hd exstk 4096#32
    (pteU ||| pteW ||| pteU) (by decide) with ⟨hrun, _⟩ | ⟨p, hrun, _⟩
  · exact hrun
  · rw [hrun] at hfails
    cases hfails

theorem resumed_of_fits (faultVa : Word) (h : BaseInv M K s) (hcur : s.curenv c = some cur)
    (hup : (s.envs cur).envPgfaultUpcall ≠ 0#32)
    (hpage : translate s.pm (s.cpus c).cr3 userStore exstk = some q)
    (hfit : OnExstk (s.envs cur).envTf.esp → exstk + 56#32 ≤ (s.envs cur).envTf.esp) :
    ∃ f s', Resumed M s c cur faultVa f q s' := by
  have hd : (s.envs cur).envPgdir = some (s.cpus c).cr3 := h.cpu c cur hcur
  obtain ⟨f, m, hdeliver, hpushed, _⟩ := deliver_pushed (h.separate hcur) hpage hfit
    (s.envs cur).envPgfaultUpcall faultVa
  have hruns := pageFaultHandler_deliver hup
    (check_passes (M := M) h hcur (by rw [hpage]; exact Option.some_ne_none _)) hdeliver
  obtain ⟨s', hleft, hran⟩ := envRun_left (c := c) (e := cur)
    (s := ({ s with pm := m } : KState).setEnv cur fun env =>
      { env with envTf := { (s.envs cur).envTf with
        esp := exstkVa f, eip := (s.envs cur).envPgfaultUpcall } })
    (d := (s.cpus c).cr3) (by rw [KState.envs_setEnv_self]; exact hd)
  refine ⟨f, s', hpage, ?_, ?_, ?_, ?_⟩
  · rw [hran.pm]
    exact hpushed
  · rw [hruns, hleft]
  · rw [KState.curenv, hran.cpus, if_pos rfl]
  · rw [hran.self, KState.envs_setEnv_self]

/-! ## Overflow -/

/-- A store of the kernel below `UTOP` is carried out or faults. -/
theorem kernelStoreBytes_cases {m : PMap} {d : Nat} {va : Word} {bs : List (BitVec 8)}
    (h : va.toNat + bs.length ≤ utop.toNat) :
    (∃ m', kernelStoreBytes m d va bs = .ok m') ∨
      ∃ msg, kernelStoreBytes m d va bs = .error (.panic msg) := by
  rw [kernelStoreBytes_low (.inr h)]
  cases storeBytes m d kernelStore va bs with
  | none => exact .inr ⟨_, rfl⟩
  | some m' => exact .inl ⟨m', rfl⟩

/-- Wherever the frame goes, the kernel's stores are below `UTOP`. -/
theorem pushUtf_cases {m : PMap} {d : Nat} {u : UTrapframe} :
    (∃ m', pushUtf m d u = .ok m') ∨ ∃ msg, pushUtf m d u = .error (.panic msg) := by
  have hscratch : (∃ m', pushScratch m d u.utfEsp = .ok m') ∨
      ∃ msg, pushScratch m d u.utfEsp = .error (.panic msg) := by
    unfold pushScratch
    by_cases hout : u.utfEsp < exstk ∨ exstkTop < u.utfEsp
    · exact .inl ⟨m, if_pos hout⟩
    · rw [if_neg hout]
      refine kernelStoreBytes_cases ?_
      have hexstk : exstk.toNat = 4005556224 := by decide
      have htop : exstkTop.toNat = 4005560319 := by decide
      have hutop : utop.toNat = 4005560320 := rfl
      rw [not_or, BitVec.not_lt, BitVec.not_lt, BitVec.le_def, BitVec.le_def, hexstk, htop] at hout
      show (u.utfEsp - 4#32).toNat + 4 ≤ utop.toNat
      simp only [BitVec.toNat_sub, BitVec.toNat_ofNat]
      omega
  unfold pushUtf
  rcases hscratch with ⟨m₁, hm₁⟩ | ⟨msg, hmsg⟩
  · rw [hm₁, Except.ok_bind_eq]
    exact kernelStoreBytes_cases (utfAddr_le u.utfEsp)
  · exact .inr ⟨msg, by rw [hmsg, Except.error_bind_eq]⟩

/-- Within a frame of the bottom of the exception stack the kernel stops. -/
theorem pageFaultHandler_overflow (faultVa : Word)
    (hup : (s.envs cur).envPgfaultUpcall ≠ 0#32)
    (hcheck : userMemCheck M s.pm (s.envs cur).envPgdir exstk 4096#32 (pteU ||| pteW ||| pteU) =
      .ok none)
    (hon : OnExstk (s.envs cur).envTf.esp) (hlow : (s.envs cur).envTf.esp < exstk + 56#32) :
    ∃ msg, pageFaultHandler M s c cur faultVa = .error (.panic msg) := by
  have hassert : userMemAssert M s c cur exstk 4096#32 (pteU ||| pteW) = .ok s := by
    unfold userMemAssert
    rw [hcheck]
    rfl
  have hunder : utfAddr (s.envs cur).envTf.esp < exstk ∨
      exstkTop < utfAddr (s.envs cur).envTf.esp := by
    have hexstk : exstk.toNat = 4005556224 := by decide
    have hfit : (exstk + 56#32).toNat = 4005556280 := by decide
    unfold utfAddr
    rw [if_neg fun hout => not_onExstk.mpr hout hon]
    unfold OnExstk at hon
    rw [BitVec.le_def, hexstk] at hon
    rw [BitVec.lt_def, hfit] at hlow
    refine .inl ?_
    rw [BitVec.lt_def, hexstk]
    simp only [BitVec.toNat_sub, BitVec.toNat_ofNat]
    omega
  have hpush := pushUtf_cases (m := s.pm) (d := (s.cpus c).cr3)
    (u := utfOf (s.envs cur).envTf faultVa)
  unfold pageFaultHandler
  rw [if_pos hup, hassert, Except.ok_bind_eq]
  rcases hpush with ⟨m, hm⟩ | ⟨msg, hmsg⟩
  · exact ⟨"page_fault_handler: exception stack overflow",
      (congrArg (· >>= _) hm).trans (if_pos hunder)⟩
  · exact ⟨msg, congrArg (· >>= _) hmsg⟩

theorem not_contract_of_panic {msg : String}
    (hpanic : pageFaultHandler M s c cur faultVa = .error (.panic msg)) :
    ¬ FaultContract M s c cur faultVa := by
  rintro (⟨f, q, s', hr⟩ | hd)
  · have hruns := hr.runs
    rw [hpanic] at hruns
    cases hruns
  · have hruns := hd.runs
    rw [hpanic] at hruns
    rcases hd.gone with hmon | ⟨s', hleft, _⟩
    · rw [hmon] at hruns
      cases hruns
    · rw [hleft] at hruns
      cases hruns

/-- A fault is handled as the comment of `page_fault_handler` says exactly when the program
has no exception stack it can write, or was not within a frame of the bottom of it. -/
theorem faultContract_iff (h : BaseInv M K s) (hcur : s.curenv c = some cur)
    (hup : (s.envs cur).envPgfaultUpcall ≠ 0#32) (faultVa : Word) :
    FaultContract M s c cur faultVa ↔
      translate s.pm (s.cpus c).cr3 userStore exstk = none ∨
        (OnExstk (s.envs cur).envTf.esp → exstk + 56#32 ≤ (s.envs cur).envTf.esp) := by
  cases hpage : translate s.pm (s.cpus c).cr3 userStore exstk with
  | none =>
      refine iff_of_true (.inr (destroyed_of_fails faultVa h hcur hup ?_)) (.inl rfl)
      have hchecks := (checkFails_exstk (M := M) h hcur).not
      rw [hpage, not_not, Bool.not_eq_false] at hchecks
      exact hchecks.mpr rfl
  | some q =>
      have hne : translate s.pm (s.cpus c).cr3 userStore exstk ≠ none := by
        rw [hpage]
        exact Option.some_ne_none _
      constructor
      · intro hc
        refine .inr fun hon => ?_
        by_contra hlow
        obtain ⟨msg, hpanic⟩ := pageFaultHandler_overflow faultVa hup
          (check_passes (M := M) h hcur hne) hon (BitVec.not_le.mp hlow)
        exact not_contract_of_panic hpanic hc
      · rintro (h0 | hfit)
        · cases h0
        · obtain ⟨f, s', hr⟩ := resumed_of_fits (M := M) faultVa h hcur hup hpage hfit
          exact .inl ⟨f, q, s', hr⟩

end

/-- A fault of the program with an upcall and an exception stack, on its own stack. -/
theorem faultContract_pc : ∃ s, BaseInv (pc .roundRobin) lowPages s ∧ HasUpcall s ∧
    FaultContract (pc .roundRobin) s 0 0 0x400000#32 := by
  obtain ⟨s, hreach, h⟩ := upcall_pc
  have hbase := base_reach hreach
  refine ⟨s, hbase, h, (faultContract_iff hbase h.curenv h.upcall 0x400000#32).mpr (.inr ?_)⟩
  rw [h.esp]
  decide

/-- The frame of a fault at the bottom of the exception stack, which stops the kernel. -/
theorem fault_overflow : ¬ ∀ s c cur tf faultVa,
    (kernel (pc .roundRobin) lowPages).Reach anyEvent s → s.curenv c = some cur →
    (s.envs cur).envPgfaultUpcall ≠ 0#32 →
    FaultContract (pc .roundRobin) (trapState s c cur tf) c cur faultVa := by
  intro hall
  obtain ⟨s, hreach, h⟩ := upcall_pc
  generalize htf : ({ initTf with trapno := tPgflt, esp := exstk + 8#32 } : Trapframe) = tf
  have hesp : tf.esp = exstk + 8#32 := by
    rw [← htf]
  have henv : (trapState s 0 0 tf).envs 0 = { s.envs 0 with envTf := tf } := by
    rw [trapState, saveTf, KState.envs_setEnv_self]
    rfl
  obtain ⟨msg, hpanic⟩ := @pageFaultHandler_overflow (pc .roundRobin) (trapState s 0 0 tf) 0 0
    0x400000#32 (by rw [henv]; exact h.upcall) (by rw [henv]; exact h.check)
    (by rw [henv, hesp]; decide) (by rw [henv, hesp]; decide)
  exact not_contract_of_panic hpanic
    (hall s 0 0 tf 0x400000#32 (hreach.mono fun _ _ _ => trivial) h.curenv h.upcall)

end Jos
end Sisop

import Sisop.Jos.Boot

/-!
# What a kernel entry does to the environment table

The claims about environments (which CPU runs which, who is dying, who waits for
a message) depend on a few fields of the table, and most of the kernel leaves
them alone.  `trap_cases` says what an entry does to these fields.  It does one
act, such as setting a status or delivering a message; it makes changes that none
of the claims looks at, `Quiet`; and it reschedules.

The acts carry what the call was made with, so that a condition on the calls of
a run can be used where the act is met.
-/

namespace Sisop
namespace Jos

open Exit

/-- Nothing changed but memory, and fields that say nothing about who runs or
waits: the upcall, and the saved registers of `cur`. -/
structure Quiet (cur : Nat) (s s' : KState) : Prop where
  envFreeList : s'.envFreeList = s.envFreeList
  curenv : ∀ c, s'.curenv c = s.curenv c
  stats : s'.stats = s.stats
  envs : ∀ x, ∃ tf u, s'.envs x = { s.envs x with envTf := tf, envPgfaultUpcall := u } ∧
    (x ≠ cur → tf = (s.envs x).envTf)

/-- What `env_alloc` does to the table: the first free slot `e` is taken. -/
structure Alloced (s : KState) (e : Nat) (parentId : Word) (s' : KState) : Prop where
  head : s.envFreeList = some e
  cpus : s'.cpus = s.cpus
  stats : s'.stats = s.stats
  self : ∃ d, s'.envs e =
    { s.envs e with
      envPgdir := d
      envId := nextEnvId (s.envs e).envId e
      envParentId := parentId
      envStatus := .runnable
      envRuns := 0#32
      envPriority := 0
      envTf := initTf
      envPgfaultUpcall := 0#32
      envIpcRecving := false }
  other : ∀ x, x ≠ e → s'.envs x = s.envs x

/-- What `env_free` does to the table. -/
structure Freed (s : KState) (e : Nat) (s' : KState) : Prop where
  curenv : ∀ c, s'.curenv c = s.curenv c
  stats : s'.stats = s.stats
  self : s'.envs e =
    { s.envs e with envPgdir := none, envStatus := .free, envLink := s.envFreeList }
  other : ∀ x, x ≠ e → s'.envs x = s.envs x

/-- The child of a `sys_exofork`. -/
def forked (s : KState) (cur e : Nat) : KState :=
  s.setEnv e fun env =>
    { env with
      envStatus := .notRunnable
      envTf := { (s.envs cur).envTf with regs := { (s.envs cur).envTf.regs with eax := 0#32 } } }

/-- `sys_ipc_recv` up to the call of the scheduler. -/
def received (s : KState) (cur : Nat) (dstva : Word) : KState :=
  s.setEnv cur fun env =>
    { env with envIpcRecving := true, envIpcDstva := dstva, envStatus := .notRunnable }

/-- What a send leaves in `env_ipc_perm` when it succeeds: 0 when no page is
offered, the permission when one is mapped, and what was there before when a page
is offered and the receiver asks for none. -/
def sentPerm (s : KState) (dst : Nat) (srcva perm : Word) : Word :=
  if utop ≤ srcva then 0#32
  else if (s.envs dst).envIpcDstva = 0#32 then (s.envs dst).envIpcPerm
  else perm ||| pteU ||| pteP

/-- The end of a send that succeeds, with the permission it leaves. -/
def delivered (s : KState) (cur dst : Nat) (value perm : Word) : KState :=
  ipcDeliver (s.setEnv dst fun env => { env with envIpcPerm := perm }) cur dst value

/-- The end of a `sys_env_set_priority` that is carried out. -/
def prioritized (s : KState) (e : Nat) (p : Int) : KState :=
  s.setEnv e fun env => { env with envPriority := p }

/-- The one thing an entry does to the table before it reschedules. -/
inductive Act (M : Machine) (c cur : Nat) (tf : Trapframe) (s : KState) : KState → Prop
  | none (hd : destroys M s cur tf = none) : Act M c cur tf s s
  | fork {e : Nat} {s' : KState} (hd : destroys M s cur tf = none)
      (h : Alloced s e (s.envs cur).envId s') :
      Act M c cur tf s (forked s' cur e)
  | setStatus {e : Nat} {st : EnvStatus} (h : setsStatus s cur tf = some (e, st)) :
      Act M c cur tf s (s.setStatus e st)
  | setPriority {e : Nat} {p : Int} (hd : destroys M s cur tf = none)
      (h : setsPriority s cur tf = some (e, p)) :
      Act M c cur tf s (prioritized s e p)
  | dying {e : Nat} (h : destroys M s cur tf = some e) (hst : (s.envs e).envStatus = .running)
      (hne : e ≠ cur) : Act M c cur tf s (s.setStatus e .dying)
  | free {e : Nat} {s' : KState} (h : destroys M s cur tf = some e)
      (hst : (s.envs e).envStatus ≠ .running) (hne : e ≠ cur) (hf : Freed s e s') :
      Act M c cur tf s s'
  | exit {s' : KState} (h : destroys M s cur tf = some cur) (hf : Freed s cur s') :
      Act M c cur tf s (s'.setCurenv c none)
  | send {dst : Nat} (h : sendsTo s cur tf = some dst) :
      Act M c cur tf s
        (delivered s cur dst tf.regs.ecx (sentPerm s dst tf.regs.ebx tf.regs.edi))
  | recvFail {dstva : Word} (h : recvVa tf = some dstva) (hva : badVa dstva) :
      Act M c cur tf s (s.setEnv cur fun env => { env with envIpcRecving := true })

/-- What an entry does before it reschedules: an act and quiet changes, or a
`sys_ipc_recv` that blocks. -/
inductive Body (M : Machine) (c cur : Nat) (tf : Trapframe) (s : KState) : KState → Prop
  | act {s₁ s₂ : KState} (ha : Act M c cur tf s s₁) (hq : Quiet cur s₁ s₂) : Body M c cur tf s s₂
  | recv {dstva : Word} (h : recvVa tf = some dstva) (hva : ¬ badVa dstva) :
      Body M c cur tf s (received s cur dstva)

/-- How an entry ends: it goes back to the current environment, after a page fault
whatever its status, or it calls the scheduler. -/
inductive Leaves (M : Machine) (c : Nat) (fault : Prop) (s s' : KState) : Prop
  | back {e : Nat} (hc : s.curenv c = some e) (hst : (s.envs e).envStatus = .running ∨ fault)
      (h : envRun s c e = .left s')
  | yield (h : schedYield M s c = .left s')

/-- How an entry ends for those who do not look at priorities: a runnable
environment or the current one runs, or the CPU halts, which it does not with an
environment of its own that is running. -/
inductive Resched (M : Machine) (c : Nat) (fault : Prop) (s s' : KState) : Prop
  | run {s₁ : KState} {e d : Nat} (ht : Tweaked s s₁)
      (he : (s.envs e).envStatus = .runnable ∨
        s.curenv c = some e ∧ ((s.envs e).envStatus = .running ∨ fault))
      (hr : Ran s₁ c e d s')
  | halt {s₁ : KState} (ht : Tweaked s s₁)
      (hcur : ∀ cur, s.curenv c = some cur → (s.envs cur).envStatus = .running →
        (s.envs cur).envCpunum ≠ c)
      (hh : Halted M s₁ c s')

section

variable {M : Machine} {s s₁ s₂ s' : KState} {c cur e : Nat} {tf : Trapframe} {fault : Prop}

theorem envs_delivered_self (s : KState) (cur dst : Nat) (value perm : Word) :
    (delivered s cur dst value perm).envs dst =
      { s.envs dst with
        envIpcFrom := (s.envs cur).envId
        envIpcRecving := false
        envIpcValue := value
        envIpcPerm := perm
        envTf := { (s.envs dst).envTf with regs := { (s.envs dst).envTf.regs with eax := 0#32 } }
        envStatus := .runnable } := by
  rw [delivered, ipcDeliver, KState.envs_setEnv_self, KState.envs_setEnv_self]
  by_cases hc : cur = dst
  · subst hc
    simp
  · rw [KState.envs_setEnv_of_ne _ _ _ _ hc]

theorem envs_delivered_of_ne {dst x : Nat} (hx : x ≠ dst) (s : KState) (cur : Nat)
    (value perm : Word) : (delivered s cur dst value perm).envs x = s.envs x := by
  rw [delivered, ipcDeliver, KState.envs_setEnv_of_ne _ _ _ _ hx,
    KState.envs_setEnv_of_ne _ _ _ _ hx]

theorem prioritized_tweaked (s : KState) (e : Nat) (p : Int) : Tweaked s (prioritized s e p) := by
  refine ⟨rfl, rfl, rfl, fun x => ?_⟩
  rw [prioritized, KState.envs_setEnv]
  split
  · rename_i hx
    rw [hx]
    exact ⟨p, rfl⟩
  · exact ⟨(s.envs x).envPriority, rfl⟩

theorem BaseInv.head_free {K : Nat → Prop} (h : BaseInv M K s) (he : s.envFreeList = some e) :
    e < nenv ∧ (s.envs e).envStatus = .free := by
  obtain ⟨l, hl, hall⟩ := h.freeEnvs
  rw [he] at hl
  obtain ⟨rest, rfl, _⟩ := LinkChain.exists_cons hl
  exact hall e List.mem_cons_self

namespace Quiet

theorem refl (s : KState) : Quiet cur s s :=
  ⟨rfl, fun _ => rfl, rfl, fun _ => ⟨_, _, rfl, fun _ => rfl⟩⟩

theorem trans (h : Quiet cur s s₁) (h' : Quiet cur s₁ s₂) : Quiet cur s s₂ := by
  refine ⟨h'.envFreeList.trans h.envFreeList, fun c => (h'.curenv c).trans (h.curenv c),
    h'.stats.trans h.stats, fun x => ?_⟩
  obtain ⟨tf₁, u₁, h₁, htf₁⟩ := h.envs x
  obtain ⟨tf₂, u₂, h₂, htf₂⟩ := h'.envs x
  refine ⟨tf₂, u₂, by rw [h₂, h₁], fun hx => ?_⟩
  rw [htf₂ hx, h₁]
  exact htf₁ hx

theorem setPm (s : KState) (m : PMap) : Quiet cur s { s with pm := m } :=
  ⟨rfl, fun _ => rfl, rfl, fun _ => ⟨_, _, rfl, fun _ => rfl⟩⟩

theorem setEnv {f : Env → Env} {tf : Trapframe} {u : Word}
    (hf : f (s.envs e) = { s.envs e with envTf := tf, envPgfaultUpcall := u })
    (htf : e ≠ cur → tf = (s.envs e).envTf) : Quiet cur s (s.setEnv e f) := by
  refine ⟨rfl, fun _ => rfl, rfl, fun x => ?_⟩
  by_cases hx : x = e
  · subst hx
    exact ⟨tf, u, (KState.envs_setEnv_self _ _ _).trans hf, htf⟩
  · exact ⟨_, _, KState.envs_setEnv_of_ne _ _ _ _ hx, fun _ => rfl⟩

theorem setEax (s : KState) (cur : Nat) (r : Int) : Quiet cur s (setEax s cur r) :=
  Quiet.setEnv rfl fun hne => absurd rfl hne

theorem lcr3 (s : KState) (c dir : Nat) : Quiet cur s (s.lcr3 c dir) :=
  ⟨rfl, KState.curenv_lcr3 s dir c, rfl, fun _ => ⟨_, _, rfl, fun _ => rfl⟩⟩

theorem envStatus (h : Quiet cur s s') (x : Nat) :
    (s'.envs x).envStatus = (s.envs x).envStatus := by
  obtain ⟨tf, u, henv, _⟩ := h.envs x
  rw [henv]

theorem envPriority (h : Quiet cur s s') (x : Nat) :
    (s'.envs x).envPriority = (s.envs x).envPriority := by
  obtain ⟨tf, u, henv, _⟩ := h.envs x
  rw [henv]

theorem envCpunum (h : Quiet cur s s') (x : Nat) :
    (s'.envs x).envCpunum = (s.envs x).envCpunum := by
  obtain ⟨tf, u, henv, _⟩ := h.envs x
  rw [henv]

end Quiet

/-! ## Allocating and freeing -/

theorem envAlloc_alloced {parentId : Word} (h : envAlloc M s parentId = .ok (e, s')) :
    Alloced s e parentId s' := by
  unfold envAlloc at h
  cases hhead : s.envFreeList with
  | none => simp [hhead] at h
  | some e' =>
      rw [hhead] at h
      unfold envSetupVm at h
      cases hpage : pageAlloc s.pm allocZero with
      | mk p m =>
          cases p with
          | none => simp [hpage] at h
          | some p =>
              simp only [hpage, Except.ok_bind_eq] at h
              cases h
              refine ⟨hhead, rfl, rfl, ⟨some p, ?_⟩, fun x hx => ?_⟩
              · simp
              · simp [KState.envs_setEnv, hx]

theorem envFree_freed (M : Machine) (s : KState) (c e : Nat) :
    Post (envFree M s c e) (Freed s e) fun stop => ∃ msg, stop = .panic msg := by
  cases hfree : envFree M s c e with
  | error stop =>
      refine post_error.mpr ?_
      unfold envFree at hfree
      dsimp only at hfree
      generalize (if s.curenv c = some e then s.lcr3 c M.kernPgdir else s) = s₀ at hfree
      cases hd : (s₀.envs e).envPgdir with
      | none =>
          rw [hd] at hfree
          cases hfree
          exact ⟨_, rfl⟩
      | some d =>
          cases hx : envFreePages M s₀.pm d with
          | error msg =>
              simp only [hd, hx, panics, Except.error_bind_eq] at hfree
              cases hfree
              exact ⟨msg, rfl⟩
          | ok m =>
              simp only [hd, hx, panics, Except.ok_bind_eq] at hfree
              cases hfree
  | ok s' =>
      have hcur := InKernel.envFree_curenv s c e hfree
      unfold envFree at hfree
      have hif : (if s.curenv c = some e then s.lcr3 c M.kernPgdir else s).envs = s.envs ∧
          (if s.curenv c = some e then s.lcr3 c M.kernPgdir else s).envFreeList =
            s.envFreeList ∧
          (if s.curenv c = some e then s.lcr3 c M.kernPgdir else s).stats = s.stats := by
        split <;> exact ⟨rfl, rfl, rfl⟩
      dsimp only at hfree
      generalize (if s.curenv c = some e then s.lcr3 c M.kernPgdir else s) = s₀ at hfree hif
      obtain ⟨henvs, hlist, hstats⟩ := hif
      cases hd : (s₀.envs e).envPgdir with
      | none => simp [hd] at hfree
      | some d =>
          cases hx : envFreePages M s₀.pm d with
          | error msg => simp [hd, hx, panics] at hfree
          | ok m =>
              simp only [hd, hx, panics, Except.ok_bind_eq] at hfree
              cases hfree
              refine post_ok.mpr ⟨hcur, hstats, ?_, fun x hx => ?_⟩
              · simp only [KState.envs_setEnv_self, henvs, hlist]
              · simp only [KState.envs_setEnv_of_ne _ _ _ _ hx, henvs]

/-! ## Rescheduling -/

theorem envRun_ran (h : envRun s c e = .left s') : ∃ d, Ran s c e d s' := by
  cases hd : (s.envs e).envPgdir with
  | none =>
      obtain ⟨msg, hpanic⟩ := envRun_panic (c := c) hd
      rw [hpanic] at h
      cases h
  | some d =>
      obtain ⟨s₁, hleft, hran⟩ := envRun_left (c := c) hd
      rw [hleft] at h
      cases h
      exact ⟨d, hran⟩

/-- The current environment and the scheduler's choice, without the priorities. -/
theorem Leaves.resched (h : Leaves M c fault s s') : Resched M c fault s s' := by
  cases h with
  | @back e hc hst h =>
      obtain ⟨d, hran⟩ := envRun_ran h
      exact .run (Tweaked.refl s) (.inr ⟨hc, hst⟩) hran
  | yield h =>
      rcases schedYield_cases (M := M) s c with ⟨why, cur, hun, _⟩ | hmon | ⟨s₁, ht, hcases⟩
      · rw [hun] at h
        cases h
      · rw [hmon] at h
        cases h
      · rcases hcases with ⟨next, _, hst, hrun⟩ | ⟨cur, hcur, hst, hrun⟩ |
          ⟨hcur, s₂, hleft, hhalt⟩
        · rw [hrun] at h
          obtain ⟨d, hran⟩ := envRun_ran h
          exact .run ht (.inl hst) hran
        · rw [hrun] at h
          obtain ⟨d, hran⟩ := envRun_ran h
          exact .run ht (.inr ⟨hcur, .inl hst⟩) hran
        · rw [hleft] at h
          cases h
          exact .halt ht hcur hhalt

theorem leaves_return (h : trapReturn M s c = .left s') : Leaves M c fault s s' := by
  unfold trapReturn at h
  cases hc : s.curenv c with
  | none =>
      rw [hc] at h
      exact .yield h
  | some cur =>
      rw [hc] at h
      dsimp only at h
      split at h
      · rename_i hst
        exact .back hc (.inl hst) h
      · exact .yield h

/-! ## System calls and traps -/

/-- An act and quiet changes. -/
def Steps (M : Machine) (c cur : Nat) (tf : Trapframe) (s s₂ : KState) : Prop :=
  ∃ s₁, Act M c cur tf s s₁ ∧ Quiet cur s₁ s₂

/-- Where a path that does not return ends, if it leaves the kernel. -/
def Ends (M : Machine) (c cur : Nat) (tf : Trapframe) (s : KState) (stop : Stop) : Prop :=
  ∀ s', stop = .left s' → ∃ s₂, Body M c cur tf s s₂ ∧
    Leaves M c (tf.trapno = tPgflt) s₂ s'

theorem Quiet.steps (h : Quiet cur s s') (hd : destroys M s cur tf = none) :
    Steps M c cur tf s s' := ⟨s, .none hd, h⟩

theorem Act.steps (h : Act M c cur tf s s') : Steps M c cur tf s s' := ⟨s', h, Quiet.refl s'⟩

theorem Steps.quiet (h : Steps M c cur tf s s₁) (hq : Quiet cur s₁ s₂) : Steps M c cur tf s s₂ := by
  obtain ⟨s₀, ha, h₀⟩ := h
  exact ⟨s₀, ha, h₀.trans hq⟩

theorem Steps.ends (h : Steps M c cur tf s s₁) {stop : Stop}
    (hr : ∀ s', stop = .left s' → Leaves M c (tf.trapno = tPgflt) s₁ s') :
    Ends M c cur tf s stop := by
  obtain ⟨s₀, ha, hq⟩ := h
  exact fun s' hs' => ⟨s₁, .act ha hq, hr s' hs'⟩

theorem ends_panic {msg : String} : Ends M c cur tf s (.panic msg) := fun _ h => by cases h

/-- `env_destroy` returns only when the environment is not the current one. -/
theorem envDestroy_steps (hc : s.curenv c = some cur) (hd : destroys M s cur tf = some e) :
    Post (envDestroy M s c e) (fun s₂ => Steps M c cur tf s s₂ ∧ e ≠ cur)
      (Ends M c cur tf s) := by
  unfold envDestroy
  split
  · rename_i hrun
    have hne : e ≠ cur := by
      rintro rfl
      exact hrun.2 hc
    exact post_ok.mpr ⟨(Act.dying hd hrun.1 hne).steps, hne⟩
  · rename_i hrun
    have hspec := envFree_freed M s c e
    cases hx : envFree M s c e with
    | error stop =>
        obtain ⟨msg, rfl⟩ := hspec.exit hx
        exact post_error.mpr ends_panic
    | ok s₁ =>
        have hf := hspec.value hx
        rw [Except.ok_bind_eq]
        by_cases hself : s₁.curenv c = some e
        · rw [if_pos hself, post_error]
          have hce : s.curenv c = some e := (hf.curenv c).symm.trans hself
          obtain rfl : cur = e := Option.some.inj (hc.symm.trans hce)
          exact (Act.exit hd hf).steps.ends fun _ h => .yield h
        · rw [if_neg hself]
          have hne : e ≠ cur := by
            rintro rfl
            exact hself ((hf.curenv c).trans hc)
          refine post_pure.mpr ⟨(Act.free hd (fun hst => hrun ⟨hst, ?_⟩) hne hf).steps, hne⟩
          rw [← hf.curenv]
          exact hself

/-- `user_mem_assert` of an environment that the entry destroys if the check
fails. -/
theorem userMemAssert_steps (hc : s.curenv c = some cur) {va len perm : Word}
    (hd : destroys M s cur tf = if checkFails M s e va len perm then some e else none) :
    Post (userMemAssert M s c e va len perm)
      (fun s₂ => Steps M c cur tf s s₂ ∧ (s₂ = s ∨ e ≠ cur)) (Ends M c cur tf s) := by
  unfold userMemAssert
  cases hx : userMemCheck M s.pm (s.envs e).envPgdir va len (perm ||| pteU) with
  | error msg => exact post_error.mpr ends_panic
  | ok res =>
      cases res with
      | none =>
          have hpass : checkFails M s e va len perm = false := by
            unfold checkFails
            rw [hx]
          rw [hpass] at hd
          exact post_pure.mpr ⟨(Quiet.refl s).steps hd, .inl rfl⟩
      | some a =>
          have hfail : checkFails M s e va len perm = true := by
            unfold checkFails
            rw [hx]
          rw [hfail] at hd
          exact (envDestroy_steps hc hd).imp (fun _ h => ⟨h.1, .inr h.2⟩) fun _ h => h

/-- What a system call does when it returns, and when it does not. -/
def Calls (M : Machine) (c cur : Nat) (tf : Trapframe) (s : KState)
    (x : Except Stop (Int × KState)) : Prop :=
  Post x (fun y => Steps M c cur tf s y.2) (Ends M c cur tf s)

theorem calls_refl {r : Int} (hd : destroys M s cur tf = none) :
    Calls M c cur tf s (.ok (r, s)) :=
  post_ok.mpr ((Quiet.refl s).steps hd)

theorem withPm_spec (x : Except String (Int × PMap)) :
    Post (withPm s x) (fun y => ∃ m, y.2 = { s with pm := m }) (Ends M c cur tf s₁) := by
  cases x with
  | error msg => exact post_error.mpr ends_panic
  | ok x => exact post_ok.mpr ⟨x.2, rfl⟩

theorem withPm_calls (hd : destroys M s cur tf = none) (x : Except String (Int × PMap)) :
    Calls M c cur tf s (withPm s x) := by
  refine (withPm_spec x).imp ?_ fun _ h => h
  rintro ⟨r, s'⟩ ⟨m, rfl⟩
  exact (Quiet.setPm s m).steps hd

theorem sysExofork_steps (hd : destroys M s cur tf = none) :
    Steps M c cur tf s (sysExofork M s cur).2 := by
  unfold sysExofork
  cases hx : envAlloc M s (s.envs cur).envId with
  | error r => exact (Quiet.refl s).steps hd
  | ok x => exact (Act.fork hd (envAlloc_alloced hx)).steps

theorem sysEnvSetStatus_steps (hd : destroys M s cur tf = none) (hno : tf.trapno = tSyscall)
    (hsys : sysno tf.regs.eax = some .envSetStatus) :
    Steps M c cur tf s (sysEnvSetStatus s cur tf.regs.edx tf.regs.ecx).2 := by
  unfold sysEnvSetStatus
  cases hst : settableStatus tf.regs.ecx with
  | none => exact (Quiet.refl s).steps hd
  | some st =>
      cases he : envid2env s cur tf.regs.edx true with
      | error r => exact (Quiet.refl s).steps hd
      | ok e =>
          refine (Act.setStatus ?_).steps
          unfold setsStatus
          rw [if_pos ⟨hno, hsys⟩, hst, he]

theorem sysEnvSetPriority_steps (hd : destroys M s cur tf = none) (hno : tf.trapno = tSyscall)
    (hsys : sysno tf.regs.eax = some .envSetPriority) :
    Steps M c cur tf s (sysEnvSetPriority s cur tf.regs.edx tf.regs.ecx.toInt).2 := by
  unfold sysEnvSetPriority
  split
  · exact (Quiet.refl s).steps hd
  · rename_i hraise
    cases he : envid2env s cur tf.regs.edx false with
    | error r => exact (Quiet.refl s).steps hd
    | ok e =>
        refine (Act.setPriority hd ?_).steps
        unfold setsPriority
        rw [if_pos ⟨hno, hsys⟩, if_neg hraise, he]

theorem sysPageAlloc_calls (hd : destroys M s cur tf = none) (envid va perm : Word) :
    Calls M c cur tf s (sysPageAlloc M s cur envid va perm) := by
  unfold sysPageAlloc
  split
  · exact calls_refl hd
  · cases envid2env s cur envid true with
    | error r => exact calls_refl hd
    | ok e => exact withPm_calls hd _

theorem sysPageMap_calls (hd : destroys M s cur tf = none)
    (srcenvid srcva dstenvid dstva perm : Word) :
    Calls M c cur tf s (sysPageMap M s cur srcenvid srcva dstenvid dstva perm) := by
  unfold sysPageMap
  split
  · exact calls_refl hd
  · split
    · exact calls_refl hd
    · cases envid2env s cur srcenvid true with
      | error r => exact calls_refl hd
      | ok src =>
          cases envid2env s cur dstenvid true with
          | error r => exact calls_refl hd
          | ok dst => exact withPm_calls hd _

theorem sysPageUnmap_calls (hd : destroys M s cur tf = none) (envid va : Word) :
    Calls M c cur tf s (sysPageUnmap M s cur envid va) := by
  unfold sysPageUnmap
  split
  · exact calls_refl hd
  · cases envid2env s cur envid true with
    | error r => exact calls_refl hd
    | ok e =>
        dsimp only
        cases pageRemove M s.pm (s.envs e).envPgdir va with
        | error msg => exact post_error.mpr ends_panic
        | ok m => exact post_ok.mpr ((Quiet.setPm s m).steps hd)

theorem ipcSrcpte_ends (srcva : Word) (junk : Option Word) :
    Post (ipcSrcpte M s cur srcva junk) (fun _ => True) (Ends M c cur tf s) := by
  unfold ipcSrcpte
  cases pageLookup M s.pm (s.envs cur).envPgdir srcva with
  | error msg => exact post_error.mpr ends_panic
  | ok x =>
      cases x with
      | some x => exact post_ok.mpr trivial
      | none =>
          cases junk with
          | none => exact post_error.mpr ends_panic
          | some w => exact post_ok.mpr trivial

theorem ipcTransfer_spec (dst : Nat) (srcva perm : Word) :
    Post (ipcTransfer M s cur dst srcva perm) (fun y => ∃ m, y.2 = { s with pm := m })
      (Ends M c cur tf s) := by
  unfold ipcTransfer
  refine (withPm_spec _).bind ?_
  rintro ⟨r, s₁⟩ ⟨m, rfl⟩
  dsimp only
  split
  · exact post_pure.mpr ⟨m, rfl⟩
  · exact withPm_spec _

/-- An id that is accepted names an environment in use, or the caller. -/
theorem envid2env_ok {envid : Word} {checkperm : Bool}
    (h : envid2env s cur envid checkperm = .ok e) :
    e = cur ∨ (s.envs e).envStatus ≠ .free := by
  unfold envid2env at h
  split at h
  · cases h
    exact .inl rfl
  · dsimp only at h
    split at h
    · cases h
    · rename_i hok
      split at h
      · cases h
      · cases h
        exact .inr fun hfree => hok (.inl hfree)

theorem setsStatus_ok {st : EnvStatus} (h : setsStatus s cur tf = some (e, st)) :
    e = cur ∨ (s.envs e).envStatus ≠ .free := by
  unfold setsStatus at h
  split at h
  · split at h
    · rename_i he
      cases h
      exact envid2env_ok he
    · cases h
  · cases h

theorem sendsTo_ok (h : sendsTo s cur tf = some e) :
    (e = cur ∨ (s.envs e).envStatus ≠ .free) ∧ (s.envs e).envIpcRecving = true := by
  unfold sendsTo at h
  split at h
  · split at h
    · rename_i he
      split at h
      · rename_i hrecv
        cases h
        exact ⟨envid2env_ok he, hrecv⟩
      · cases h
    · cases h
  · cases h

/-- A send either fails and changes memory alone, or delivers the message. -/
def Sent (cur : Nat) (tf : Trapframe) (s : KState) (y : Int × KState) : Prop :=
  (y.1 < 0 ∧ ∃ m, y.2 = { s with pm := m }) ∨
    y.1 = 0 ∧ ∃ dst m, sendsTo s cur tf = some dst ∧
      y.2 = { delivered s cur dst tf.regs.ecx (sentPerm s dst tf.regs.ebx tf.regs.edi) with
        pm := m }

theorem setPerm_self (s : KState) (dst : Nat) :
    (s.setEnv dst fun env => { env with envIpcPerm := (s.envs dst).envIpcPerm }) = s := by
  cases s
  simp [KState.setEnv]

theorem sysIpcTrySend_spec (hno : tf.trapno = tSyscall)
    (hsys : sysno tf.regs.eax = some .ipcTrySend) (junk : Option Word) :
    Post (sysIpcTrySend M s cur tf.regs.edx tf.regs.ecx tf.regs.ebx tf.regs.edi junk)
      (Sent cur tf s) (Ends M c cur tf s) := by
  unfold sysIpcTrySend
  cases he : envid2env s cur tf.regs.edx false with
  | error r => exact post_ok.mpr (.inl ⟨envid2env_neg he, s.pm, rfl⟩)
  | ok dst =>
      dsimp only
      by_cases hrecv : (s.envs dst).envIpcRecving = true
      · have hto : sendsTo s cur tf = some dst := by
          unfold sendsTo
          rw [if_pos ⟨hno, hsys⟩, he]
          exact if_pos hrecv
        rw [if_neg (not_not.mpr hrecv)]
        by_cases htop : utop ≤ tf.regs.ebx
        · rw [if_pos htop]
          refine post_ok.mpr (.inr ⟨rfl, dst, s.pm, hto, ?_⟩)
          rw [sentPerm, if_pos htop]
          rfl
        · rw [if_neg htop]
          by_cases hmis : tf.regs.ebx % 4096#32 ≠ 0#32
          · rw [if_pos hmis]
            exact post_ok.mpr (.inl ⟨eInval_neg, s.pm, rfl⟩)
          · rw [if_neg hmis]
            refine (ipcSrcpte_ends tf.regs.ebx junk).bind fun srcpte _ => ?_
            split
            · exact post_pure.mpr (.inl ⟨eInval_neg, s.pm, rfl⟩)
            · split
              · exact post_pure.mpr (.inl ⟨eInval_neg, s.pm, rfl⟩)
              · by_cases hz : (s.envs dst).envIpcDstva = 0#32
                · rw [if_pos hz]
                  refine post_pure.mpr (.inr ⟨rfl, dst, s.pm, hto, ?_⟩)
                  rw [sentPerm, if_neg htop, if_pos hz, delivered, setPerm_self]
                  rfl
                · rw [if_neg hz]
                  refine (ipcTransfer_spec dst _ _).bind ?_
                  rintro ⟨r, s₁⟩ ⟨m, rfl⟩
                  dsimp only
                  split
                  · rename_i hneg
                    exact post_pure.mpr (.inl ⟨hneg, m, rfl⟩)
                  · refine post_pure.mpr (.inr ⟨rfl, dst, m, hto, ?_⟩)
                    rw [sentPerm, if_neg htop, if_neg hz]
                    rfl
      · rw [if_pos hrecv]
        exact post_ok.mpr (.inl ⟨eIpcNotRecv_neg, s.pm, rfl⟩)

theorem Sent.steps {y : Int × KState} (hd : destroys M s cur tf = none) (h : Sent cur tf s y) :
    Steps M c cur tf s y.2 := by
  rcases h with ⟨_, m, hm⟩ | ⟨_, dst, m, hto, hy⟩
  · rw [hm]
    exact (Quiet.setPm s m).steps hd
  · rw [hy]
    exact ⟨_, .send hto, Quiet.setPm _ m⟩

theorem sysIpcRecv_calls (hno : tf.trapno = tSyscall)
    (hsys : sysno tf.regs.eax = some .ipcRecv) :
    Calls M c cur tf s (sysIpcRecv M s c cur tf.regs.edx) := by
  have hva : recvVa tf = some tf.regs.edx := if_pos ⟨hno, hsys⟩
  unfold sysIpcRecv
  dsimp only
  split
  · rename_i hbad
    exact post_ok.mpr (Act.recvFail hva hbad).steps
  · rename_i hgood
    refine post_error.mpr fun s' hs' => ⟨_, .recv hva hgood, ?_⟩
    have hset : ((s.setEnv cur fun env => { env with envIpcRecving := true }).setEnv cur
        fun env => { env with envIpcDstva := tf.regs.edx, envStatus := .notRunnable }) =
          received s cur tf.regs.edx := by
      simp [KState.setEnv, received]
    rw [hset] at hs'
    exact .yield hs'

theorem destroys_syscall (hno : tf.trapno = tSyscall) :
    destroys M s cur tf = syscallDestroys M s cur tf.regs := by
  unfold destroys
  rw [hno, if_neg (by decide), if_neg (by decide), if_pos rfl]

theorem syscall_calls (hc : s.curenv c = some cur) (hno : tf.trapno = tSyscall) (inp : Inputs) :
    Calls M c cur tf s (syscall M s c cur tf.regs inp) := by
  have hdestroys := @destroys_syscall M s cur tf hno
  unfold syscallDestroys at hdestroys
  unfold syscall
  cases hsys : sysno tf.regs.eax with
  | none =>
      rw [hsys] at hdestroys
      exact calls_refl hdestroys
  | some no =>
      simp only [hsys] at hdestroys
      cases no with
      | cputs =>
          exact Post.bind (userMemAssert_steps hc hdestroys) fun s' hs' => post_pure.mpr hs'.1
      | cgetc => exact calls_refl hdestroys
      | getenvid => exact calls_refl hdestroys
      | envDestroy =>
          dsimp only at hdestroys ⊢
          unfold sysEnvDestroy
          cases he : envid2env s cur tf.regs.edx true with
          | error r =>
              rw [he] at hdestroys
              exact calls_refl hdestroys
          | ok e =>
              refine Post.bind (envDestroy_steps hc ?_) fun s' hs' => post_pure.mpr hs'.1
              rw [hdestroys, he]
              rfl
      | pageAlloc => exact sysPageAlloc_calls hdestroys _ _ _
      | pageMap => exact sysPageMap_calls hdestroys _ _ _ _ _
      | pageUnmap => exact sysPageUnmap_calls hdestroys _ _
      | exofork => exact post_ok.mpr (sysExofork_steps hdestroys)
      | envSetStatus => exact post_ok.mpr (sysEnvSetStatus_steps hdestroys hno hsys)
      | envSetPgfaultUpcall =>
          dsimp only at hdestroys ⊢
          unfold sysEnvSetPgfaultUpcall
          cases he : envid2env s cur tf.regs.edx true with
          | error r =>
              rw [he] at hdestroys
              exact calls_refl hdestroys
          | ok e =>
              rw [he] at hdestroys
              refine Post.bind (userMemAssert_steps hc hdestroys) fun s' hs' => ?_
              refine post_pure.mpr (hs'.1.quiet ?_)
              dsimp only
              exact Quiet.setEnv rfl fun _ => rfl
      | yield =>
          exact post_error.mpr (((Quiet.refl s).steps hdestroys).ends fun _ h => .yield h)
      | ipcTrySend =>
          exact (sysIpcTrySend_spec hno hsys inp.junk).imp (fun _ h => h.steps hdestroys)
            fun _ h => h
      | ipcRecv => exact sysIpcRecv_calls hno hsys
      | envGetPriority => exact calls_refl hdestroys
      | envSetPriority => exact post_ok.mpr (sysEnvSetPriority_steps hdestroys hno hsys)

/-- The kernel does not leave. -/
def Stuck (stop : Stop) : Prop := ∀ s', stop ≠ .left s'

theorem stuck_panic {msg : String} : Stuck (.panic msg) := fun _ h => by cases h

theorem panics_stuck {α : Type} (x : Except String α) : Post (panics x) (fun _ => True) Stuck := by
  cases x with
  | error msg => exact post_error.mpr stuck_panic
  | ok a => exact post_ok.mpr trivial

theorem kernelStoreBytes_stuck (m : PMap) (dir : Nat) (va : Word) (bs : List (BitVec 8)) :
    Post (kernelStoreBytes m dir va bs) (fun _ => True) Stuck := by
  induction bs generalizing m va with
  | nil => exact post_ok.mpr trivial
  | cons b bs ih =>
      unfold kernelStoreBytes
      by_cases hlow : va < utop
      · rw [if_pos hlow]
        cases storeByte m dir kernelStore va b with
        | none => exact post_error.mpr stuck_panic
        | some m₁ => exact ih m₁ (va + 1#32)
      · rw [if_neg hlow]
        by_cases hw : KernelWritable m dir va
        · rw [if_pos hw]
          exact post_error.mpr fun _ h => by cases h
        · rw [if_neg hw]
          exact post_error.mpr stuck_panic

theorem pushUtf_ends (m : PMap) (dir : Nat) (u : UTrapframe) :
    Post (pushUtf m dir u) (fun _ => True) (Ends M c cur tf s) := by
  have hstuck : Post (pushUtf m dir u) (fun _ => True) Stuck := by
    refine Post.bind (Q := fun _ => True) ?_ fun m _ => kernelStoreBytes_stuck m _ _ _
    unfold pushScratch
    split
    · exact post_ok.mpr trivial
    · exact kernelStoreBytes_stuck m _ _ _
  exact hstuck.imp (fun _ h => h) fun stop h s' hs' => absurd hs' (h s')

theorem pageFaultHandler_steps (hc : s.curenv c = some cur) (hno : tf.trapno = tPgflt)
    (faultVa : Word) :
    Post (pageFaultHandler M s c cur faultVa) (Steps M c cur tf s) (Ends M c cur tf s) := by
  have hdestroys : destroys M s cur tf =
      if (s.envs cur).envPgfaultUpcall ≠ 0#32 then
        if checkFails M s cur exstk 4096#32 (pteU ||| pteW) then some cur else none
      else some cur := by
    unfold destroys
    rw [hno, if_neg (by decide), if_pos rfl]
  unfold pageFaultHandler
  by_cases hup : (s.envs cur).envPgfaultUpcall ≠ 0#32
  · rw [if_pos hup]
    rw [if_pos hup] at hdestroys
    refine Post.bind (userMemAssert_steps hc hdestroys) ?_
    rintro s₁ ⟨hs₁, rfl | hne⟩
    · refine (pushUtf_ends _ _ _).bind fun m _ => ?_
      dsimp only
      split
      · exact post_error.mpr ends_panic
      · refine post_error.mpr (Steps.ends (hs₁.quiet ((Quiet.setPm s₁ m).trans (Quiet.setEnv rfl
          fun hne => absurd rfl hne))) fun s' hs' => .back hc (.inr hno) hs')
    · exact absurd rfl hne
  · rw [if_neg hup]
    refine (envDestroy_steps hc ?_).imp (fun _ h => h.1) fun _ h => h
    rw [hdestroys, if_neg hup]

theorem trapDispatch_steps (hc : s.curenv c = some cur) (inp : Inputs) :
    Post (trapDispatch M s c cur tf inp) (Steps M c cur tf s) (Ends M c cur tf s) := by
  unfold trapDispatch
  by_cases hbrk : tf.trapno = tBrkpt
  · rw [if_pos hbrk]
    exact post_ok.mpr ((Quiet.refl s).steps (if_pos hbrk))
  · rw [if_neg hbrk]
    by_cases hpf : tf.trapno = tPgflt
    · rw [if_pos hpf]
      exact pageFaultHandler_steps hc hpf _
    · rw [if_neg hpf]
      by_cases hsys : tf.trapno = tSyscall
      · rw [if_pos hsys]
        refine (syscall_calls hc hsys inp).bind ?_
        rintro ⟨r, s'⟩ hs'
        exact post_pure.mpr (hs'.quiet (Quiet.setEax s' cur r))
      · rw [if_neg hsys]
        have hdestroys : destroys M s cur tf =
            if tf.trapno = irqSpurious ∨ tf.trapno = irqTimer then none else some cur := by
          unfold destroys
          rw [if_neg hbrk, if_neg hpf, if_neg hsys]
        by_cases hspur : tf.trapno = irqSpurious
        · rw [if_pos hspur]
          rw [if_pos (.inl hspur)] at hdestroys
          exact post_ok.mpr ((Quiet.refl s).steps hdestroys)
        · rw [if_neg hspur]
          by_cases htim : tf.trapno = irqTimer
          · rw [if_pos htim]
            rw [if_pos (.inr htim)] at hdestroys
            exact post_error.mpr (((Quiet.refl s).steps hdestroys).ends fun _ h => .yield h)
          · rw [if_neg htim]
            rw [if_neg (not_or.mpr ⟨hspur, htim⟩)] at hdestroys
            exact (envDestroy_steps hc hdestroys).imp (fun _ h => h.1) fun _ h => h

/-- What a trap from user mode does: a dying environment is freed, and any other
entry does its act and reschedules. -/
theorem trap_cases {inp : Inputs} (hc : s.curenv c = some cur)
    (h : trap M s c tf inp = .left s') :
    ((s.envs cur).envStatus = .dying ∧ ∃ s₁, Freed (cpuStarted s c) cur s₁ ∧
      Leaves M c False (s₁.setCurenv c none) s') ∨
    ((s.envs cur).envStatus ≠ .dying ∧ ∃ s₂, Body M c cur tf (trapState s c cur tf) s₂ ∧
      Leaves M c (tf.trapno = tPgflt) s₂ s') := by
  have hcur : (cpuStarted s c).curenv c = some cur := (curenv_cpuStarted s c c).trans hc
  unfold trap at h
  simp only [hcur] at h
  by_cases hst : (s.envs cur).envStatus = .dying
  · left
    rw [if_pos (show ((cpuStarted s c).envs cur).envStatus = .dying from hst)] at h
    have hspec := envFree_freed M (cpuStarted s c) c cur
    cases hx : envFree M (cpuStarted s c) c cur with
    | error stop =>
        obtain ⟨msg, rfl⟩ := hspec.exit hx
        rw [hx] at h
        cases h
    | ok s₁ =>
        rw [hx] at h
        exact ⟨hst, s₁, hspec.value hx, .yield h⟩
  · right
    rw [if_neg (show ¬ ((cpuStarted s c).envs cur).envStatus = .dying from hst)] at h
    refine ⟨hst, ?_⟩
    have hcur : (trapState s c cur tf).curenv c = some cur :=
      (curenv_trapState s c cur c tf).trans hc
    have hspec := @trapDispatch_steps M (trapState s c cur tf) c cur tf hcur inp
    cases hx : trapDispatch M (trapState s c cur tf) c cur tf inp with
    | error stop =>
        rw [trapState] at hx
        rw [hx] at h
        exact hspec.exit hx s' h
    | ok s₂ =>
        obtain ⟨s₁, ha, hq⟩ := hspec.value hx
        rw [trapState] at hx
        rw [hx] at h
        exact ⟨s₂, .act ha hq, leaves_return h⟩

/-! ## Steps of the kernel -/

theorem loadSegment_stuck (elf : Elf) (m : PMap) (dir : Nat) (ph : Proghdr) :
    Post (loadSegment M elf m dir ph) (fun _ => True) Stuck := by
  unfold loadSegment
  split
  · exact post_ok.mpr trivial
  · refine (panics_stuck _).bind fun m₁ _ => ?_
    exact (kernelStoreBytes_stuck m₁ _ _ _).bind fun m₂ _ => kernelStoreBytes_stuck m₂ _ _ _

theorem loadIcode_quiet (elf : Elf) : Post (loadIcode M s c e elf) (Quiet e s) Stuck := by
  unfold loadIcode
  split
  · exact post_error.mpr stuck_panic
  · cases hd : (s.envs e).envPgdir with
    | none => exact post_error.mpr stuck_panic
    | some d =>
        dsimp only
        refine Post.bind (Post.foldlM (I := fun _ _ => True) elf.phdrs
          (fun _ ph m _ _ => loadSegment_stuck elf m d ph) trivial) fun m _ => ?_
        refine (panics_stuck _).bind fun m₁ _ => post_pure.mpr ?_
        refine (Quiet.lcr3 s c d).trans ((Quiet.setPm _ m₁).trans (Quiet.trans ?_
          (Quiet.lcr3 _ c M.kernPgdir)))
        exact Quiet.setEnv rfl fun hne => absurd rfl hne

/-- What a step does to the table, event by event. -/
inductive Entry (M : Machine) (s : KState) : Event → KState → Prop
  | create {elf : Elf} {e : Nat} {s₁ s' : KState} (ha : Alloced s e 0#32 s₁)
      (hq : Quiet e s₁ s') : Entry M s (.create elf) s'
  | start {c : Nat} {s' : KState} (hc : s.curenv c = none) (hr : Leaves M c False s s') :
      Entry M s (.start c) s'
  | wake {c : Nat} {trapno : Word} {s' : KState} (hc : s.curenv c = none)
      (hr : Leaves M c False (cpuStarted s c) s') : Entry M s (.wake c trapno) s'
  | collect {c cur : Nat} {tf : Trapframe} {inp : Inputs} {s₁ s' : KState}
      (hc : s.curenv c = some cur) (hst : (s.envs cur).envStatus = .dying)
      (hf : Freed (cpuStarted s c) cur s₁) (hr : Leaves M c False (s₁.setCurenv c none) s') :
      Entry M s (.trap c tf inp) s'
  | trap {c cur : Nat} {tf : Trapframe} {inp : Inputs} {s₂ s' : KState}
      (hc : s.curenv c = some cur) (hst : (s.envs cur).envStatus ≠ .dying)
      (hb : Body M c cur tf (trapState s c cur tf) s₂)
      (hr : Leaves M c (tf.trapno = tPgflt) s₂ s') :
      Entry M s (.trap c tf inp) s'
  | store {c : Nat} {va : Word} {b : BitVec 8} (m : PMap) :
      Entry M s (.store c va b) { s with pm := m }

/-- A step leaves the kernel, and does to the table what `Entry` says. -/
theorem entry_of_step {K : Nat → Prop} {ev : Event} (hb : BaseInv M K s) (hfit : Fits s ev)
    (hown : FreesOwn M s ev) (h : (kernel M K).step s ev s') :
    ev.outcome M s = .left s' ∧ Entry M s ev s' := by
  obtain ⟨hen, hallows⟩ := h
  have hleft : ev.outcome M s = .left s' := by
    have hl := outcome_landing hb hen hfit hown
    cases hout : ev.outcome M s with
    | left s₁ =>
        rw [hout] at hallows
        rw [show s' = s₁ from hallows]
    | panic msg =>
        rw [hout] at hallows
        exact hallows.elim
    | monitor =>
        rw [hout] at hallows
        exact hallows.elim
    | undefined why =>
        rw [hout] at hl
        exact hl.elim
  refine ⟨hleft, ?_⟩
  cases ev with
  | create elf =>
      unfold Event.outcome envCreate at hleft
      dsimp only at hleft
      cases halloc : envAlloc M s 0#32 with
      | error r => simp [halloc, endOf] at hleft
      | ok x =>
          rw [halloc] at hleft
          dsimp only at hleft
          have hspec := loadIcode_quiet (M := M) (s := x.2) (c := 0) (e := x.1) elf
          cases hload : loadIcode M x.2 0 x.1 elf with
          | error stop =>
              rw [hload] at hleft
              exact absurd hleft (hspec.exit hload s')
          | ok s₂ =>
              rw [hload] at hleft
              cases hleft
              exact .create (envAlloc_alloced halloc) (hspec.value hload)
  | start c => exact .start hen.2.2 (.yield hleft)
  | wake c trapno =>
      have hc := hb.halted c hen.2
      refine .wake hc ?_
      unfold Event.outcome wake at hleft
      dsimp only at hleft
      split at hleft
      · exact .yield hleft
      · split at hleft
        · exact leaves_return hleft
        · cases hleft
  | trap c tf inp =>
      obtain ⟨cur, hc⟩ := Option.ne_none_iff_exists'.mp hen.2.1
      rcases trap_cases hc hleft with ⟨hst, s₁, hf, hr⟩ | ⟨hst, s₂, hbody, hr⟩
      · exact .collect hc hst hf hr
      · exact .trap hc hst hbody hr
  | store c va b =>
      unfold Event.outcome at hleft
      dsimp only at hleft
      split at hleft
      · cases hleft
        exact .store _
      · cases hleft

/-- Before it reschedules, an entry leaves every CPU its environment, unless it frees
the one it came from. -/
theorem Body.exit_cases (hb : Body M c cur tf s s') :
    (∀ x, s'.curenv x = s.curenv x) ∨
      destroys M s cur tf = some cur ∧
        ∃ s₁, Freed s cur s₁ ∧ Quiet cur (s₁.setCurenv c none) s' := by
  cases hb with
  | recv _ _ => exact .inl fun _ => rfl
  | @act s₁ _ ha hq =>
      cases ha with
      | none _ => exact .inl hq.curenv
      | @fork e s₁ _ halloc =>
          refine .inl fun x => ?_
          rw [hq.curenv, forked, KState.curenv_setEnv, KState.curenv, halloc.cpus]
          rfl
      | setStatus _ => exact .inl hq.curenv
      | setPriority _ _ => exact .inl hq.curenv
      | dying _ _ _ => exact .inl hq.curenv
      | free _ _ _ hf => exact .inl fun x => (hq.curenv x).trans (hf.curenv x)
      | exit hd hf => exact .inr ⟨hd, _, hf, hq⟩
      | send _ => exact .inl hq.curenv
      | recvFail _ _ => exact .inl hq.curenv

theorem Body.curenv_cases (hb : Body M c cur tf s s') (x : Nat) :
    s'.curenv x = s.curenv x ∨ x = c ∧ s'.curenv x = none := by
  rcases hb.exit_cases with hsame | ⟨_, s₁, hf, hq⟩
  · exact .inl (hsame x)
  · rw [hq.curenv, KState.curenv_setCurenv]
    split
    · rename_i hx
      exact .inr ⟨hx, rfl⟩
    · exact .inl (hf.curenv x)

/-- The scheduler alone counts. -/
theorem Body.stats (hbody : Body M c cur tf s s₂) : s₂.stats = s.stats := by
  cases hbody with
  | recv _ _ => rfl
  | @act s₁ _ ha hq =>
      rw [hq.stats]
      cases ha with
      | none _ => rfl
      | fork _ halloc => exact halloc.stats
      | setStatus _ => rfl
      | setPriority _ _ => rfl
      | dying _ _ _ => rfl
      | free _ _ _ hf => exact hf.stats
      | exit _ hf => exact hf.stats
      | send _ => rfl
      | recvFail _ _ => rfl

end

end Jos
end Sisop

import Sisop.Jos.PageFault

/-!
# Setting the upcall

`sys_env_set_pgfault_upcall` goes on after `user_mem_assert`, which does not come back when it
destroyed the caller but does when it destroyed a child.  The upcall is then stored in the
slot of an environment that was freed, or is to be, and the call reports success.  It does
so as well for a child that is already dying.
-/

namespace Sisop
namespace Jos

open Exit TransitionSystem

/-- The memory check of `sys_env_set_pgfault_upcall` on the target. -/
def upcallFails (M : Machine) (s : KState) (env : Nat) (func : Word) : Bool :=
  checkFails M s env func 4096#32 (pteP ||| pteU)

/-- `env_destroy` of the target is the last the call does to the state. -/
structure LastDestroyed (M : Machine) (s : KState) (c cur env : Nat) (envid func : Word) :
    Prop where
  ends : ∀ stop, sysEnvSetPgfaultUpcall M s c cur envid func = .error stop →
    envDestroy M s c env = .error stop ∧
      (stop = .monitor ∨ ∃ s', stop = .left s' ∧ (s'.envs env).envStatus = .free)
  returns : ∀ r s', sysEnvSetPgfaultUpcall M s c cur envid func = .ok (r, s') →
    envDestroy M s c env = .ok s' ∧ r ≠ 0 ∧
      ((s'.envs env).envStatus = .free ∨ (s'.envs env).envStatus = .dying)

/-- What is asked of the call: success means a live target with the upcall, and a target
that fails the memory check is destroyed. -/
structure UpcallContract (M : Machine) (s : KState) (c cur : Nat) (envid func : Word) : Prop where
  success : ∀ s', sysEnvSetPgfaultUpcall M s c cur envid func = .ok (0, s') →
    ∃ env, envid2env s cur envid true = .ok env ∧ (s'.envs env).envStatus ≠ .free ∧
      (s'.envs env).envStatus ≠ .dying ∧ (s'.envs env).envPgfaultUpcall = func
  failure : ∀ env, envid2env s cur envid true = .ok env → upcallFails M s env func = true →
    LastDestroyed M s c cur env envid func

section

variable {M : Machine} {K : Nat → Prop} {s s' : KState} {c cur e : Nat} {envid func : Word}

/-- The memory check of an environment does not stop the kernel. -/
theorem BaseInv.userMemCheck_ok (h : BaseInv M K s) (he : (s.envs e).envPgdir ≠ none)
    (va len perm : Word) : ∃ x, userMemCheck M s.pm (s.envs e).envPgdir va len perm = .ok x := by
  obtain ⟨free, hp⟩ := h.pages
  obtain ⟨d, hd⟩ := Option.ne_none_iff_exists'.mp he
  rw [hd]
  by_cases htop : utop < roundup (va + len)
  · refine ⟨some va, ?_⟩
    unfold userMemCheck
    dsimp only
    rw [if_pos htop]
  · rcases hp.userMemCheck_spec (show s.dirs e = some d from hd) va len perm htop with
      ⟨hrun, _⟩ | ⟨p, hrun, _⟩
    · exact ⟨_, hrun⟩
    · exact ⟨_, hrun⟩

/-- `env_free` of an environment does not stop the kernel. -/
theorem BaseInv.envFree_ok (h : BaseInv M K s) (he : (s.envs e).envPgdir ≠ none) (c : Nat) :
    ∃ s', envFree M s c e = .ok s' ∧ Freed s e s' := by
  obtain ⟨free, hp⟩ := h.pages
  obtain ⟨d, hd⟩ := Option.ne_none_iff_exists'.mp he
  have hpages := hp.envFreePages_spec (show s.dirs e = some d from hd)
  have hstate : ∀ s₀, (s₀ = if s.curenv c = some e then s.lcr3 c M.kernPgdir else s) →
      s₀.envs = s.envs ∧ s₀.pm = s.pm := by
    rintro s₀ rfl
    split <;> exact ⟨rfl, rfl⟩
  have hok : ∃ s', envFree M s c e = .ok s' := by
    unfold envFree
    dsimp only
    generalize hs₀ : (if s.curenv c = some e then s.lcr3 c M.kernPgdir else s) = s₀
    obtain ⟨henvs, hpm⟩ := hstate s₀ hs₀.symm
    simp only [henvs, hpm, hd]
    cases hfree : envFreePages M s.pm d with
    | error msg => exact absurd (hpages.exit hfree) id
    | ok m => exact ⟨_, rfl⟩
  obtain ⟨s', hs'⟩ := hok
  exact ⟨s', hs', (envFree_freed M s c e).value hs'⟩

/-- `env_destroy` of another environment comes back, with that one freed or dying. -/
theorem envDestroy_other (h : BaseInv M K s) (he : (s.envs e).envPgdir ≠ none)
    (hcur : s.curenv c ≠ some e) : ∃ s', envDestroy M s c e = .ok s' := by
  unfold envDestroy
  by_cases hrun : (s.envs e).envStatus = .running ∧ s.curenv c ≠ some e
  · rw [if_pos hrun]
    exact ⟨_, rfl⟩
  · obtain ⟨s', hfree, hf⟩ := h.envFree_ok he c
    have hne : s'.curenv c ≠ some e := by
      rw [hf.curenv]
      exact hcur
    rw [if_neg hrun, hfree, Except.ok_bind_eq, if_neg hne]
    exact ⟨_, rfl⟩

theorem sysEnvSetPgfaultUpcall_eq (henv : envid2env s cur envid true = .ok e) :
    sysEnvSetPgfaultUpcall M s c cur envid func = (do
      let s ← userMemAssert M s c e func 4096#32 (pteP ||| pteU)
      pure (0, s.setEnv e fun x => { x with envPgfaultUpcall := func })) := by
  unfold sysEnvSetPgfaultUpcall
  rw [henv]

/-- The memory check passes: the upcall is stored. -/
theorem sysEnvSetPgfaultUpcall_passes (h : BaseInv M K s) (he : (s.envs e).envPgdir ≠ none)
    (henv : envid2env s cur envid true = .ok e) (hpass : upcallFails M s e func = false) :
    sysEnvSetPgfaultUpcall M s c cur envid func =
      .ok (0, s.setEnv e fun x => { x with envPgfaultUpcall := func }) := by
  obtain ⟨x, hx⟩ := h.userMemCheck_ok he func 4096#32 (pteP ||| pteU ||| pteU)
  unfold upcallFails checkFails at hpass
  rw [hx] at hpass
  cases x with
  | some a => cases hpass
  | none =>
      rw [sysEnvSetPgfaultUpcall_eq henv, userMemAssert, hx]
      rfl

/-- The memory check fails: `env_destroy` is called. -/
theorem userMemAssert_fails (hfail : upcallFails M s e func = true) :
    userMemAssert M s c e func 4096#32 (pteP ||| pteU) = envDestroy M s c e := by
  unfold upcallFails checkFails at hfail
  unfold userMemAssert
  cases hx : userMemCheck M s.pm (s.envs e).envPgdir func 4096#32 (pteP ||| pteU ||| pteU) with
  | error msg =>
      rw [hx] at hfail
      cases hfail
  | ok x =>
      rw [hx] at hfail
      cases x with
      | none => cases hfail
      | some a => rfl

/-- The memory check fails for a child: the upcall is stored in what `env_destroy` left. -/
theorem sysEnvSetPgfaultUpcall_destroys (h : BaseInv M K s) (hcur : s.curenv c = some cur)
    (henv : envid2env s cur envid true = .ok e) (hne : e ≠ cur)
    (hfail : upcallFails M s e func = true) :
    ∃ s₁ : KState, sysEnvSetPgfaultUpcall M s c cur envid func =
      .ok (0, s₁.setEnv e fun x => { x with envPgfaultUpcall := func }) := by
  have hother : s.curenv c ≠ some e := by
    rw [hcur]
    exact fun heq => hne (Option.some.inj heq).symm
  obtain ⟨s₁, hdestroy⟩ := envDestroy_other h (h.envid2env_dir (h.cur_dir hcur) henv) hother
  refine ⟨s₁, ?_⟩
  rw [sysEnvSetPgfaultUpcall_eq henv, userMemAssert_fails hfail, hdestroy]
  rfl

/-- The call keeps to the contract exactly when a target that fails the memory check is the
caller, and one that passes it is not dying. -/
theorem upcallContract_iff (h : BaseInv M K s) (hcur : s.curenv c = some cur) (envid func : Word) :
    UpcallContract M s c cur envid func ↔ ∀ env, envid2env s cur envid true = .ok env →
      (upcallFails M s env func = true → env = cur) ∧
        (upcallFails M s env func = false → (s.envs env).envStatus ≠ .dying) := by
  cases henv : envid2env s cur envid true with
  | error r =>
      have hcall : sysEnvSetPgfaultUpcall M s c cur envid func = .ok (r, s) := by
        unfold sysEnvSetPgfaultUpcall
        rw [henv]
      refine iff_of_true ⟨fun s' hzero => ?_, fun env he => ?_⟩ fun env he => by cases he
      · rw [hcall] at hzero
        cases hzero
        exact absurd (envid2env_neg henv) (by decide)
      · rw [henv] at he
        cases he
  | ok e =>
      have he : (s.envs e).envPgdir ≠ none := h.envid2env_dir (h.cur_dir hcur) henv
      have hunique : ∀ env, envid2env s cur envid true = .ok env → env = e := by
        intro env hok
        rw [henv] at hok
        exact (Except.ok.inj hok).symm
      cases hfail : upcallFails M s e func with
      | true =>
          constructor
          · rintro hc env hok
            cases hok
            refine ⟨fun _ => ?_, fun hpass => ?_⟩
            · by_contra hne
              obtain ⟨s₁, hcall⟩ := sysEnvSetPgfaultUpcall_destroys h hcur henv hne hfail
              exact ((hc.failure e henv hfail).returns _ _ hcall).2.1 rfl
            · rw [hfail] at hpass
              cases hpass
          · intro hall
            have hself : e = cur := (hall e rfl).1 hfail
            subst hself
            have hgone : ∃ stop, envDestroy M s c e = .error stop ∧
                (stop = .monitor ∨ ∃ s', stop = .left s' ∧ (s'.envs e).envStatus = .free) := by
              rcases envDestroy_cur h hcur with hmon | ⟨s', hleft, hfree⟩
              · exact ⟨_, hmon, .inl rfl⟩
              · exact ⟨_, hleft, .inr ⟨s', rfl, hfree⟩⟩
            obtain ⟨stop, hdestroy, hstop⟩ := hgone
            have hends : sysEnvSetPgfaultUpcall M s c e envid func = .error stop := by
              rw [sysEnvSetPgfaultUpcall_eq henv, userMemAssert_fails hfail, hdestroy]
              rfl
            refine ⟨fun s' hzero => ?_, fun env hok _ => ⟨fun stop' hs => ?_, fun r s' hr => ?_⟩⟩
            · rw [hends] at hzero
              cases hzero
            · rw [hends] at hs
              cases hs
              rw [hunique env hok]
              exact ⟨hdestroy, hstop⟩
            · rw [hends] at hr
              cases hr
      | false =>
          have hcall := sysEnvSetPgfaultUpcall_passes (c := c) h he henv hfail
          have hself : (s.setEnv e fun x => { x with envPgfaultUpcall := func }).envs e =
              { s.envs e with envPgfaultUpcall := func } := KState.envs_setEnv_self _ _ _
          constructor
          · rintro hc env hok
            cases hok
            refine ⟨fun hf => ?_, fun _ => ?_⟩
            · rw [hfail] at hf
              cases hf
            · obtain ⟨env, hok, _, hdying, _⟩ := hc.success _ hcall
              rw [hunique env hok, hself] at hdying
              exact hdying
          · intro hall
            refine ⟨fun s' hzero => ⟨e, henv, ?_⟩, fun env hok hf => ?_⟩
            · rw [hcall] at hzero
              cases hzero
              rw [hself]
              exact ⟨h.not_free he, (hall e rfl).2 hfail, rfl⟩
            · rw [hunique env hok, hfail] at hf
              cases hf

end

/-- The first environment sets an upcall in its own stack page. -/
theorem upcallContract_pc : ∃ s, BaseInv (pc .roundRobin) lowPages s ∧ s.curenv 0 = some 0 ∧
    UpcallContract (pc .roundRobin) s 0 0 0#32 0xeebfd000#32 := by
  have hrun : (run (pc .roundRobin) [.create emptyImage, .start 0] pcBoot).any (fun s =>
      s.curenv 0 = some 0 ∧ (s.envs 0).envStatus ≠ .dying) = true := by
    decide
  obtain ⟨s, hreach, hs⟩ := exists_reach (pcBoot_booted .roundRobin) fits_created hrun
  rw [decide_eq_true_eq] at hs
  have hbase := base_reach hreach
  refine ⟨s, hbase, hs.1, (upcallContract_iff hbase hs.1 _ _).mpr fun env henv => ?_⟩
  have hself : (0 : Nat) = env := Except.ok.inj henv
  rw [← hself]
  exact ⟨fun _ => rfl, fun _ => hs.2⟩

/-- The first environment calls `sys_exofork`. -/
def callExofork : Event := call 0 7#32 0#32 0#32 0#32 0#32 0#32

/-- The first environment forks, and sets an upcall its child has not mapped. -/
theorem upcall_freed_child : ¬ ∀ s c cur envid func,
    (kernel (pc .roundRobin) lowPages).Reach anyEvent s → s.curenv c = some cur →
      UpcallContract (pc .roundRobin) s c cur envid func := by
  intro hall
  have hrun : (run (pc .roundRobin) [.create emptyImage, .start 0] pcBoot).any (fun s =>
      harmless s callExofork && (exec (pc .roundRobin) s callExofork).any fun s =>
        s.curenv 0 = some 0 ∧ envid2env s 0 0x1001#32 true = .ok 1 ∧
          upcallFails (pc .roundRobin) s 1 0x800000#32 = true) = true := by
    decide
  obtain ⟨s, hreach, hs⟩ := exists_reach (pcBoot_booted .roundRobin) fits_created hrun
  rw [Bool.and_eq_true, Option.any_eq_true] at hs
  obtain ⟨hharmless, s₁, hexec, hs₁⟩ := hs
  rw [decide_eq_true_eq] at hs₁
  obtain ⟨hcur, henv, hfail⟩ := hs₁
  have hreach₁ := reach_exec callExofork hreach (guard_of_harmless hharmless fun _ => trivial) hexec
  have hc := hall s₁ 0 0 0x1001#32 0x800000#32 (hreach₁.mono fun _ _ _ => trivial) hcur
  obtain ⟨s₂, hcall⟩ := sysEnvSetPgfaultUpcall_destroys (base_reach hreach₁) hcur henv (by decide)
    hfail
  exact ((hc.failure 1 henv hfail).returns _ _ hcall).2.1 rfl

end Jos
end Sisop

import Sisop.Jos.EnvSpec
import Sisop.Jos.Resched

/-!
# Memory and the environment table agree

`BaseInv` ties the environment table and the CPUs to physical memory: the page
directories of the table are the roots of the reference graph, a slot is free
exactly when it has no directory, and the CR3 of a CPU that runs an environment
is the directory of that environment.

Every kernel path keeps it, when the environment it frees runs on no other CPU
and the pages it maps fit.  A path runs with the lock held and ends in a `Stop`,
so each function is specified by what holds when it returns and where it lands
when it does not.
-/

namespace Sisop
namespace Jos

open RefCount Exit

/-- Where a path that does not return ends up.  It never reaches behaviour that C
leaves undefined. -/
def Landing (L : KState → Prop) : Stop → Prop
  | .left s => L s
  | .panic _ => True
  | .monitor => True
  | .undefined _ => False

@[simp] theorem landing_left {L : KState → Prop} {s : KState} : Landing L (.left s) ↔ L s := Iff.rfl

@[simp] theorem landing_panic {L : KState → Prop} {msg : String} : Landing L (.panic msg) :=
  trivial

theorem post_endOf {L : KState → Prop} {x : Except Stop Stop}
    (h : Post x (Landing L) (Landing L)) : Landing L (endOf x) := by
  cases x with
  | ok stop => exact post_ok.mp h
  | error stop => exact post_error.mp h

theorem post_panics {α : Type} {x : Except String α} {Q : α → Prop} {L : KState → Prop}
    {E : String → Prop} (h : Post x Q E) : Post (panics x) Q (Landing L) := by
  cases x with
  | ok a => exact post_ok.mpr (post_ok.mp h)
  | error msg => exact post_error.mpr trivial

/-- An environment that keeps its place: its directory, its link, its id, and
whether its slot is free. -/
structure SameSlot (a b : Env) : Prop where
  envPgdir : b.envPgdir = a.envPgdir
  envLink : b.envLink = a.envLink
  envId : b.envId = a.envId
  free_iff : b.envStatus = .free ↔ a.envStatus = .free
  dstva : a.envIpcDstva < utop → b.envIpcDstva < utop

theorem SameSlot.refl (a : Env) : SameSlot a a := ⟨rfl, rfl, rfl, Iff.rfl, id⟩

structure BaseInv (M : Machine) (K : Nat → Prop) (s : KState) : Prop where
  pages : ∃ free, PageInv M K s.pm s.dirs free fun _ => 0
  freeEnvs : ∃ l, LinkChain.Visits (fun e => (s.envs e).envLink) s.envFreeList l ∧
    ∀ e ∈ l, e < nenv ∧ (s.envs e).envStatus = .free
  status_iff : ∀ e, e < nenv → ((s.envs e).envStatus = .free ↔ (s.envs e).envPgdir = none)
  ids : ∀ e, (s.envs e).envPgdir ≠ none → envx (s.envs e).envId = e
  cpu : ∀ c e, s.curenv c = some e → (s.envs e).envPgdir = some (s.cpus c).cr3
  halted : ∀ c, (s.cpus c).cpuStatus = .halted → s.curenv c = none
  dstva : ∀ e, (s.envs e).envIpcDstva < utop

/-- The invariant while CPU `c` is in the kernel: when its environment is not to go on
running, the search of `sched_yield` will not start past the end of `envs`. -/
structure InKernel (M : Machine) (K : Nat → Prop) (c : Nat) (s : KState) : Prop where
  base : BaseInv M K s
  started : (s.cpus c).cpuStatus = .started
  inTable : ∀ cur, s.curenv c = some cur → (s.envs cur).envStatus = .running ∨ cur + 1 < nenv

section

variable {M : Machine} {K : Nat → Prop} {s s' : KState} {c e : Nat}

namespace BaseInv

theorem lt (h : BaseInv M K s) (hd : (s.envs e).envPgdir ≠ none) : e < nenv := by
  obtain ⟨free, hp⟩ := h.pages
  cases hdir : (s.envs e).envPgdir with
  | none => exact absurd hdir hd
  | some d => exact hp.dirs_lt e d hdir

theorem cur_dir (h : BaseInv M K s) (hc : s.curenv c = some e) : (s.envs e).envPgdir ≠ none := by
  rw [h.cpu c e hc]
  exact Option.some_ne_none _

theorem not_free (h : BaseInv M K s) (hd : (s.envs e).envPgdir ≠ none) :
    (s.envs e).envStatus ≠ .free :=
  fun hf => hd ((h.status_iff e (h.lt hd)).mp hf)

theorem dir_of_status (h : BaseInv M K s) (he : e < nenv) (hst : (s.envs e).envStatus ≠ .free) :
    (s.envs e).envPgdir ≠ none :=
  fun hd => hst ((h.status_iff e he).mpr hd)

/-- Everything the invariant reads is the same, up to the slots of the table, and
the CPUs still fit. -/
theorem congr (h : BaseInv M K s) (hpm : s'.pm = s.pm) (hlist : s'.envFreeList = s.envFreeList)
    (henvs : ∀ x, SameSlot (s.envs x) (s'.envs x))
    (hcpu : ∀ c x, s'.curenv c = some x → (s.envs x).envPgdir = some (s'.cpus c).cr3)
    (hhalt : ∀ c, (s'.cpus c).cpuStatus = .halted → s'.curenv c = none) : BaseInv M K s' := by
  have hdirs : s'.dirs = s.dirs := funext fun x => (henvs x).envPgdir
  refine ⟨?_, ?_, ?_, ?_, ?_, hhalt, ?_⟩
  · rw [hpm, hdirs]
    exact h.pages
  · obtain ⟨l, hl, hall⟩ := h.freeEnvs
    rw [hlist]
    refine ⟨l, LinkChain.congr hl fun x _ => (henvs x).envLink, fun x hx => ?_⟩
    exact ⟨(hall x hx).1, (henvs x).free_iff.mpr (hall x hx).2⟩
  · intro x hx
    rw [(henvs x).free_iff, (henvs x).envPgdir]
    exact h.status_iff x hx
  · intro x hx
    rw [(henvs x).envPgdir] at hx
    rw [(henvs x).envId]
    exact h.ids x hx
  · intro c x hc
    rw [(henvs x).envPgdir]
    exact hcpu c x hc
  · exact fun x => (henvs x).dstva (h.dstva x)

/-- New contents of memory under the same directories. -/
theorem setPm (h : BaseInv M K s) {m : PMap}
    (hm : ∃ free, PageInv M K m s.dirs free fun _ => 0) : BaseInv M K { s with pm := m } :=
  ⟨hm, h.freeEnvs, h.status_iff, h.ids, h.cpu, h.halted, h.dstva⟩

theorem setEnv (h : BaseInv M K s) {f : Env → Env} (hf : SameSlot (s.envs e) (f (s.envs e))) :
    BaseInv M K (s.setEnv e f) := by
  refine h.congr rfl rfl (fun x => ?_) h.cpu h.halted
  rw [KState.envs_setEnv]
  split
  · rename_i hx
    rw [hx]
    exact hf
  · exact SameSlot.refl _

theorem setStatus (h : BaseInv M K s) {st : EnvStatus} (hst : st ≠ .free)
    (he : (s.envs e).envStatus ≠ .free) : BaseInv M K (s.setStatus e st) :=
  h.setEnv ⟨rfl, rfl, rfl, ⟨fun h0 => absurd h0 hst, fun h0 => absurd h0 he⟩, id⟩

theorem clearCurenv (h : BaseInv M K s) (c : Nat) : BaseInv M K (s.setCurenv c none) := by
  refine h.congr rfl rfl (fun x => SameSlot.refl _) (fun c' x hc => ?_) (fun c' hh => ?_)
  · rw [KState.curenv_setCurenv] at hc
    split at hc
    · cases hc
    · rw [KState.cr3_setCurenv]
      exact h.cpu c' x hc
  · rw [KState.curenv_setCurenv]
    split
    · rfl
    · rename_i hcc
      rw [KState.setCurenv, KState.cpus_setCpu, if_neg hcc] at hh
      exact h.halted c' hh

theorem tweaked (h : BaseInv M K s) (ht : Tweaked s s') : BaseInv M K s' := by
  refine h.congr ht.pm ht.envFreeList (fun x => ?_) (fun c x hc => ?_) (fun c hh => ?_)
  · obtain ⟨p, hp⟩ := ht.envs x
    rw [hp]
    exact ⟨rfl, rfl, rfl, Iff.rfl, id⟩
  · rw [ht.curenv] at hc
    rw [ht.cpus]
    exact h.cpu c x hc
  · rw [ht.cpus] at hh
    rw [ht.curenv]
    exact h.halted c hh

/-! ## `env_run` and the scheduler -/

theorem ran {d : Nat} (h : BaseInv M K s) (hd : (s.envs e).envPgdir = some d)
    (hst : (s.cpus c).cpuStatus ≠ .halted) (hr : Ran s c e d s') : BaseInv M K s' := by
  have hnf := h.not_free (by rw [hd]; exact Option.some_ne_none _)
  refine h.congr hr.pm hr.envFreeList (fun x => ?_) (fun c' x hc => ?_) (fun c' hh => ?_)
  · by_cases hx : x = e
    · rw [hx, hr.self]
      exact ⟨rfl, rfl, rfl, iff_of_false (fun h0 => EnvStatus.noConfusion h0) hnf, id⟩
    · rw [hr.other x hx]
      split
      · rename_i hrun
        refine ⟨rfl, rfl, rfl, iff_of_false (fun h0 => EnvStatus.noConfusion h0) ?_, id⟩
        rw [hrun.2]
        decide
      · exact SameSlot.refl _
  · rw [KState.curenv, hr.cpus] at hc
    rw [hr.cpus]
    split at hc
    · rename_i hcc
      rw [if_pos hcc]
      cases hc
      exact hd
    · rename_i hcc
      rw [if_neg hcc]
      exact h.cpu c' x hc
  · rw [hr.cpus] at hh
    rw [KState.curenv, hr.cpus]
    split at hh
    · exact absurd hh hst
    · rename_i hcc
      rw [if_neg hcc]
      exact h.halted c' hh

theorem halt (h : BaseInv M K s) (hh : Halted M s c s') : BaseInv M K s' := by
  refine h.congr hh.pm hh.envFreeList (fun x => ?_) (fun c' x hc => ?_) (fun c' hst => ?_)
  · rw [hh.envs]
    exact SameSlot.refl _
  · rw [KState.curenv, hh.cpus] at hc
    rw [hh.cpus]
    split at hc
    · cases hc
    · rename_i hcc
      rw [if_neg hcc]
      exact h.cpu c' x hc
  · rw [hh.cpus] at hst
    rw [KState.curenv, hh.cpus]
    split
    · rfl
    · rename_i hcc
      rw [if_neg hcc] at hst
      exact h.halted c' hst

end BaseInv

namespace InKernel

theorem envRun_landing (h : InKernel M K c s) (he : (s.envs e).envPgdir ≠ none) :
    Landing (BaseInv M K) (envRun s c e) := by
  obtain ⟨d, hd⟩ := Option.ne_none_iff_exists'.mp he
  obtain ⟨s', hrun, hran⟩ := envRun_left (c := c) hd
  rw [hrun, landing_left]
  exact h.base.ran hd (by rw [h.started]; decide) hran

theorem tweaked (h : InKernel M K c s) (ht : Tweaked s s') : InKernel M K c s' := by
  refine ⟨h.base.tweaked ht, by rw [ht.cpus]; exact h.started, fun cur hc => ?_⟩
  rw [ht.curenv] at hc
  rw [ht.status]
  exact h.inTable cur hc

theorem schedYield_landing (h : InKernel M K c s) (hlt : ∀ cur, s.curenv c = some cur → cur + 1 < nenv) :
    Landing (BaseInv M K) (schedYield M s c) := by
  rcases schedYield_cases (M := M) s c with ⟨why, cur, _, hc, hover⟩ | hmon | ⟨s₁, ht, hcases⟩
  · rw [h.base.ids cur (h.base.cur_dir hc)] at hover
    exact absurd hover (Nat.not_le.mpr (hlt cur hc))
  · rw [hmon]
    trivial
  · rcases hcases with ⟨next, hlt, hst, hrun⟩ | ⟨cur, hc, _, hrun⟩ | ⟨_, s', hleft, hhalt⟩
    · rw [hrun]
      refine (h.tweaked ht).envRun_landing ?_
      rw [ht.envPgdir]
      exact h.base.dir_of_status hlt (by rw [hst]; decide)
    · rw [hrun]
      refine (h.tweaked ht).envRun_landing ?_
      rw [ht.envPgdir]
      exact h.base.cur_dir hc
    · rw [hleft, landing_left]
      exact (h.base.tweaked ht).halt hhalt

theorem trapReturn_landing (h : InKernel M K c s) :
    Landing (BaseInv M K) (trapReturn M s c) := by
  unfold trapReturn
  cases hc : s.curenv c with
  | none => exact h.schedYield_landing fun cur hcur => by rw [hc] at hcur; cases hcur
  | some cur =>
      dsimp only
      split
      · exact h.envRun_landing (h.base.cur_dir hc)
      · rename_i hrun
        refine h.schedYield_landing fun cur' hcur => ?_
        rw [hc] at hcur
        cases hcur
        exact (h.inTable cur hc).resolve_left hrun

/-- An environment gets another status, which is not the current one or may yield. -/
theorem setEnvStatus (h : InKernel M K c s) {f : Env → Env}
    (hf : SameSlot (s.envs e) (f (s.envs e))) (hlt : s.curenv c = some e → e + 1 < nenv) :
    InKernel M K c (s.setEnv e f) := by
  refine ⟨h.base.setEnv hf, h.started, fun cur hc => ?_⟩
  by_cases hx : cur = e
  · subst hx
    exact .inr (hlt hc)
  · rw [KState.envs_setEnv_of_ne _ _ _ _ hx]
    exact h.inTable cur hc

theorem setEnv (h : InKernel M K c s) {f : Env → Env}
    (hf : SameSlot (s.envs e) (f (s.envs e)))
    (hst : (f (s.envs e)).envStatus = (s.envs e).envStatus) : InKernel M K c (s.setEnv e f) := by
  refine ⟨h.base.setEnv hf, h.started, fun cur hc => ?_⟩
  have hsame : ((s.setEnv e f).envs cur).envStatus = (s.envs cur).envStatus := by
    rw [KState.envs_setEnv]
    split
    · rename_i hx
      rw [hx]
      exact hst
    · rfl
  rw [hsame]
  exact h.inTable cur hc

theorem setPm (h : InKernel M K c s) {m : PMap}
    (hm : ∃ free, PageInv M K m s.dirs free fun _ => 0) : InKernel M K c { s with pm := m } :=
  ⟨h.base.setPm hm, h.started, h.inTable⟩

/-! ## Freeing an environment -/

end InKernel

/-- `env_free` of an environment that no other CPU runs.  When it is the current
one, `curenv` is cleared next. -/
theorem BaseInv.envFree_post (h : BaseInv M K s) (hstarted : (s.cpus c).cpuStatus = .started)
    (htable : ∀ cur, s.curenv c = some cur → cur ≠ e →
      (s.envs cur).envStatus = .running ∨ cur + 1 < nenv)
    (he : (s.envs e).envPgdir ≠ none) (hother : ¬ elsewhere s c e) :
    Post (envFree M s c e) (fun s' => InKernel M K c (s'.setCurenv c none) ∧
      (s.curenv c ≠ some e → InKernel M K c s') ∧ s'.curenv c = s.curenv c) fun _ => False := by
  obtain ⟨d, hd⟩ := Option.ne_none_iff_exists'.mp he
  obtain ⟨free, hp⟩ := h.pages
  have hlt := h.lt he
  have hdir : ∀ x, (Function.update s.dirs e none) x =
      (if x = e then none else (s.envs x).envPgdir) := fun x => Function.update_apply _ _ _ _
  -- The same proof serves both CPUs' views: only the CR3 and `curenv` of `c` differ.
  have key : ∀ (m : PMap) (s₁ : KState), s₁.envs = s.envs → s₁.envFreeList = s.envFreeList →
      (∃ free', PageInv M K m (Function.update s.dirs e none) free' fun _ => 0) →
      (∀ c' x, s₁.curenv c' = some x →
        x ≠ e ∧ s.curenv c' = some x ∧ (s₁.cpus c').cr3 = (s.cpus c').cr3) →
      (∀ c', (s₁.cpus c').cpuStatus = (s.cpus c').cpuStatus) →
      (∀ c', s.curenv c' = none → s₁.curenv c' = none) →
      InKernel M K c { ({ s₁ with pm := m } : KState).setEnv e fun env =>
        { env with envPgdir := none, envStatus := .free, envLink := s.envFreeList } with
          envFreeList := some e } := by
    intro m s₁ henvs hlist hm hcpu hst hnone
    have henv : ∀ x, (({ s₁ with pm := m } : KState).setEnv e fun env =>
        { env with envPgdir := none, envStatus := .free, envLink := s.envFreeList }).envs x =
        if x = e then
          { s.envs e with envPgdir := none, envStatus := .free, envLink := s.envFreeList }
        else s.envs x := by
      intro x
      rw [KState.envs_setEnv, henvs]
    obtain ⟨l, hl, hall⟩ := h.freeEnvs
    have hel : e ∉ l := fun hmem => he ((h.status_iff e hlt).mp (hall e hmem).2)
    refine ⟨⟨?_, ⟨e :: l, ?_, ?_⟩, ?_, ?_, ?_, ?_, ?_⟩, ?_, ?_⟩
    · obtain ⟨free', hm'⟩ := hm
      refine ⟨free', ?_⟩
      have hdirs : ({ ({ s₁ with pm := m } : KState).setEnv e fun env =>
          { env with envPgdir := none, envStatus := .free, envLink := s.envFreeList } with
            envFreeList := some e } : KState).dirs = Function.update s.dirs e none := by
        funext x
        rw [hdir]
        show (KState.envs _ x).envPgdir = _
        rw [henv]
        split <;> rfl
      rw [hdirs]
      exact hm'
    · refine ⟨rfl, ?_⟩
      show LinkChain.Visits _ (KState.envs _ e).envLink l
      rw [henv, if_pos rfl]
      refine LinkChain.congr hl fun x hx => ?_
      have hxe : x ≠ e := fun heq => hel (heq ▸ hx)
      show (KState.envs _ x).envLink = _
      rw [henv, if_neg hxe]
    · intro x hx
      show x < nenv ∧ (KState.envs _ x).envStatus = .free
      rw [henv]
      rcases List.mem_cons.mp hx with rfl | hx
      · exact ⟨hlt, by rw [if_pos rfl]⟩
      · have hxe : x ≠ e := fun heq => hel (heq ▸ hx)
        rw [if_neg hxe]
        exact hall x hx
    · intro x hx
      show (KState.envs _ x).envStatus = .free ↔ (KState.envs _ x).envPgdir = none
      rw [henv]
      split
      · simp
      · exact h.status_iff x hx
    · intro x
      show (KState.envs _ x).envPgdir ≠ none → envx (KState.envs _ x).envId = x
      rw [henv]
      split
      · intro hx
        exact absurd rfl hx
      · exact h.ids x
    · intro c' x hc
      obtain ⟨hx, hcur, hcr3⟩ := hcpu c' x hc
      show (KState.envs _ x).envPgdir = some (s₁.cpus c').cr3
      rw [henv, if_neg hx, hcr3]
      exact h.cpu c' x hcur
    · intro c' hh
      exact hnone c' (h.halted c' (by rw [← hst]; exact hh))
    · intro x
      show (KState.envs _ x).envIpcDstva < utop
      rw [henv]
      split
      · exact h.dstva e
      · exact h.dstva x
    · exact (hst c).trans hstarted
    · intro cur hcur
      obtain ⟨hx, hold, _⟩ := hcpu c cur hcur
      show (KState.envs _ cur).envStatus = .running ∨ cur + 1 < nenv
      rw [henv, if_neg hx]
      exact htable cur hold hx
  have hloop := hp.envFreePages_spec hd
  unfold envFree
  by_cases hc : s.curenv c = some e
  · simp only [hc, if_true, KState.envs_lcr3, hd, KState.pm_lcr3]
    cases hfree : envFreePages M s.pm d with
    | error msg => exact absurd (hloop.exit hfree) id
    | ok m =>
        refine post_pure.mpr ⟨?_, fun hne => absurd rfl hne, ?_⟩
        · refine key m ((s.lcr3 c M.kernPgdir).setCurenv c none) rfl rfl (hloop.value hfree)
            (fun c' x hx => ?_) (fun c' => ?_) (fun c' hn => ?_)
          · rw [KState.curenv_setCurenv, KState.curenv_lcr3] at hx
            split at hx
            · cases hx
            · rename_i hcc
              refine ⟨?_, hx, ?_⟩
              · rintro rfl
                exact hother ⟨c', hcc, hx⟩
              · rw [KState.cr3_setCurenv, KState.cr3_lcr3, if_neg hcc]
          · simp only [KState.setCurenv, KState.lcr3, KState.cpus_setCpu]
            split
            · rename_i hcc
              simp [hcc]
            · rfl
          · rw [KState.curenv_setCurenv, KState.curenv_lcr3]
            split
            · rfl
            · exact hn
        · exact (KState.curenv_lcr3 s M.kernPgdir c c).trans hc
  · simp only [hc, if_false, hd]
    cases hfree : envFreePages M s.pm d with
    | error msg => exact absurd (hloop.exit hfree) id
    | ok m =>
        have hback := key m s rfl rfl (hloop.value hfree)
          (fun c' x hx => ⟨?_, hx, rfl⟩) (fun _ => rfl) (fun _ hn => hn)
        · refine post_pure.mpr ⟨⟨hback.base.clearCurenv c, ?_, ?_⟩, fun _ => hback, rfl⟩
          · rw [KState.setCurenv, KState.cpus_setCpu, if_pos rfl]
            exact hback.started
          · intro cur hcur
            rw [KState.curenv_setCurenv_self] at hcur
            cases hcur
        · rintro rfl
          by_cases hcc : c' = c
          · rw [hcc] at hx
            exact hc hx
          · exact hother ⟨c', hcc, hx⟩

namespace InKernel

theorem envFree_post (h : InKernel M K c s) (he : (s.envs e).envPgdir ≠ none)
    (hother : ¬ elsewhere s c e) :
    Post (envFree M s c e) (fun s' => InKernel M K c (s'.setCurenv c none) ∧
      (s.curenv c ≠ some e → InKernel M K c s') ∧ s'.curenv c = s.curenv c) fun _ => False :=
  h.base.envFree_post h.started (fun cur hc _ => h.inTable cur hc) he hother

/-- `env_free` moves no CPU to another environment. -/
theorem envFree_curenv (s : KState) (c e : Nat) {s' : KState} (h : envFree M s c e = .ok s')
    (c' : Nat) : s'.curenv c' = s.curenv c' := by
  unfold envFree at h
  have hif : ∀ s₁, (s₁ = if s.curenv c = some e then s.lcr3 c M.kernPgdir else s) →
      s₁.curenv c' = s.curenv c' := by
    rintro s₁ rfl
    split
    · exact KState.curenv_lcr3 s M.kernPgdir c c'
    · rfl
  dsimp only at h
  generalize hs₁ : (if s.curenv c = some e then s.lcr3 c M.kernPgdir else s) = s₁ at h
  cases hd : (s₁.envs e).envPgdir with
  | none => simp [hd] at h
  | some d =>
      rw [hd] at h
      cases hx : envFreePages M s₁.pm d with
      | error msg => simp [hx, panics] at h
      | ok m =>
          simp only [hx, panics, Except.ok_bind_eq] at h
          cases h
          exact hif s₁ hs₁.symm

/-- `env_destroy` of an environment that runs on this CPU, or nowhere, or is
marked as running. -/
theorem envDestroy_post (h : InKernel M K c s) (he : (s.envs e).envPgdir ≠ none)
    (hother : ¬ ((s.envs e).envStatus = .running ∧ s.curenv c ≠ some e) → ¬ elsewhere s c e) :
    Post (envDestroy M s c e) (fun s' => InKernel M K c s' ∧ s'.curenv c = s.curenv c ∧
      s.curenv c ≠ some e) (Landing (BaseInv M K)) := by
  unfold envDestroy
  by_cases hrun : (s.envs e).envStatus = .running ∧ s.curenv c ≠ some e
  · rw [if_pos hrun, post_ok]
    have hmarks := h.setEnvStatus (f := fun env => { env with envStatus := .dying })
      ⟨rfl, rfl, rfl, iff_of_false (fun h0 => EnvStatus.noConfusion h0) (h.base.not_free he), id⟩
      fun hc => absurd hc hrun.2
    exact ⟨hmarks, rfl, hrun.2⟩
  · rw [if_neg hrun]
    refine Post.bind ((h.envFree_post he (hother hrun)).imp (fun _ hq => hq)
      fun _ hf => hf.elim) ?_
    rintro s' ⟨hclear, hback, hcur⟩
    by_cases hc : s'.curenv c = some e
    · rw [if_pos hc, post_error]
      refine hclear.schedYield_landing fun cur hcur => ?_
      rw [KState.curenv_setCurenv_self] at hcur
      cases hcur
    · rw [if_neg hc]
      rw [hcur] at hc
      exact post_pure.mpr ⟨hback hc, hcur, hc⟩

end InKernel

end

end Jos
end Sisop

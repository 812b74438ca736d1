import Sisop.Jos.Run
import Sisop.Jos.Selection

/-!
# Priorities

With priorities the scheduler only takes an environment whose `env_priority` is
below `MIN_PRIORITY`.  The scheduler itself keeps every priority there, and so
does `env_alloc`.  `sys_env_set_priority` writes what it is given, to any
environment at all: it looks its target up without the permission check, and
compares the new priority with the old one only when the caller names itself.
-/

namespace Sisop
namespace Jos

open TransitionSystem

/-- Every priority that is set is one the search takes. -/
def SetsBelowMin (s : KState) : Event → Prop
  | .trap c tf _ => ∀ cur, s.curenv c = some cur → (s.envs cur).envStatus ≠ .dying →
      ∀ e p, setsPriority (trapState s c cur tf) cur tf = some (e, p) → p < minPriority
  | _ => True

/-- An environment sets no priority but its own and that of an immediate child,
which it does not improve. -/
def SetsOwn (s : KState) : Event → Prop
  | .trap c tf _ => ∀ cur, s.curenv c = some cur → (s.envs cur).envStatus ≠ .dying →
      ∀ e p, setsPriority (trapState s c cur tf) cur tf = some (e, p) → e ≠ cur →
        (s.envs e).envParentId = (s.envs cur).envId ∧ (s.envs e).envPriority ≤ p
  | _ => True

/-- The scheduler takes a runnable environment if there is one: asked in this
state, and whenever it is called in a step, after which none is runnable if it
selected none. -/
structure NeverSkips (M : Machine) (K : Nat → Prop) (guard : KState → Event → Prop)
    (s : KState) : Prop where
  below : ∀ e, e < nenv → (s.envs e).envStatus ≠ .free → (s.envs e).envPriority < minPriority
  selects : ∀ c, (∀ cur, s.curenv c = some cur → cur + 1 < nenv) →
    (∃ e, e < nenv ∧ (s.envs e).envStatus = .runnable) →
    ∃ next s₁, (s.envs next).envStatus = .runnable ∧ schedYield M s c = envRun s₁ c next
  called : ∀ ev s', guard s ev → (kernel M K).step s ev s' →
    s'.stats.numberOfYields ≠ s.stats.numberOfYields →
    s'.stats.numberOfSwitches = s.stats.numberOfSwitches →
    ∀ e, e < nenv → (s'.envs e).envStatus ≠ .runnable

/-- A `sys_env_set_priority` of `cur` that returns 0. -/
def SetPriorityReturnsZero (s : KState) (cur : Nat) (tf : Trapframe) : Prop :=
  tf.trapno = tSyscall ∧ sysno tf.regs.eax = some .envSetPriority ∧
    (sysEnvSetPriority s cur tf.regs.edx tf.regs.ecx.toInt).1 = 0

/-- No step improves the priority of an environment unless it makes a boost, and
a call that returns 0 is for the caller or a child and improves nothing. -/
structure NeverImproves (M : Machine) (K : Nat → Prop) (guard : KState → Event → Prop)
    (s : KState) : Prop where
  improves : ∀ ev s', guard s ev → (kernel M K).step s ev s' →
    ∀ e, e < nenv → (s.envs e).envStatus ≠ .free →
      (s'.envs e).envPriority < (s.envs e).envPriority →
      s'.stats.numberOfBoosts = s.stats.numberOfBoosts + 1#32
  returns : ∀ c tf inp cur, guard s (.trap c tf inp) → s.curenv c = some cur →
    (s.envs cur).envStatus ≠ .dying → SetPriorityReturnsZero (trapState s c cur tf) cur tf →
    ∃ e, envid2env (trapState s c cur tf) cur tf.regs.edx false = .ok e ∧
      (e = cur ∨ (s.envs e).envParentId = (s.envs cur).envId) ∧
      (s.envs e).envPriority ≤ tf.regs.ecx.toInt

/-- A slot that keeps its priority, and is in use only if it was before. -/
def KeepsPriority (a b : Env) : Prop :=
  b.envPriority = a.envPriority ∧ (b.envPgdir ≠ none → a.envPgdir ≠ none)

/-- What an entry does to the priority of slot `x` before it reschedules. -/
inductive Repriced (M : Machine) (s : KState) (ev : Event) (x : Nat) (s₂ : KState) : Prop
  | fresh (hdir : (s.envs x).envPgdir = none) (hp : (s₂.envs x).envPriority = 0)
  | same (h : KeepsPriority (s.envs x) (s₂.envs x))
  | set {c cur : Nat} {tf : Trapframe} {inp : Inputs} {p : Int} (hev : ev = .trap c tf inp)
      (hc : s.curenv c = some cur) (hst : (s.envs cur).envStatus ≠ .dying)
      (hset : setsPriority (trapState s c cur tf) cur tf = some (x, p))
      (hp : (s₂.envs x).envPriority = p)

/-- What a step does to priorities before it reschedules, if it does. -/
inductive Pays (M : Machine) (s : KState) (ev : Event) (s' : KState) : Prop
  | leaves {c : Nat} {fault : Prop} {s₂ : KState} (hl : Leaves M c fault s₂ s')
      (hstats : s₂.stats = s.stats) (hre : ∀ x, Repriced M s ev x s₂)
  | stays (hstats : s'.stats = s.stats) (hre : ∀ x, Repriced M s ev x s')

section

variable {M : Machine} {K : Nat → Prop} {guard : KState → Event → Prop} {s s₁ s₂ s' : KState}
  {c cur e x : Nat} {tf : Trapframe} {ev : Event} {fault : Prop} {p : Int}

/-! ## Before an entry reschedules -/

theorem KeepsPriority.trans {a b d : Env} (h : KeepsPriority a b) (h' : KeepsPriority b d) :
    KeepsPriority a d := ⟨h'.1.trans h.1, fun hdir => h.2 (h'.2 hdir)⟩

theorem KeepsPriority.of_eq {a b : Env} (hp : b.envPriority = a.envPriority)
    (hdir : b.envPgdir = a.envPgdir) : KeepsPriority a b := by
  refine ⟨hp, fun h => ?_⟩
  rw [← hdir]
  exact h

theorem KeepsPriority.refl (a : Env) : KeepsPriority a a := .of_eq rfl rfl

theorem keepsPriority_setEnv {f : Env → Env} (hf : KeepsPriority (s.envs e) (f (s.envs e)))
    (x : Nat) : KeepsPriority (s.envs x) ((s.setEnv e f).envs x) := by
  rw [KState.envs_setEnv]
  split
  · rename_i hx
    rw [hx]
    exact hf
  · exact .refl _

theorem Quiet.keepsPriority (h : Quiet cur s s') (x : Nat) :
    KeepsPriority (s.envs x) (s'.envs x) := by
  obtain ⟨tf, u, henv, _⟩ := h.envs x
  rw [henv]
  exact .of_eq rfl rfl

theorem Freed.keepsPriority (h : Freed s e s') (x : Nat) :
    KeepsPriority (s.envs x) (s'.envs x) := by
  by_cases hx : x = e
  · rw [hx, h.self]
    exact ⟨rfl, fun hdir => absurd rfl hdir⟩
  · rw [h.other x hx]
    exact .refl _

/-- Changes that keep priorities may come before and after. -/
theorem Repriced.congr (h : Repriced M s ev x s₁) (hk : KeepsPriority (s₁.envs x) (s₂.envs x)) :
    Repriced M s ev x s₂ := by
  cases h with
  | fresh hdir hp => exact .fresh hdir (hk.1.trans hp)
  | same h => exact .same (h.trans hk)
  | set hev hc hst hset hp => exact .set hev hc hst hset (hk.1.trans hp)

theorem Alloced.repriced {parentId : Word} (hk : KeepsPriority (s.envs x) (s₁.envs x))
    (hdir : (s.envs e).envPgdir = none) (h : Alloced s₁ e parentId s') :
    Repriced M s ev x s' := by
  by_cases hx : x = e
  · obtain ⟨d, hself⟩ := h.self
    subst hx
    refine .fresh hdir ?_
    rw [hself]
  · refine .same (hk.trans ?_)
    rw [h.other x hx]
    exact .refl _

theorem BaseInv.head_dir (h : BaseInv M K s) (he : s.envFreeList = some e) :
    (s.envs e).envPgdir = none := by
  obtain ⟨hlt, hst⟩ := h.head_free he
  exact (h.status_iff e hlt).mp hst

theorem keepsPriority_trapState (s : KState) (c cur : Nat) (tf : Trapframe) (x : Nat) :
    KeepsPriority (s.envs x) ((trapState s c cur tf).envs x) :=
  keepsPriority_setEnv (s := cpuStarted s c) (f := fun env => { env with envTf := tf })
    (.of_eq rfl rfl) x

/-- What a trap does to priorities before it reschedules. -/
theorem Body.repriced {inp : Inputs} (hb : BaseInv M K s) (hc : s.curenv c = some cur)
    (hst : (s.envs cur).envStatus ≠ .dying) (hbody : Body M c cur tf (trapState s c cur tf) s₂)
    (x : Nat) : Repriced M s (.trap c tf inp) x s₂ := by
  have hkeep := keepsPriority_trapState s c cur tf x
  have hset : ∀ e (f : Env → Env), KeepsPriority ((trapState s c cur tf).envs e)
      (f ((trapState s c cur tf).envs e)) →
      Repriced M s (.trap c tf inp) x ((trapState s c cur tf).setEnv e f) :=
    fun e f hf => .same (hkeep.trans (keepsPriority_setEnv hf x))
  cases hbody with
  | recv _ _ => exact hset _ _ (.of_eq rfl rfl)
  | @act s₁ _ ha hq =>
      refine Repriced.congr ?_ (hq.keepsPriority x)
      cases ha with
      | none _ => exact .same hkeep
      | @fork e s₁ _ halloc =>
          exact (halloc.repriced hkeep (hb.head_dir halloc.head)).congr
            (keepsPriority_setEnv (.of_eq rfl rfl) x)
      | setStatus _ => exact hset _ _ (.of_eq rfl rfl)
      | @setPriority e p _ hcall =>
          by_cases hx : x = e
          · subst hx
            refine .set rfl hc hst hcall ?_
            rw [prioritized, KState.envs_setEnv_self]
          · refine .same (hkeep.trans ?_)
            rw [prioritized, KState.envs_setEnv_of_ne _ _ _ _ hx]
            exact .refl _
      | dying _ _ _ => exact hset _ _ (.of_eq rfl rfl)
      | free _ _ _ hf => exact .same (hkeep.trans (hf.keepsPriority x))
      | exit _ hf => exact .same (hkeep.trans (hf.keepsPriority x))
      | @send dst _ =>
          refine .same (hkeep.trans ?_)
          by_cases hx : x = dst
          · subst hx
            rw [envs_delivered_self]
            exact .of_eq rfl rfl
          · rw [envs_delivered_of_ne hx]
            exact .refl _
      | recvFail _ _ => exact hset _ _ (.of_eq rfl rfl)

theorem pays_of_entry (hb : BaseInv M K s) (he : Entry M s ev s') : Pays M s ev s' := by
  cases he with
  | @create elf e s₁ _ ha hq =>
      refine .stays (hq.stats.trans ha.stats) fun x => ?_
      exact (ha.repriced (.refl _) (hb.head_dir ha.head)).congr (hq.keepsPriority x)
  | start _ hr => exact .leaves hr rfl fun x => .same (.refl _)
  | wake _ hr => exact .leaves hr rfl fun x => .same (.refl _)
  | @collect c cur tf inp s₁ _ hc hst hf hr =>
      exact .leaves hr hf.stats fun x => .same (hf.keepsPriority x)
  | @trap c cur tf inp s₂ _ hc hst hbody hr =>
      exact .leaves hr hbody.stats fun x => hbody.repriced hb hc hst x
  | store m => exact .stays rfl fun x => .same (.refl _)

/-! ## Rescheduling -/

theorem envPriority_searched (M : Machine) (s : KState) (x : Nat) :
    ((searched M s).envs x).envPriority = (s.envs x).envPriority ∨
      ((searched M s).envs x).envPriority = 0 ∧
        (searched M s).stats.numberOfBoosts = s.stats.numberOfBoosts + 1#32 := by
  unfold searched schedBoost
  cases M.build with
  | roundRobin => exact .inl rfl
  | priorities =>
      dsimp only
      split
      · dsimp only
        split
        · exact .inr ⟨rfl, rfl⟩
        · exact .inl rfl
      · exact .inl rfl

theorem envPriority_schedAge (M : Machine) (s : KState) (c x : Nat) :
    ((schedAge M s c).envs x).envPriority = (s.envs x).envPriority ∨
      (s.envs x).envPriority < minPriority - 1 ∧
        ((schedAge M s c).envs x).envPriority = (s.envs x).envPriority + 1 := by
  unfold schedAge
  cases M.build with
  | roundRobin => exact .inl rfl
  | priorities =>
      cases s.curenv c with
      | none => exact .inl rfl
      | some cur =>
          dsimp only
          split
          · rename_i hlow
            by_cases hx : x = cur
            · subst hx
              rw [KState.envs_setEnv_self]
              exact .inr ⟨hlow, rfl⟩
            · rw [KState.envs_setEnv_of_ne _ _ _ _ hx]
              exact .inl rfl
          · exact .inl rfl

theorem Ran.kept {d : Nat} (h : Ran s c e d s') (x : Nat) :
    (s'.envs x).envPriority = (s.envs x).envPriority ∧
      (s'.envs x).envPgdir = (s.envs x).envPgdir := by
  by_cases hx : x = e
  · subst hx
    rw [h.self]
    exact ⟨rfl, rfl⟩
  · rw [h.other x hx]
    split <;> exact ⟨rfl, rfl⟩

theorem Leaves.envPgdir (h : Leaves M c fault s s') (x : Nat) :
    (s'.envs x).envPgdir = (s.envs x).envPgdir := by
  cases h with
  | back _ _ h =>
      obtain ⟨d, hr⟩ := envRun_ran h
      exact (hr.kept x).2
  | yield h =>
      cases (chosen_of_yield h).2 with
      | next _ hr => exact (hr.kept x).2.trans ((switched_tweaked M s c).envPgdir x)
      | keep _ _ hr => exact (hr.kept x).2.trans ((searched_tweaked M s).envPgdir x)
      | halt _ hh =>
          rw [hh.envs]
          exact (searched_tweaked M s).envPgdir x

/-- The scheduler sets a priority to 0 in a boost, and raises its number by one below
`MIN_PRIORITY`. -/
theorem Leaves.envPriority (h : Leaves M c fault s s') (x : Nat) :
    ∃ p, (p = (s.envs x).envPriority ∨
        p = 0 ∧ s'.stats.numberOfBoosts = s.stats.numberOfBoosts + 1#32) ∧
      ((s'.envs x).envPriority = p ∨
        p < minPriority - 1 ∧ (s'.envs x).envPriority = p + 1) := by
  cases h with
  | back _ _ h =>
      obtain ⟨d, hr⟩ := envRun_ran h
      exact ⟨_, .inl rfl, .inl (hr.kept x).1⟩
  | yield h =>
      have hboost := envPriority_searched M s x
      refine ⟨((searched M s).envs x).envPriority, ?_⟩
      cases (chosen_of_yield h).2 with
      | next _ hr =>
          have hage := envPriority_schedAge M (searched M s) c x
          have hcount : s'.stats.numberOfBoosts = (searched M s).stats.numberOfBoosts := by
            rw [hr.stats]
            show (schedAge M (searched M s) c).stats.numberOfBoosts = _
            rw [stats_schedAge]
          rw [hcount, (hr.kept x).1]
          exact ⟨hboost, hage⟩
      | keep _ _ hr =>
          rw [hr.stats, (hr.kept x).1]
          exact ⟨hboost, .inl rfl⟩
      | halt _ hh =>
          rw [hh.stats, hh.envs]
          exact ⟨hboost, .inl rfl⟩

/-! ## No runnable environment is skipped -/

/-- Every environment in use has a priority the search takes. -/
def LowPriority (s : KState) : Prop :=
  ∀ e, (s.envs e).envPgdir ≠ none → (s.envs e).envPriority < minPriority

theorem LowPriority.searched (h : LowPriority s) : LowPriority (searched M s) := by
  intro e hdir
  rw [(searched_tweaked M s).envPgdir] at hdir
  rcases envPriority_searched M s e with hp | ⟨hp, _⟩
  · rw [hp]
    exact h e hdir
  · rw [hp]
    decide

theorem LowPriority.repriced (h : LowPriority s) (hok : SetsBelowMin s ev)
    (hre : ∀ x, Repriced M s ev x s₂) : LowPriority s₂ := by
  intro e hdir
  cases hre e with
  | fresh _ hp =>
      rw [hp]
      decide
  | same hk =>
      rw [hk.1]
      exact h e (hk.2 hdir)
  | @set c cur tf inp p hev hc hst hset hp =>
      subst hev
      rw [hp]
      exact hok cur hc hst e p hset

theorem LowPriority.leaves (h : LowPriority s) (hl : Leaves M c fault s s') : LowPriority s' := by
  intro e hdir
  rw [hl.envPgdir] at hdir
  have hlow := h e hdir
  obtain ⟨p, hp, hp'⟩ := hl.envPriority e
  have hmin : minPriority = 256 := rfl
  omega

theorem LowPriority.step (h : LowPriority s) (hok : SetsBelowMin s ev) (hpay : Pays M s ev s') :
    LowPriority s' := by
  cases hpay with
  | leaves hl _ hre => exact (h.repriced hok hre).leaves hl
  | stays _ hre => exact h.repriced hok hre

theorem Booted.lowPriority (h : Booted M K s) : LowPriority s := by
  intro e hdir
  obtain ⟨envs, hnone, henvs⟩ := h.envs
  rw [henvs] at hdir
  exact absurd (hnone e).1 hdir

/-- Where no priority is too large the search takes whatever is runnable. -/
theorem LowPriority.schedulable (h : LowPriority s) (hdir : (s.envs e).envPgdir ≠ none)
    (hst : (s.envs e).envStatus = .runnable) : schedulable M s e = true := by
  unfold Jos.schedulable
  cases M.build with
  | roundRobin => exact decide_eq_true hst
  | priorities => exact decide_eq_true ⟨hst, h e hdir⟩

theorem BaseInv.schedStart_lt (h : BaseInv M K s)
    (hcur : ∀ cur, s.curenv c = some cur → cur + 1 < nenv) : schedStart s c < nenv := by
  unfold schedStart
  cases hc : s.curenv c with
  | none => exact Nat.succ_pos _
  | some cur =>
      have hdir : (s.envs cur).envPgdir ≠ none := by
        rw [h.cpu c cur hc]
        exact Option.some_ne_none _
      dsimp only
      rw [h.ids cur hdir]
      exact hcur cur hc

theorem LowPriority.selects (h : LowPriority s) (hb : BaseInv M K s)
    (hcur : ∀ cur, s.curenv c = some cur → cur + 1 < nenv) (he : e < nenv)
    (hst : (s.envs e).envStatus = .runnable) :
    ∃ next s₁, (s.envs next).envStatus = .runnable ∧ schedYield M s c = envRun s₁ c next := by
  have ht := searched_tweaked M s
  have hstart := hb.schedStart_lt hcur
  have hdir : (s.envs e).envPgdir ≠ none := hb.dir_of_status he (by rw [hst]; decide)
  have htake : Jos.schedulable M (Jos.searched M s) e = true := by
    refine h.searched.schedulable ?_ ?_
    · rw [ht.envPgdir]
      exact hdir
    · rw [ht.status]
      exact hst
  obtain ⟨next, hsel⟩ := Rotation.exists_turn hstart he htake
  refine ⟨next, countSwitch (schedAge M (Jos.searched M s) c), ?_, ?_⟩
  · rw [← ht.status]
    exact schedulable_runnable (selection_some hstart hsel).2.1
  · rw [schedYield_eq M s c hstart, show selection M s c = some next from hsel]

/-- A scheduler that selected nothing leaves nothing runnable. -/
theorem LowPriority.called (h : LowPriority s) (hb : BaseInv M K s') (hl : Leaves M c fault s s')
    (hy : s'.stats.numberOfYields ≠ s.stats.numberOfYields)
    (hsw : s'.stats.numberOfSwitches = s.stats.numberOfSwitches) (he : e < nenv) :
    (s'.envs e).envStatus ≠ .runnable := by
  intro hst
  have hdir : (s'.envs e).envPgdir ≠ none := hb.dir_of_status he (by rw [hst]; decide)
  rw [hl.envPgdir, ← (searched_tweaked M s).envPgdir] at hdir
  obtain ⟨hstart, hch⟩ := hl.chosen hy
  have hnone : selection M s c = none := by
    by_contra hsome
    rw [hch.switches, if_neg hsome] at hsw
    bv_omega
  have hskip : ((Jos.searched M s).envs e).envStatus ≠ .runnable := by
    intro hrun
    have htake := selection_none hstart hnone he
    rw [h.searched.schedulable hdir hrun] at htake
    cases htake
  cases hch with
  | next hsel _ =>
      rw [hnone] at hsel
      cases hsel
  | @keep cur d _ hc hr =>
      by_cases hx : e = cur
      · subst hx
        rw [hr.self] at hst
        cases hst
      · have hne : ¬ ((Jos.searched M s).curenv c = some e ∧
            ((Jos.searched M s).envs e).envStatus = .running) := by
          intro hpre
          rw [(searched_tweaked M s).curenv, hc] at hpre
          exact hx (Option.some.inj hpre.1).symm
        rw [hr.other e hx, if_neg hne] at hst
        exact hskip hst
  | halt _ hh =>
      rw [hh.envs] at hst
      exact hskip hst

/-! ## No priority improves -/

/-- An id that is accepted is 0 or that of the environment. -/
theorem envid2env_names {envid : Word} {checkperm : Bool}
    (h : envid2env s cur envid checkperm = .ok e) :
    envid = 0#32 ∧ e = cur ∨ envid ≠ 0#32 ∧ (s.envs e).envId = envid := by
  unfold envid2env at h
  split at h
  · rename_i hz
    cases h
    exact .inl ⟨hz, rfl⟩
  · rename_i hz
    dsimp only at h
    split at h
    · cases h
    · rename_i hok
      split at h
      · cases h
      · cases h
        exact .inr ⟨hz, not_not.mp fun hne => hok (.inr hne)⟩

/-- What a `sys_env_set_priority` that is carried out was called with. -/
theorem setsPriority_some (h : setsPriority s cur tf = some (e, p)) :
    envid2env s cur tf.regs.edx false = .ok e ∧ p = tf.regs.ecx.toInt ∧
      ¬ ((tf.regs.edx = 0#32 ∨ tf.regs.edx = (s.envs cur).envId) ∧
        tf.regs.ecx.toInt < (s.envs cur).envPriority) := by
  unfold setsPriority at h
  split at h
  · split at h
    · cases h
    · rename_i hraise
      split at h
      · rename_i he
        cases h
        exact ⟨he, rfl, hraise⟩
      · cases h
  · cases h

/-- The caller cannot improve its own priority. -/
theorem setsPriority_own (h : setsPriority s cur tf = some (cur, p)) :
    (s.envs cur).envPriority ≤ p := by
  obtain ⟨he, hp, hraise⟩ := setsPriority_some h
  have hown : tf.regs.edx = 0#32 ∨ tf.regs.edx = (s.envs cur).envId :=
    (envid2env_names he).imp (fun h => h.1) fun h => h.2.symm
  rw [hp]
  exact Int.not_lt.mp fun hlt => hraise ⟨hown, hlt⟩

theorem setsPriority_of_returns (h : SetPriorityReturnsZero s cur tf) :
    ∃ e, envid2env s cur tf.regs.edx false = .ok e ∧
      setsPriority s cur tf = some (e, tf.regs.ecx.toInt) := by
  obtain ⟨hno, hsys, hzero⟩ := h
  unfold sysEnvSetPriority at hzero
  unfold setsPriority
  rw [if_pos ⟨hno, hsys⟩]
  split at hzero
  · exact absurd (show -eInval = 0 from hzero) (by decide)
  · rename_i hraise
    rw [if_neg hraise]
    cases he : envid2env s cur tf.regs.edx false with
    | error r =>
        rw [he] at hzero
        exact absurd (show -eBadEnv = 0 from hzero) (by decide)
    | ok e => exact ⟨e, rfl, rfl⟩

/-- What a call that meets the condition does to the priority of its target. -/
theorem SetsOwn.raises {inp : Inputs} (hok : SetsOwn s (.trap c tf inp))
    (hc : s.curenv c = some cur) (hst : (s.envs cur).envStatus ≠ .dying)
    (hset : setsPriority (trapState s c cur tf) cur tf = some (e, p)) :
    (e = cur ∨ (s.envs e).envParentId = (s.envs cur).envId) ∧ (s.envs e).envPriority ≤ p := by
  by_cases hx : e = cur
  · subst hx
    refine ⟨.inl rfl, ?_⟩
    rw [← (keepsPriority_trapState s c e tf e).1]
    exact setsPriority_own hset
  · obtain ⟨hparent, hle⟩ := hok cur hc hst e p hset hx
    exact ⟨.inr hparent, hle⟩

theorem Repriced.raises (hok : SetsOwn s ev) (hdir : (s.envs x).envPgdir ≠ none)
    (hre : Repriced M s ev x s₂) : (s.envs x).envPriority ≤ (s₂.envs x).envPriority := by
  cases hre with
  | fresh hnone _ => exact absurd hnone hdir
  | same hk => exact Int.le_of_eq hk.1.symm
  | set hev hc hst hset hp =>
      subst hev
      rw [hp]
      exact (hok.raises hc hst hset).2

theorem Pays.improves (hok : SetsOwn s ev) (hdir : (s.envs x).envPgdir ≠ none)
    (hpay : Pays M s ev s') (hlt : (s'.envs x).envPriority < (s.envs x).envPriority) :
    s'.stats.numberOfBoosts = s.stats.numberOfBoosts + 1#32 := by
  cases hpay with
  | @leaves c fault s₂ hl hstats hre =>
      have hraise := (hre x).raises hok hdir
      obtain ⟨p, hp, hp'⟩ := hl.envPriority x
      rcases hp with hp | ⟨_, hboost⟩
      · omega
      · rw [hboost, hstats]
  | stays _ hre =>
      have hraise := (hre x).raises hok hdir
      omega

/-! ## Runs -/

theorem base_step (hb : BaseInv M K s) (hfit : Fits s ev) (hown : FreesOwn M s ev)
    (h : (kernel M K).step s ev s') : BaseInv M K s' ∧ Pays M s ev s' :=
  ⟨allows_landing (outcome_landing hb h.1 hfit hown) h.2,
    pays_of_entry hb (entry_of_step hb hfit hown h).2⟩

theorem lowPriority_reach (hguard : ∀ s ev, guard s ev →
      Fits s ev ∧ FreesOwn M s ev ∧ SetsBelowMin s ev)
    (h : (kernel M K).Reach guard s) : BaseInv M K s ∧ LowPriority s := by
  refine h.invariant (P := fun s => BaseInv M K s ∧ LowPriority s)
    (fun s hs => ⟨Booted.base hs, Booted.lowPriority hs⟩) fun s ev s' hs hok hstep => ?_
  obtain ⟨hb, hlow⟩ := hs
  obtain ⟨hfit, hown, hset⟩ := hguard s ev hok
  obtain ⟨hb', hpay⟩ := base_step hb hfit hown hstep
  exact ⟨hb', hlow.step hset hpay⟩

end

/-- Two environments, the first of which makes its own priority 200. -/
theorem ownPriority_pc : ∃ s, (kernel (pc .priorities) lowPages).Reach (fun s ev =>
      Fits s ev ∧ FreesOwn (pc .priorities) s ev ∧ SetsBelowMin s ev ∧ SetsOwn s ev) s ∧
    (s.envs 0).envPriority = 200 ∧ (s.envs 1).envStatus = .runnable := by
  have hrun : (run (pc .priorities) [.create emptyImage, .create emptyImage, .start 0]
      pcBoot).any (fun s => (s.curenv 0 = some 0 ∧ (s.envs 0).envStatus = .running) ∧
        (exec (pc .priorities) s (call 0 14#32 0#32 200#32 0#32 0#32 0#32)).any (fun s =>
          (s.envs 0).envPriority = 200 ∧ (s.envs 1).envStatus = .runnable) = true) = true := by
    decide +kernel
  have hguard : ∀ s, ∀ ev ∈ [Event.create emptyImage, .create emptyImage, .start 0],
      Fits s ev ∧ FreesOwn (pc .priorities) s ev ∧ SetsBelowMin s ev ∧ SetsOwn s ev := by
    intro s ev hev
    simp only [List.mem_cons, List.not_mem_nil, or_false] at hev
    rcases hev with rfl | rfl | rfl <;> exact ⟨trivial, trivial, trivial, trivial⟩
  obtain ⟨s, hreach, hcur⟩ := exists_reach (pcBoot_booted .priorities) hguard hrun
  rw [decide_eq_true_eq] at hcur
  obtain ⟨⟨hc, hst⟩, hcall⟩ := hcur
  cases hx : exec (pc .priorities) s (call 0 14#32 0#32 200#32 0#32 0#32 0#32) with
  | none => simp [hx] at hcall
  | some s' =>
      rw [hx, Option.any_some, decide_eq_true_eq] at hcall
      refine ⟨s', reach_exec _ hreach ⟨?_, ?_, ?_, ?_⟩ hx, hcall⟩
      · intro cur hcur
        obtain rfl := Option.some.inj (hc.symm.trans hcur)
        exact fun _ => ⟨fun _ => by decide, fun _ => trivial⟩
      · intro cur hcur
        obtain rfl := Option.some.inj (hc.symm.trans hcur)
        refine ⟨fun hdying => ?_, fun _ e he => ?_⟩
        · rw [hst] at hdying
          cases hdying
        · cases he
      · intro cur _ _ e p hset
        rw [(setsPriority_some hset).2.1]
        decide
      · intro cur _ _ e p hset hne
        rcases envid2env_names (setsPriority_some hset).1 with ⟨_, he⟩ | ⟨hz, _⟩
        · exact absurd he hne
        · exact absurd rfl hz

/-- The scheduler skips no runnable environment, in every run in which each
priority that is set is below `MIN_PRIORITY`. -/
theorem neverSkips_of_reach {M : Machine} {K : Nat → Prop} {s : KState}
    (h : (kernel M K).Reach (fun s ev => Fits s ev ∧ FreesOwn M s ev ∧ SetsBelowMin s ev) s) :
    NeverSkips M K (fun s ev => Fits s ev ∧ FreesOwn M s ev ∧ SetsBelowMin s ev) s := by
  obtain ⟨hb, hlow⟩ := lowPriority_reach (fun _ _ h => h) h
  refine ⟨fun e he hst => hlow e (hb.dir_of_status he hst), fun c hcur hrun => ?_,
    fun ev s' hok hstep hy hsw e he => ?_⟩
  · obtain ⟨e, he, hst⟩ := hrun
    exact hlow.selects hb hcur he hst
  · obtain ⟨hfit, hown, hset⟩ := hok
    obtain ⟨hb', hpay⟩ := base_step hb hfit hown hstep
    cases hpay with
    | leaves hl hstats hre =>
        rw [← hstats] at hy hsw
        exact (hlow.repriced hset hre).called hb' hl hy hsw he
    | stays hstats _ => exact absurd (by rw [hstats]) hy

/-- With a priority of 200, and another environment to run. -/
theorem neverSkips_pc : ∃ s, (s.envs 0).envPriority = 200 ∧ (s.envs 1).envStatus = .runnable ∧
    NeverSkips (pc .priorities) lowPages
      (fun s ev => Fits s ev ∧ FreesOwn (pc .priorities) s ev ∧ SetsBelowMin s ev) s := by
  obtain ⟨s, hreach, hp, hst⟩ := ownPriority_pc
  exact ⟨s, hp, hst,
    neverSkips_of_reach (hreach.mono fun _ _ hok => ⟨hok.1, hok.2.1, hok.2.2.1⟩)⟩

/-- An environment gives another one the priority `MIN_PRIORITY` and yields: the
scheduler goes on with the caller, and the other stays runnable. -/
theorem runnable_skipped : ¬ ∀ s, (kernel (pc .priorities) lowPages).Reach anyEvent s →
    NeverSkips (pc .priorities) lowPages anyEvent s := by
  intro hall
  have hrun : (run (pc .priorities) [.create emptyImage, .create emptyImage, .start 0,
      call 0 14#32 0x1001#32 0x100#32 0#32 0#32 0#32] pcBoot).any (fun s =>
        (exec (pc .priorities) s (call 0 10#32 0#32 0#32 0#32 0#32 0#32)).any (fun s' =>
          s'.stats.numberOfYields ≠ s.stats.numberOfYields ∧
            s'.stats.numberOfSwitches = s.stats.numberOfSwitches ∧
            (s'.envs 1).envStatus = .runnable)) = true := by
    decide +kernel
  obtain ⟨s, hreach, hyield⟩ := reach_of_any (pcBoot_booted .priorities) hrun
  cases hx : exec (pc .priorities) s (call 0 10#32 0#32 0#32 0#32 0#32 0#32) with
  | none => simp [hx] at hyield
  | some s' =>
      rw [hx, Option.any_some, decide_eq_true_eq] at hyield
      obtain ⟨hy, hsw, hst⟩ := hyield
      exact (hall s hreach).called _ s' trivial (step_of_exec hx) hy hsw 1 (by decide) hst

/-- No priority improves but by a boost, in every run in which an environment sets
no priority but its own and, not improving it, that of a child. -/
theorem neverImproves_of_reach {M : Machine} {K : Nat → Prop} {s : KState}
    (h : (kernel M K).Reach (fun s ev => Fits s ev ∧ FreesOwn M s ev ∧ SetsOwn s ev) s) :
    NeverImproves M K (fun s ev => Fits s ev ∧ FreesOwn M s ev ∧ SetsOwn s ev) s := by
  have hbase : ∀ s, (kernel M K).Reach (fun s ev => Fits s ev ∧ FreesOwn M s ev ∧ SetsOwn s ev) s →
      BaseInv M K s := by
    intro s hr
    exact base_reach (hr.mono fun _ _ hok => ⟨hok.1, hok.2.1⟩)
  have hb := hbase s h
  refine ⟨fun ev s' hok hstep e he hst hlt => ?_, fun c tf inp cur hok hc hst hzero => ?_⟩
  · obtain ⟨hfit, hown, hset⟩ := hok
    obtain ⟨_, hpay⟩ := base_step hb hfit hown hstep
    exact hpay.improves hset (hb.dir_of_status he hst) hlt
  · obtain ⟨e, he, hset⟩ := setsPriority_of_returns hzero
    obtain ⟨htarget, hle⟩ := hok.2.2.raises hc hst hset
    exact ⟨e, he, htarget, hle⟩

/-- With a priority the environment gave itself. -/
theorem neverImproves_pc : ∃ s, (s.envs 0).envPriority = 200 ∧ (s.envs 1).envStatus = .runnable ∧
    NeverImproves (pc .priorities) lowPages
      (fun s ev => Fits s ev ∧ FreesOwn (pc .priorities) s ev ∧ SetsOwn s ev) s := by
  obtain ⟨s, hreach, hp, hst⟩ := ownPriority_pc
  exact ⟨s, hp, hst,
    neverImproves_of_reach (hreach.mono fun _ _ hok => ⟨hok.1, hok.2.1, hok.2.2.2⟩)⟩

/-- An environment sets the priority of one that is not its child, first to 5 and
then back to 0. -/
theorem priority_improved : ¬ ∀ s, (kernel (pc .priorities) lowPages).Reach anyEvent s →
    NeverImproves (pc .priorities) lowPages anyEvent s := by
  intro hall
  have hrun : (run (pc .priorities) [.create emptyImage, .create emptyImage, .start 0,
      call 0 14#32 0x1001#32 5#32 0#32 0#32 0#32] pcBoot).any (fun s =>
        (exec (pc .priorities) s (call 0 14#32 0x1001#32 0#32 0#32 0#32 0#32)).any (fun s' =>
          (s.envs 1).envStatus ≠ .free ∧ (s'.envs 1).envPriority < (s.envs 1).envPriority ∧
            s'.stats.numberOfBoosts = s.stats.numberOfBoosts)) = true := by
    decide +kernel
  obtain ⟨s, hreach, hset⟩ := reach_of_any (pcBoot_booted .priorities) hrun
  cases hx : exec (pc .priorities) s (call 0 14#32 0x1001#32 0#32 0#32 0#32 0#32) with
  | none => simp [hx] at hset
  | some s' =>
      rw [hx, Option.any_some, decide_eq_true_eq] at hset
      obtain ⟨hst, hlt, hboost⟩ := hset
      have hcount := (hall s hreach).improves _ s' trivial (step_of_exec hx) 1 (by decide) hst hlt
      rw [hboost] at hcount
      bv_omega

end Jos
end Sisop

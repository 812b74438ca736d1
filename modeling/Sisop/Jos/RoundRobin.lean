import Sisop.Jos.Run
import Sisop.Jos.Selection

/-!
# Rotation in the round robin build

On one CPU `sched_yield` goes on after the environment the CPU has, so as long as a
runnable environment is not selected each selection comes closer to its slot.  The
position is not stored: it is that of `curenv`.  When `env_destroy` or the
collection of a zombie frees the current environment, `curenv` is gone before the
scheduler is called, and the search starts at slot 0 again.
-/

namespace Sisop
namespace Jos

open TransitionSystem

/-- The slot that `sched_yield` selected in a step of CPU 0. -/
def selected (s s' : KState) : Option Nat :=
  if s'.stats.numberOfSwitches = s.stats.numberOfSwitches then none else s'.curenv 0

/-- A segment of a run, from a state that `base` runs reach, during which `envs[k]`
stays runnable and is not selected, with the slots that are, the last one first. -/
def segment (M : Machine) (K : Nat → Prop) (base : KState → Event → Prop) (k : Nat) :
    TransitionSystem (KState × List Nat) Event where
  init x := (kernel M K).Reach base x.1 ∧ (x.1.envs k).envStatus = .runnable ∧ x.2 = []
  step x ev y := (kernel M K).step x.1 ev y.1 ∧ (y.1.envs k).envStatus = .runnable ∧
    selected x.1 y.1 ≠ some k ∧ y.2 = (selected x.1 y.1).toList ++ x.2

/-- No runnable environment is in a slot before that of a current environment that
the step frees, when that slot is before `k`. -/
def KeepsPlace (M : Machine) (k : Nat) (s : KState) : Event → Prop
  | .trap c tf _ => ∀ cur, s.curenv c = some cur → cur < k →
      ((s.envs cur).envStatus = .dying ∨ destroys M (trapState s c cur tf) cur tf = some cur) →
      ∀ i, i < cur → (s.envs i).envStatus ≠ .runnable
  | _ => True

/-- Only CPU 0 has an environment. -/
def OthersIdle (s : KState) : Prop := ∀ c, c ≠ 0 → s.curenv c = none

section

variable {M : Machine} {K : Nat → Prop} {s s₁ s₂ s' : KState} {c cur e k l x : Nat}
  {tf : Trapframe} {ev : Event} {fault : Prop}

/-! ## One CPU -/

theorem Leaves.curenv_other (h : Leaves M c fault s s') {c' : Nat} (hne : c' ≠ c) :
    s'.curenv c' = s.curenv c' := by
  cases h.resched with
  | run ht _ hr =>
      rw [KState.curenv, hr.cpus, if_neg hne]
      exact ht.curenv c'
  | halt ht _ hh =>
      rw [KState.curenv, hh.cpus, if_neg hne]
      exact ht.curenv c'

theorem OthersIdle.freesOwn (h : OthersIdle s) (hev : ∀ c tf inp, ev = .trap c tf inp → c = 0) :
    FreesOwn M s ev := by
  have hnot : ∀ c e, c = 0 → ¬ elsewhere s c e := by
    rintro c e rfl ⟨c', hne, hc'⟩
    rw [h c' hne] at hc'
    cases hc'
  cases ev with
  | trap c tf inp =>
      have hc := hev c tf inp rfl
      exact fun cur _ => ⟨fun _ => hnot c cur hc, fun _ e _ _ => hnot c e hc⟩
  | create elf => trivial
  | start c => trivial
  | wake c trapno => trivial
  | store c va b => trivial

theorem OthersIdle.step (h : OthersIdle s) (hcpu : ∀ c, c < M.ncpu → c = 0)
    (hen : ev.enabled M s) (he : Entry M s ev s') : OthersIdle s' := by
  intro c' hne
  cases he with
  | create ha hq =>
      rw [hq.curenv, KState.curenv, ha.cpus]
      exact h c' hne
  | @start c _ _ hr =>
      have hc := hcpu c hen.1
      rw [hr.curenv_other (by rw [hc]; exact hne)]
      exact h c' hne
  | @wake c _ _ _ hr =>
      have hc := hcpu c hen.1
      rw [hr.curenv_other (by rw [hc]; exact hne), curenv_cpuStarted]
      exact h c' hne
  | @collect c cur _ _ s₁ _ _ _ hf hr =>
      have hc := hcpu c hen.1
      rw [hr.curenv_other (by rw [hc]; exact hne), KState.curenv_setCurenv,
        if_neg (by rw [hc]; exact hne), hf.curenv, curenv_cpuStarted]
      exact h c' hne
  | @trap c cur tf _ s₂ _ _ _ hbody hr =>
      have hc := hcpu c hen.1
      rw [hr.curenv_other (by rw [hc]; exact hne)]
      rcases hbody.curenv_cases c' with hsame | ⟨_, hnone⟩
      · rw [hsame, curenv_trapState]
        exact h c' hne
      · exact hnone
  | store m => exact h c' hne

theorem Booted.othersIdle (h : Booted M K s) : OthersIdle s := fun c _ => (h.cpus c).1

/-! ## The environment a search starts after -/

theorem envId_setEnv {f : Env → Env} (hf : (f (s.envs e)).envId = (s.envs e).envId) (x : Nat) :
    ((s.setEnv e f).envs x).envId = (s.envs x).envId := by
  rw [KState.envs_setEnv]
  split
  · rename_i hx
    rw [hx]
    exact hf
  · rfl

theorem Freed.envId (h : Freed s e s') (x : Nat) : (s'.envs x).envId = (s.envs x).envId := by
  by_cases hx : x = e
  · subst hx
    rw [h.self]
  · rw [h.other x hx]

theorem Quiet.envId (h : Quiet cur s s') (x : Nat) : (s'.envs x).envId = (s.envs x).envId := by
  obtain ⟨tf, u, henv, _⟩ := h.envs x
  rw [henv]

/-- An entry gives no new id to an environment in use. -/
theorem Body.envId (hb : Body M c cur tf s s') (hx : s.envFreeList ≠ some x) :
    (s'.envs x).envId = (s.envs x).envId := by
  cases hb with
  | recv _ _ =>
      rw [received]
      exact envId_setEnv rfl x
  | @act s₁ _ ha hq =>
      rw [hq.envId]
      cases ha with
      | none _ => rfl
      | @fork e s₁ _ halloc =>
          have hne : x ≠ e := by
            rintro rfl
            exact hx halloc.head
          rw [forked, KState.envs_setEnv_of_ne _ _ _ _ hne, halloc.other x hne]
      | setStatus _ => exact envId_setEnv rfl x
      | setPriority _ _ => exact (prioritized_tweaked s _ _).envId x
      | dying _ _ _ => exact envId_setEnv rfl x
      | free _ _ _ hf => exact hf.envId x
      | exit _ hf => exact hf.envId x
      | @send dst _ =>
          by_cases hd : x = dst
          · subst hd
            rw [envs_delivered_self]
          · rw [envs_delivered_of_ne hd]
      | recvFail _ _ => exact envId_setEnv rfl x

/-- The search starts after the environment the CPU has. -/
theorem schedStart_of_curenv (hc : s.curenv c = some cur) (hid : envx (s.envs cur).envId = cur) :
    schedStart s c = cur + 1 := by
  unfold schedStart
  rw [hc]
  dsimp only
  rw [hid]

theorem schedStart_of_idle (hc : s.curenv c = none) : schedStart s c = 0 := by
  unfold schedStart
  rw [hc]

/-! ## One selection -/

theorem schedulable_roundRobin (hbuild : M.build = .roundRobin) (s : KState) (x : Nat) :
    schedulable M (searched M s) x = true ↔ (s.envs x).envStatus = .runnable := by
  unfold schedulable
  rw [hbuild]
  dsimp only
  rw [decide_eq_true_eq, (searched_tweaked M s).status]

/-- What is runnable after rescheduling was runnable before, or had the CPU. -/
theorem Leaves.runnable_before (h : Leaves M c fault s s')
    (hst : (s'.envs x).envStatus = .runnable) (hne : s.curenv c ≠ some x) :
    (s.envs x).envStatus = .runnable := by
  cases h.resched with
  | @run s₁ e d ht _ hr =>
      have hx : x ≠ e := by
        rintro rfl
        rw [hr.self] at hst
        cases hst
      have hold : ¬ (s₁.curenv c = some x ∧ (s₁.envs x).envStatus = .running) := by
        rw [ht.curenv]
        exact fun h => hne h.1
      rw [hr.other x hx, if_neg hold, ht.status] at hst
      exact hst
  | halt ht _ hh =>
      rw [hh.envs, ht.status] at hst
      exact hst

/-- With a runnable environment in the table, the CPU goes back to its environment
or takes the first runnable one of the rotation. -/
theorem Leaves.goes_on (hbuild : M.build = .roundRobin) (h : Leaves M c fault s s')
    (hk : k < nenv) (hrun : (s.envs k).envStatus = .runnable) :
    (s'.stats.numberOfSwitches = s.stats.numberOfSwitches ∧
        ∃ e, s.curenv c = some e ∧ s'.curenv c = some e) ∨
      schedStart s c < nenv ∧ s'.stats.numberOfSwitches = s.stats.numberOfSwitches + 1#32 ∧
        ∃ j, s'.curenv c = some j ∧ j < nenv ∧ (s.envs j).envStatus = .runnable ∧
          Rotation.ahead nenv (schedStart s c) j ≤ Rotation.ahead nenv (schedStart s c) k := by
  cases h with
  | @back e hc _ h =>
      obtain ⟨d, hr⟩ := envRun_ran h
      refine .inl ⟨by rw [hr.stats], e, hc, ?_⟩
      rw [KState.curenv, hr.cpus, if_pos rfl]
  | yield h =>
      obtain ⟨hstart, hch⟩ := chosen_of_yield h
      have htake : schedulable M (searched M s) k = true :=
        (schedulable_roundRobin hbuild s k).mpr hrun
      have hsome : selection M s c ≠ none := by
        intro hnone
        rw [selection_none hstart hnone hk] at htake
        cases htake
      have hcount := hch.switches
      rw [if_neg hsome] at hcount
      cases hch with
      | @next j d hsel hr =>
          obtain ⟨hj, htakej, hfirst⟩ := selection_some hstart hsel
          refine .inr ⟨hstart, hcount, j, ?_, hj, (schedulable_roundRobin hbuild s j).mp htakej,
            hfirst k hk htake⟩
          rw [KState.curenv, hr.cpus, if_pos rfl]
      | keep hsel _ _ => exact absurd hsel hsome
      | halt hsel _ => exact absurd hsel hsome

theorem selected_none (h : s'.stats.numberOfSwitches = s.stats.numberOfSwitches) :
    selected s s' = none := if_pos h

theorem selected_some (h : s'.stats.numberOfSwitches = s.stats.numberOfSwitches + 1#32) :
    selected s s' = s'.curenv 0 := by
  refine if_neg fun heq => ?_
  rw [heq] at h
  bv_omega

theorem selected_congr (h : s₁.stats = s.stats) : selected s₁ s' = selected s s' := by
  unfold selected
  rw [h]

/-- While `k` waits, the CPU keeps its environment or selects one closer to `k`. -/
def Approaches (k l : Nat) (s s' : KState) : Prop :=
  selected s s' = none ∧ s'.curenv 0 = some l ∨
    ∃ j, selected s s' = some j ∧ s'.curenv 0 = some j ∧
      Rotation.ahead nenv j k < Rotation.ahead nenv l k

theorem Approaches.congr (h : Approaches k l s₁ s') (hstats : s₁.stats = s.stats) :
    Approaches k l s s' := by
  unfold Approaches at h
  rw [selected_congr hstats] at h
  exact h

/-- Rescheduling after the environment in slot `l`. -/
theorem Leaves.approaches (hbuild : M.build = .roundRobin) (h : Leaves M 0 fault s s')
    (hc : s.curenv 0 = some l) (hid : envx (s.envs l).envId = l) (hk : k < nenv) (hlk : l ≠ k)
    (hrun : (s'.envs k).envStatus = .runnable) :
    Approaches k l s s' := by
  have hbefore := h.runnable_before hrun (by rw [hc]; exact fun heq => hlk (Option.some.inj heq))
  rcases h.goes_on hbuild hk hbefore with
    ⟨hsw, e, hce, hcur⟩ | ⟨hl, hsw, j, hcur, hj, _, hfirst⟩
  · exact .inl ⟨selected_none hsw, hcur.trans (hce.symm.trans hc)⟩
  · refine .inr ⟨j, (selected_some hsw).trans hcur, hcur, ?_⟩
    rw [schedStart_of_curenv hc hid] at hl hfirst
    exact Rotation.ahead_lt hl hj hk hlk hfirst

/-- Rescheduling after the environment in slot `l` is freed. -/
theorem Leaves.restarts (hbuild : M.build = .roundRobin) (h : Leaves M 0 fault s s')
    (hc : s.curenv 0 = none) (hl : l < nenv) (hk : k < nenv) (hlk : l ≠ k)
    (hfree : (s.envs l).envStatus ≠ .runnable)
    (hplace : l < k → ∀ i, i < l → (s.envs i).envStatus ≠ .runnable)
    (hrun : (s'.envs k).envStatus = .runnable) (hsel : selected s s' ≠ some k) :
    Approaches k l s s' := by
  have hbefore := h.runnable_before hrun (by rw [hc]; exact (Option.some_ne_none k).symm)
  rcases h.goes_on hbuild hk hbefore with
    ⟨_, e, hce, _⟩ | ⟨-, hsw, j, hcur, hj, hjrun, hfirst⟩
  · rw [hc] at hce
    cases hce
  · have hselj := (selected_some hsw).trans hcur
    refine .inr ⟨j, hselj, hcur, ?_⟩
    have hjk : j ≠ k := by
      rintro rfl
      exact hsel hselj
    have hjl : j ≠ l := by
      rintro rfl
      exact hfree hjrun
    rw [schedStart_of_idle hc] at hfirst
    have hle : j ≤ k := by
      unfold Rotation.ahead at hfirst
      rw [if_pos (Nat.zero_le _), if_pos (Nat.zero_le _)] at hfirst
      exact hfirst
    refine Rotation.ahead_lt_of_restart hl hlk (by omega) fun hlt => ?_
    by_contra hback
    exact hplace hlt j (by omega) hjrun

theorem Freed.status_other (h : Freed s e s') (hx : x ≠ e) :
    (s'.envs x).envStatus = (s.envs x).envStatus := by
  rw [h.other x hx]

theorem Freed.status_self (h : Freed s e s') : (s'.envs e).envStatus = .free := by
  rw [h.self]

/-- A step of the segment, when the CPU has the environment in slot `l`. -/
theorem approaches_of_entry (hbuild : M.build = .roundRobin) (hcpu : ∀ c, c < M.ncpu → c = 0)
    (hb : BaseInv M K s) (hen : ev.enabled M s) (hplace : KeepsPlace M k s ev)
    (he : Entry M s ev s') (hl : s.curenv 0 = some l) (hk : k < nenv) (hlk : l ≠ k)
    (hrun : (s'.envs k).envStatus = .runnable) (hsel : selected s s' ≠ some k) :
    Approaches k l s s' := by
  have hdir : (s.envs l).envPgdir ≠ none := by
    rw [hb.cpu 0 l hl]
    exact Option.some_ne_none _
  have hid : envx (s.envs l).envId = l := hb.ids l hdir
  -- A CPU with an environment is only entered by a trap.
  have hbusy : ∀ c, c < M.ncpu → s.curenv c ≠ none := by
    intro c hc hnone
    rw [hcpu c hc, hl] at hnone
    cases hnone
  cases he with
  | create ha hq => exact absurd (hen.2 0 M.ncpu_pos).2 (hbusy 0 M.ncpu_pos)
  | start hc _ => exact absurd hc (hbusy _ hen.1)
  | wake hc _ => exact absurd hc (hbusy _ hen.1)
  | store m => exact .inl ⟨selected_none rfl, hl⟩
  | @collect c cur tf inp s₁ _ hc hst hf hr =>
      obtain rfl := hcpu c hen.1
      obtain rfl : l = cur := Option.some.inj (hl.symm.trans hc)
      have hstats : (s₁.setCurenv 0 none).stats = s.stats := hf.stats
      refine (hr.restarts hbuild (KState.curenv_setCurenv_self s₁ 0 none) (hb.lt hdir) hk hlk ?_
        (fun hlt i hi => ?_) hrun (by rw [selected_congr hstats]; exact hsel)).congr hstats
      · rw [KState.envs_setCurenv, hf.status_self]
        decide
      · rw [KState.envs_setCurenv, hf.status_other (Nat.ne_of_lt hi)]
        exact hplace l hc hlt (.inl hst) i hi
  | @trap c cur tf inp s₂ _ hc hst hbody hr =>
      obtain rfl := hcpu c hen.1
      obtain rfl : l = cur := Option.some.inj (hl.symm.trans hc)
      have hstats : s₂.stats = s.stats := hbody.stats
      rcases hbody.exit_cases with hsame | ⟨hd, s₁, hf, hq⟩
      · refine (hr.approaches hbuild ?_ ?_ hk hlk hrun).congr hstats
        · rw [hsame, curenv_trapState]
          exact hc
        · have hhead : (trapState s 0 l tf).envFreeList ≠ some l := by
            intro hhead
            exact hb.not_free hdir (hb.head_free hhead).2
          rw [hbody.envId hhead, trapState, saveTf, KState.envs_setEnv_self]
          exact hid
      · refine (hr.restarts hbuild ?_ (hb.lt hdir) hk hlk ?_ (fun hlt i hi => ?_) hrun
          (by rw [selected_congr hstats]; exact hsel)).congr hstats
        · rw [hq.curenv, KState.curenv_setCurenv_self]
        · rw [hq.envStatus, KState.envs_setCurenv, hf.status_self]
          decide
        · rw [hq.envStatus, KState.envs_setCurenv, hf.status_other (Nat.ne_of_lt hi),
            trapState_status]
          exact hplace l hc hlt (.inr hd) i hi

/-! ## Runs -/

theorem oneCpu_step (hcpu : ∀ c, c < M.ncpu → c = 0) (hb : BaseInv M K s) (ho : OthersIdle s)
    (hfit : Fits s ev) (h : (kernel M K).step s ev s') :
    BaseInv M K s' ∧ OthersIdle s' ∧ Entry M s ev s' := by
  have hown : FreesOwn M s ev := by
    refine ho.freesOwn fun c tf inp hev => ?_
    subst hev
    exact hcpu c h.1.1
  have he := (entry_of_step hb hfit hown h).2
  exact ⟨allows_landing (outcome_landing hb h.1 hfit hown) h.2, ho.step hcpu h.1 he, he⟩

theorem oneCpu_reach (hcpu : ∀ c, c < M.ncpu → c = 0) (h : (kernel M K).Reach Fits s) :
    BaseInv M K s ∧ OthersIdle s := by
  refine h.invariant (P := fun s => BaseInv M K s ∧ OthersIdle s)
    (fun s hs => ⟨Booted.base hs, Booted.othersIdle hs⟩) fun s ev s' hs hfit hstep => ?_
  obtain ⟨hb, ho, _⟩ := oneCpu_step hcpu hs.1 hs.2 hfit hstep
  exact ⟨hb, ho⟩

/-- The invariant of a segment: each slot selected is closer to `k` than the one
before, and the CPU has the last one. -/
structure Closing (M : Machine) (K : Nat → Prop) (k : Nat) (s : KState) (slots : List Nat) :
    Prop where
  base : BaseInv M K s
  idle : OthersIdle s
  approach : slots.Pairwise fun a b => Rotation.ahead nenv a k < Rotation.ahead nenv b k
  last : ∀ l rest, slots = l :: rest → s.curenv 0 = some l ∧ l ≠ k

theorem Closing.step {slots slots' : List Nat} (hbuild : M.build = .roundRobin)
    (hcpu : ∀ c, c < M.ncpu → c = 0) (hk : k < nenv) (h : Closing M K k s slots)
    (hfit : Fits s ev) (hplace : KeepsPlace M k s ev) (hstep : (kernel M K).step s ev s')
    (hrun : (s'.envs k).envStatus = .runnable) (hsel : selected s s' ≠ some k)
    (hslots : slots' = (selected s s').toList ++ slots) : Closing M K k s' slots' := by
  obtain ⟨hb, ho, he⟩ := oneCpu_step hcpu h.base h.idle hfit hstep
  subst hslots
  cases slots with
  | nil =>
      cases hs : selected s s' with
      | none =>
          refine ⟨hb, ho, List.Pairwise.nil, fun l rest heq => ?_⟩
          cases heq
      | some j =>
          refine ⟨hb, ho, List.pairwise_singleton _ j, fun l rest heq => ?_⟩
          cases heq
          have hcur : s'.curenv 0 = some j := by
            unfold selected at hs
            split at hs
            · cases hs
            · exact hs
          exact ⟨hcur, fun heq => hsel (by rw [hs, heq])⟩
  | cons l rest =>
      obtain ⟨hl, hlk⟩ := h.last l rest rfl
      rcases approaches_of_entry hbuild hcpu h.base hstep.1 hplace he hl hk hlk hrun hsel with
        ⟨hs, hcur⟩ | ⟨j, hs, hcur, hlt⟩
      · rw [hs]
        refine ⟨hb, ho, h.approach, fun l' rest' heq => ?_⟩
        cases heq
        exact ⟨hcur, hlk⟩
      · rw [hs]
        refine ⟨hb, ho, List.pairwise_cons.mpr ⟨fun x hx => ?_, h.approach⟩,
          fun l' rest' heq => ?_⟩
        · rcases List.mem_cons.mp hx with rfl | hx
          · exact hlt
          · exact Nat.lt_trans hlt ((List.pairwise_cons.mp h.approach).1 x hx)
        · cases heq
          exact ⟨hcur, fun heq => hsel (by rw [hs, heq])⟩

end

/-- While `envs[k]` stays runnable and is not selected, no slot is selected twice, in
every segment in which no current environment before `k` is freed with a runnable
one behind it. -/
theorem nodup_of_segment {M : Machine} {K : Nat → Prop} {k : Nat} {s : KState} {slots : List Nat}
    (hbuild : M.build = .roundRobin) (hcpu : M.ncpu = 1) (hk : k < nenv)
    (h : (segment M K Fits k).Reach (fun x ev => Fits x.1 ev ∧ KeepsPlace M k x.1 ev) (s, slots)) :
    slots.Nodup := by
  have hzero : ∀ c, c < M.ncpu → c = 0 := by
    intro c hc
    omega
  have hinit : ∀ x, (segment M K Fits k).init x → Closing M K k x.1 x.2 := by
    rintro ⟨s, slots⟩ ⟨hreach, _, hnil⟩
    obtain ⟨hb, ho⟩ := oneCpu_reach hzero hreach
    obtain rfl : slots = [] := hnil
    refine ⟨hb, ho, List.Pairwise.nil, fun l rest heq => ?_⟩
    cases heq
  have hstep : ∀ x ev y, Closing M K k x.1 x.2 → Fits x.1 ev ∧ KeepsPlace M k x.1 ev →
      (segment M K Fits k).step x ev y → Closing M K k y.1 y.2 := by
    rintro x ev y hx ⟨hfit, hplace⟩ ⟨hstep, hrun, hsel, hslots⟩
    exact hx.step hbuild hzero hk hfit hplace hstep hrun hsel hslots
  exact Rotation.nodup_of_approach (h.invariant hinit hstep).approach

/-! ## On one CPU of the concrete machine -/

def uniprocessor : Machine :=
  { pc .roundRobin with
    ncpu := 1
    ncpu_pos := by decide
    ncpu_le := by decide }

theorem pcBoot_uniprocessor : Booted uniprocessor lowPages pcBoot := by
  have h := pcBoot_booted .roundRobin
  exact ⟨h.pages, h.ref_zero, h.kern_low, h.envs, h.envFreeList, fun _ => ⟨rfl, rfl, fun _ => rfl⟩⟩

/-- Executes a step of a segment. -/
def follow (M : Machine) (k : Nat) (x : KState × List Nat) (ev : Event) :
    Option (KState × List Nat) :=
  match exec M x.1 ev with
  | none => none
  | some s' =>
      if (s'.envs k).envStatus = .runnable ∧ selected x.1 s' ≠ some k then
        some (s', (selected x.1 s').toList ++ x.2)
      else none

theorem step_of_follow {M : Machine} {K : Nat → Prop} {base : KState → Event → Prop} {k : Nat}
    {x y : KState × List Nat} {ev : Event} (h : follow M k x ev = some y) :
    (segment M K base k).step x ev y := by
  unfold follow at h
  cases hx : exec M x.1 ev with
  | none =>
      rw [hx] at h
      cases h
  | some s' =>
      rw [hx] at h
      dsimp only at h
      split at h
      · rename_i hok
        cases h
        exact ⟨step_of_exec hx, hok.1, hok.2, rfl⟩
      · cases h

/-- The third environment waits while the first one yields to the second. -/
theorem nodup_uniprocessor : ∃ s slots,
    (segment uniprocessor lowPages Fits 2).Reach
      (fun x ev => Fits x.1 ev ∧ KeepsPlace uniprocessor 2 x.1 ev) (s, slots) ∧
    slots = [1, 0] ∧ slots.Nodup := by
  have hrun : (run uniprocessor [.create emptyImage, .create emptyImage, .create emptyImage]
      pcBoot).any (fun s => (s.envs 2).envStatus = .runnable ∧
        (follow uniprocessor 2 (s, []) (.start 0)).any (fun x =>
          (x.1.curenv 0 = some 0 ∧ (x.1.envs 0).envStatus = .running) ∧
            (follow uniprocessor 2 x (call 0 10#32 0#32 0#32 0#32 0#32 0#32)).any (fun y =>
              y.2 = [1, 0]) = true) = true) = true := by
    decide +kernel
  have hguard : ∀ s, ∀ ev ∈ [Event.create emptyImage, .create emptyImage, .create emptyImage],
      Fits s ev := by
    intro s ev hev
    simp only [List.mem_cons, List.not_mem_nil, or_false] at hev
    rcases hev with rfl | rfl | rfl <;> exact trivial
  obtain ⟨s, hreach, hs⟩ := exists_reach (K := lowPages) pcBoot_uniprocessor hguard hrun
  rw [decide_eq_true_eq] at hs
  obtain ⟨hwait, hstart⟩ := hs
  cases hx : follow uniprocessor 2 (s, []) (.start 0) with
  | none => simp [hx] at hstart
  | some x =>
      rw [hx, Option.any_some, decide_eq_true_eq] at hstart
      obtain ⟨⟨hc, hst⟩, hyield⟩ := hstart
      cases hy : follow uniprocessor 2 x (call 0 10#32 0#32 0#32 0#32 0#32 0#32) with
      | none => simp [hy] at hyield
      | some y =>
          rw [hy, Option.any_some, decide_eq_true_eq] at hyield
          have hseg : (segment uniprocessor lowPages Fits 2).Reach
              (fun x ev => Fits x.1 ev ∧ KeepsPlace uniprocessor 2 x.1 ev) y := by
            have hfirst : (segment uniprocessor lowPages Fits 2).Reach
                (fun x ev => Fits x.1 ev ∧ KeepsPlace uniprocessor 2 x.1 ev) x :=
              .step (e := .start 0) (.init ⟨hreach, hwait, rfl⟩) ⟨trivial, trivial⟩
                (step_of_follow hx)
            refine .step hfirst ⟨?_, ?_⟩ (step_of_follow hy)
            · intro cur hcur
              obtain rfl := Option.some.inj (hc.symm.trans hcur)
              exact fun _ => ⟨fun _ => by decide, fun _ => trivial⟩
            · intro cur hcur _ hfreed
              obtain rfl := Option.some.inj (hc.symm.trans hcur)
              rcases hfreed with hdying | hd
              · rw [hst] at hdying
                cases hdying
              · cases hd
          exact ⟨y.1, y.2, hseg, hyield, nodup_of_segment rfl rfl (by decide) hseg⟩

/-- The first environment yields to the second, which exits: the first is selected
again, and the third still waits. -/
theorem selected_twice : ¬ ∀ s slots,
    (segment uniprocessor lowPages anyEvent 2).Reach anyEvent (s, slots) → slots.Nodup := by
  intro hall
  have hrun : (run uniprocessor [.create emptyImage, .create emptyImage, .create emptyImage]
      pcBoot).any (fun s => (s.envs 2).envStatus = .runnable ∧
        (List.foldlM (follow uniprocessor 2) (s, [])
          [.start 0, call 0 10#32 0#32 0#32 0#32 0#32 0#32,
            call 0 3#32 0#32 0#32 0#32 0#32 0#32]).any (fun y => y.2 = [0, 1, 0]) = true) =
      true := by
    decide +kernel
  obtain ⟨s, hreach, hs⟩ := reach_of_any (K := lowPages) pcBoot_uniprocessor hrun
  rw [decide_eq_true_eq] at hs
  obtain ⟨hwait, hslots⟩ := hs
  have hstart : (segment uniprocessor lowPages anyEvent 2).Reach anyEvent (s, []) :=
    .init ⟨hreach, hwait, rfl⟩
  obtain ⟨y, hseg, hy⟩ := hstart.exists_of_foldlM
    (fun _ _ _ _ hn => ⟨trivial, step_of_follow hn⟩) hslots
  have hnodup := hall y.1 y.2 hseg
  rw [of_decide_eq_true hy] at hnodup
  exact absurd hnodup (by decide)

end Jos
end Sisop

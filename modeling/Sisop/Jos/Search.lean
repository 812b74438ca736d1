import Sisop.Lib.DoWhile
import Sisop.Jos.Selection
import Sisop.Jos.Run

/-!
# The loop of `sched_yield`

The scan of the scheduler's model is the loop of `kern/sched.c` as long as the loop
starts in the table.  Here it is the loop itself, with the slots it looks at.  After
the last slot it starts one past the end of `envs`, an index the loop never meets
again: it reads there first, and it does not stop when there is nothing to run.

With priorities the loop keeps a running minimum, but it stops at the first slot it
takes, so it is right only when that slot has the best priority.
-/

namespace Sisop
namespace Jos

/-- The variables of the loop, and the slots looked at so far. -/
structure Search where
  i : Nat
  next : Option Nat
  minPriority : Int
  inspected : List Nat

/-- One pass of the loop over the table of `s`. -/
def schedBody (M : Machine) (s : KState) (st : Search) : Search :=
  let seen := st.inspected ++ [st.i]
  let i := (st.i + 1) % nenv
  match M.build with
  | .roundRobin =>
      if (s.envs st.i).envStatus = .runnable then ⟨i, some st.i, st.minPriority, seen⟩
      else ⟨i, st.next, st.minPriority, seen⟩
  | .priorities =>
      if (s.envs st.i).envStatus = .runnable ∧ (s.envs st.i).envPriority < st.minPriority then
        ⟨i, some st.i, (s.envs st.i).envPriority, seen⟩
      else ⟨i, st.next, st.minPriority, seen⟩

/-- The loop of `sched_yield` over the table of `s`, with `start` the slot it begins at. -/
def Searches (M : Machine) (s : KState) (start : Nat) : Search → Prop :=
  DoWhile.Ends (schedBody M s) (fun st => st.i ≠ start ∧ st.next = none)
    ⟨start, none, minPriority, []⟩

/-- The slot just after the current environment's, in circular order. -/
def following : Option Nat → Nat
  | none => 0
  | some cur => (cur + 1) % nenv

section

variable {M : Machine} {s : KState} {start : Nat} {st : Search}

/-- A pass over a slot in the search of the scheduler's model. -/
theorem schedBody_eq (hmin : st.minPriority = minPriority) :
    schedBody M s st =
      if schedulable M s st.i = true then
        ⟨(st.i + 1) % nenv, some st.i, (schedBody M s st).minPriority, st.inspected ++ [st.i]⟩
      else ⟨(st.i + 1) % nenv, st.next, minPriority, st.inspected ++ [st.i]⟩ := by
  unfold schedBody schedulable
  dsimp only
  cases M.build with
  | roundRobin =>
      dsimp only
      by_cases hr : (s.envs st.i).envStatus = .runnable
      · simp only [hr, if_true, decide_true]
      · simp only [hr, if_false, decide_false, Bool.false_eq_true, hmin]
  | priorities =>
      dsimp only
      by_cases hr : (s.envs st.i).envStatus = .runnable ∧ (s.envs st.i).envPriority < minPriority
      · simp only [hmin, if_pos hr, decide_eq_true hr, if_true]
      · simp only [hmin, if_neg hr, decide_eq_false hr, Bool.false_eq_true, if_false]

/-- What holds before each pass: nothing is taken yet, and the slots looked at are
those of the table from the start to here. -/
structure Searching (M : Machine) (s : KState) (start : Nat) (st : Search) : Prop where
  next : st.next = none
  minPriority : st.minPriority = minPriority
  lt : st.i < nenv
  inTable : ∀ x ∈ st.inspected, x < nenv
  count : st.inspected.length = Rotation.ahead nenv start st.i
  rest : Rotation.scan (schedulable M s) nenv start (nenv - Rotation.ahead nenv start st.i) st.i =
    Rotation.scan (schedulable M s) nenv start nenv start

/-- The loop from a start in the table looks at slots of the table only, at each one
at most once, and finds what the scan finds. -/
theorem exists_searches (M : Machine) (s : KState) (hstart : start < nenv) :
    ∃ st, Searches M s start st ∧ (∀ x ∈ st.inspected, x < nenv) ∧ st.inspected.length ≤ nenv ∧
      st.next = Rotation.scan (schedulable M s) nenv start nenv start := by
  refine DoWhile.exists_ends (Searching M s start) _
    (fun u => nenv - Rotation.ahead nenv start u.i) (fun u hu hstop => ?_) (fun u hu hgo => ?_)
    ⟨rfl, rfl, hstart, fun x hx => absurd hx List.not_mem_nil, ?_, ?_⟩
  · have hlt := Rotation.ahead_lt_card hstart hu.lt
    have hfuel : nenv - Rotation.ahead nenv start u.i =
        (nenv - Rotation.ahead nenv start u.i - 1) + 1 := by omega
    have hrest := hu.rest
    rw [hfuel, Rotation.scan] at hrest
    have hin : ∀ x ∈ u.inspected ++ [u.i], x < nenv := by
      intro x hx
      rcases List.mem_append.mp hx with hx | hx
      · exact hu.inTable x hx
      · rw [List.mem_singleton.mp hx]
        exact hu.lt
    have hcount : (u.inspected ++ [u.i]).length ≤ nenv := by
      rw [List.length_append, List.length_singleton, hu.count]
      omega
    rw [schedBody_eq hu.minPriority] at hstop ⊢
    by_cases hp : schedulable M s u.i = true
    · rw [if_pos hp] at hrest ⊢
      exact ⟨hin, hcount, hrest⟩
    · rw [if_neg hp] at hrest hstop ⊢
      have hlast : (u.i + 1) % nenv = start := by
        by_contra hne
        exact hstop ⟨hne, hu.next⟩
      rw [if_pos hlast] at hrest
      exact ⟨hin, hcount, hu.next.trans hrest⟩
  · have hlt := Rotation.ahead_lt_card hstart hu.lt
    have hfuel : nenv - Rotation.ahead nenv start u.i =
        (nenv - Rotation.ahead nenv start u.i - 1) + 1 := by omega
    have hrest := hu.rest
    rw [hfuel, Rotation.scan] at hrest
    rw [schedBody_eq hu.minPriority] at hgo ⊢
    by_cases hp : schedulable M s u.i = true
    · rw [if_pos hp] at hgo
      exact absurd hgo.2 (Option.some_ne_none _)
    · rw [if_neg hp] at hrest hgo ⊢
      have hnext := Rotation.ahead_next hstart hu.lt hgo.1
      rw [if_neg hgo.1] at hrest
      refine ⟨⟨hu.next, rfl, Nat.mod_lt _ (by decide), fun x hx => ?_, ?_, ?_⟩, ?_⟩
      · rcases List.mem_append.mp hx with hx | hx
        · exact hu.inTable x hx
        · rw [List.mem_singleton.mp hx]
          exact hu.lt
      · rw [List.length_append, List.length_singleton, hu.count]
        exact hnext.symm
      · rw [← hrest]
        refine congrArg (Rotation.scan _ nenv start · _) ?_
        show nenv - Rotation.ahead nenv start ((u.i + 1) % nenv) = _
        omega
      · show nenv - Rotation.ahead nenv start ((u.i + 1) % nenv) < _
        omega
  · show 0 = Rotation.ahead nenv start start
    rw [Rotation.ahead_self]
  · show Rotation.scan _ nenv start (nenv - Rotation.ahead nenv start start) start = _
    rw [Rotation.ahead_self, Nat.sub_zero]

/-- The loop looks at its start first. -/
theorem Searches.start_mem (h : Searches M s start st) : start ∈ st.inspected := by
  have hbody : ∀ u : Search, (schedBody M s u).inspected = u.inspected ++ [u.i] := by
    intro u
    unfold schedBody
    dsimp only
    cases M.build with
    | roundRobin => dsimp only; split <;> rfl
    | priorities => dsimp only; split <;> rfl
  refine DoWhile.Ends.invariant (P := fun u => start ∈ u.inspected) h ?_ fun u hu _ => ?_
  · rw [hbody]
    exact List.mem_append_right _ (List.mem_singleton_self _)
  · rw [hbody]
    exact List.mem_append_left _ hu

/-! ## Round robin -/

/-- What the comment of `sched_yield` promises of the search: it stays in the table and
ends, and it finds the first environment that can run after the current one, or none
when there is none. -/
def SearchContract (M : Machine) (s : KState) (c : Nat) : Prop :=
  ∃ st, Searches M s (schedStart s c) st ∧
    (∀ x ∈ st.inspected, x < nenv) ∧ st.inspected.length ≤ nenv ∧
    (st.next = none ↔ ∀ x, x < nenv → (s.envs x).envStatus ≠ .runnable) ∧
    ∀ e, st.next = some e → e < nenv ∧ (s.envs e).envStatus = .runnable ∧
      ∀ x, x < nenv → (s.envs x).envStatus = .runnable →
        Rotation.ahead nenv (following (s.curenv c)) e ≤
          Rotation.ahead nenv (following (s.curenv c)) x

/-- The search starts after the current environment, in the table unless that one is in
the last slot. -/
theorem schedStart_eq {c : Nat}
    (hid : ∀ cur, s.curenv c = some cur → cur < nenv ∧ envx (s.envs cur).envId = cur) :
    (s.curenv c = some (nenv - 1) ∧ schedStart s c = nenv) ∨
      (s.curenv c ≠ some (nenv - 1) ∧ schedStart s c = following (s.curenv c) ∧
        schedStart s c < nenv) := by
  unfold schedStart
  cases hc : s.curenv c with
  | none =>
      exact .inr ⟨fun h0 => absurd h0 (Option.some_ne_none _).symm, rfl, show 0 < nenv by decide⟩
  | some cur =>
      obtain ⟨hlt, hx⟩ := hid cur hc
      dsimp only
      rw [hx]
      by_cases hlast : cur = nenv - 1
      · refine .inl ⟨by rw [hlast], ?_⟩
        rw [hlast]
        rfl
      · refine .inr ⟨fun h0 => hlast (Option.some.inj h0), ?_, by omega⟩
        exact (Nat.mod_eq_of_lt (show cur + 1 < nenv by omega)).symm

/-- In the last slot the search reads one past the end of the table. -/
theorem not_searchContract {c : Nat} (hstart : schedStart s c = nenv) :
    ¬ SearchContract M s c := by
  rintro ⟨st, hst, hin, _⟩
  have hmem := hst.start_mem
  exact absurd (hin _ hmem) (by omega)

/-- The round-robin search keeps to its comment exactly when the current environment is
not the one in the last slot. -/
theorem searchContract_iff {c : Nat} (hb : M.build = .roundRobin)
    (hid : ∀ cur, s.curenv c = some cur → cur < nenv ∧ envx (s.envs cur).envId = cur) :
    SearchContract M s c ↔ s.curenv c ≠ some (nenv - 1) := by
  have hsched : ∀ x, schedulable M s x = true ↔ (s.envs x).envStatus = .runnable := by
    intro x
    unfold schedulable
    rw [hb]
    exact decide_eq_true_iff
  rcases schedStart_eq hid with ⟨hlast, hstart⟩ | ⟨hne, hstart, hlt⟩
  · exact iff_of_false (not_searchContract hstart) (not_not.mpr hlast)
  · refine iff_of_true ?_ hne
    obtain ⟨st, hst, hin, hcount, hnext⟩ := exists_searches M s hlt
    refine ⟨st, hst, hin, hcount, ?_, fun e he => ?_⟩
    · constructor
      · intro hnone x hx hrun
        rw [hnext] at hnone
        have hno := Rotation.turn_none hlt hnone hx
        rw [(hsched x).mpr hrun] at hno
        cases hno
      · intro hall
        cases hfound : st.next with
        | none => rfl
        | some e =>
            rw [hfound] at hnext
            obtain ⟨he, hp, _⟩ := Rotation.turn_found hlt hnext.symm
            exact absurd ((hsched e).mp hp) (hall e he)
    · rw [hnext] at he
      obtain ⟨hlte, hp, hfirst⟩ := Rotation.turn_found hlt he
      rw [← hstart]
      exact ⟨hlte, (hsched e).mp hp, fun x hx hrun => hfirst x hx ((hsched x).mpr hrun)⟩

end

/-- The first of three environments has yielded to the second; the search goes on to the third
and not back to the first. -/
theorem searchContract_yielded : ∃ s, s.curenv 0 = some 1 ∧ (s.envs 0).envStatus = .runnable ∧
    (s.envs 2).envStatus = .runnable ∧ SearchContract (pc .roundRobin) s 0 ∧
    ∃ st, Searches (pc .roundRobin) s (schedStart s 0) st ∧ st.next = some 2 := by
  have hrun : (run (pc .roundRobin) [.create emptyImage, .create emptyImage, .create emptyImage,
      .start 0, call 0 10#32 0#32 0#32 0#32 0#32 0#32] pcBoot).any (fun s =>
        s.curenv 0 = some 1 ∧ envx (s.envs 1).envId = 1 ∧ (s.envs 0).envStatus = .runnable ∧
          (s.envs 2).envStatus = .runnable) = true := by decide +kernel
  obtain ⟨s, -, hs⟩ := reach_of_any (pcBoot_booted .roundRobin) hrun
  rw [decide_eq_true_eq] at hs
  obtain ⟨hcur, hid, hfirst, hthird⟩ := hs
  have hcontract : SearchContract (pc .roundRobin) s 0 := by
    refine (searchContract_iff rfl fun cur hc => ?_).mpr (by rw [hcur]; decide)
    obtain rfl := Option.some.inj (hcur.symm.trans hc)
    exact ⟨by decide, hid⟩
  refine ⟨s, hcur, hfirst, hthird, hcontract, ?_⟩
  obtain ⟨st, hst, -, -, hnone, hnext⟩ := hcontract
  refine ⟨st, hst, ?_⟩
  cases hfound : st.next with
  | none => exact absurd hthird (hnone.mp hfound 2 (by decide))
  | some e =>
      obtain ⟨he, -, hle⟩ := hnext e hfound
      have hle := hle 2 (by decide) hthird
      rw [hcur] at hle
      have hzero : Rotation.ahead nenv (following (some 1)) 2 = 0 := by decide
      rw [hzero] at hle
      rw [Rotation.ahead_inj he (by decide) ((Nat.le_zero.mp hle).trans hzero.symm) (by decide)]

/-- A table with nothing in it but the environment of CPU 0, in the last slot. -/
def lastSlot : KState :=
  { pcBoot with
    envs := fun _ => { zeroEnv with envId := 0x13FF#32, envStatus := .notRunnable }
    cpus := fun _ => { cpuStatus := .started, cpuEnv := some (nenv - 1), cr3 := 0x100 } }

theorem search_past_end : ¬ ∀ s c,
    (∀ cur, s.curenv c = some cur → cur < nenv ∧ envx (s.envs cur).envId = cur) →
    SearchContract (pc .roundRobin) s c := by
  intro hall
  refine not_searchContract (s := lastSlot) (c := 0) (by decide) (hall lastSlot 0 fun cur hc => ?_)
  obtain rfl : nenv - 1 = cur := Option.some.inj hc
  exact ⟨by decide, by decide⟩

/-! ## Priorities -/

section

variable {M : Machine} {s : KState} {c : Nat}

/-- An environment that can run has the best priority, and is the first with it after
slot `first`. -/
def Best (s : KState) (first e : Nat) : Prop :=
  e < nenv ∧ (s.envs e).envStatus = .runnable ∧
    ∀ x, x < nenv → (s.envs x).envStatus = .runnable →
      (s.envs e).envPriority ≤ (s.envs x).envPriority ∧
        ((s.envs x).envPriority = (s.envs e).envPriority →
          Rotation.ahead nenv first e ≤ Rotation.ahead nenv first x)

/-- What `sched.md` promises of the selection, after the boost if one is due. -/
def SelectionContract (M : Machine) (s : KState) (c : Nat) : Prop :=
  (∃ x, x < nenv ∧ (s.envs x).envStatus = .runnable) →
    ∃ st e, Searches M (searched M s) (schedStart s c) st ∧ (∀ x ∈ st.inspected, x < nenv) ∧
      st.next = some e ∧ Best (searched M s) (following (s.curenv c)) e

/-- The first environment with the best priority is one the search can take, and no other
it can take comes before it. -/
def BestFirst (s : KState) (first : Nat) : Prop :=
  ∃ e, Best s first e ∧ (s.envs e).envPriority < minPriority ∧
    ∀ x, x < nenv → (s.envs x).envStatus = .runnable → (s.envs x).envPriority < minPriority →
      Rotation.ahead nenv first e ≤ Rotation.ahead nenv first x

theorem schedulable_priorities (hb : M.build = .priorities) (x : Nat) :
    schedulable M s x = true ↔
      (s.envs x).envStatus = .runnable ∧ (s.envs x).envPriority < minPriority := by
  unfold schedulable
  rw [hb]
  exact decide_eq_true_iff

/-- What the search takes is the first it can take, so it is the best one only when that
comes first. -/
theorem SelectionContract.bestFirst (h : SelectionContract M s c) (hb : M.build = .priorities)
    (hstart : schedStart s c = following (s.curenv c)) (hlt : schedStart s c < nenv)
    (hsome : ∃ x, x < nenv ∧ (s.envs x).envStatus = .runnable) :
    BestFirst (searched M s) (following (s.curenv c)) := by
  obtain ⟨st, hst, _, _, hnext⟩ := exists_searches M (searched M s) hlt
  obtain ⟨st', e, hst', _, he, hbest⟩ := h hsome
  rw [hst'.unique hst, hnext] at he
  obtain ⟨_, hp, hfirst⟩ := Rotation.turn_found hlt he
  rw [← hstart] at hbest ⊢
  refine ⟨e, hbest, ((schedulable_priorities hb e).mp hp).2, fun x hx hrun hprio => ?_⟩
  exact hfirst x hx ((schedulable_priorities hb x).mpr ⟨hrun, hprio⟩)

end

/-- Environments in the first two slots with these priorities, after the switch that
follows a boost. -/
def twoPriorities (first second : Int) : KState :=
  { pcBoot with
    envs := fun i =>
      if i = 0 then { zeroEnv with envStatus := .runnable, envPriority := first }
      else if i = 1 then { zeroEnv with envStatus := .runnable, envPriority := second }
      else zeroEnv
    stats := ⟨0#32, 1#32, 0#32⟩ }

theorem twoPriorities_runnable {first second : Int} {x : Nat}
    (h : ((twoPriorities first second).envs x).envStatus = .runnable) :
    (x = 0 ∧ ((twoPriorities first second).envs x).envPriority = first) ∨
      (x = 1 ∧ ((twoPriorities first second).envs x).envPriority = second) := by
  unfold twoPriorities at h ⊢
  dsimp only at h ⊢
  split at h
  · rename_i h0
    exact .inl ⟨h0, by rw [if_pos h0]⟩
  · split at h
    · rename_i h0 h1
      exact .inr ⟨h1, by rw [if_neg h0, if_pos h1]⟩
    · cases h

end Jos
end Sisop

import Sisop.Fork.Primes

/-!
# The chain of processes

`Inv` says of every process of the chain which descriptors and children it has,
given where it is, and of every two neighbours what one knows when the other is
done.  What is printed and what is still owed are the primes, in order.

A step of a process that is not a fork changes that process and its two pipes.
`Inv.of_local` says what is then left to show.
-/

namespace Sisop
namespace Fork

open Processes Sieve TransitionSystem

variable (n : BitVec 32)

def roleOf (c : Option Pc) : Role := c.elim .done Pc.role

/-- The descriptors and children of process `j` of `count`. -/
structure ProcOk (count j : Nat) (p : Process Pc) : Prop where
  ends : p.ends = p.control.elim [] Pc.ends
  children : p.children = if roleOf p.control = .father then [j + 1] else []
  placed : ∀ c, p.control = some c → c.Placed n j
  last : roleOf p.control = .last → j + 1 = count
  father : roleOf p.control = .father → j + 1 < count
  /-- `send_numbers` has returned. -/
  counted : j = 0 → Closed p.control → bound n < intMax

structure Inv (s : State) : Prop where
  pos : 0 < s.count
  proc : ∀ j, j < s.count → ProcOk n s.count j (s.procs j)
  made : ∀ i, i + 1 = s.count → s.made = if HasNext (s.procs i).control then i + 1 else i
  past : ∀ j, j + 1 < s.count → PastEof (s.procs (j + 1)).control →
    Closed (s.procs j).control ∧ s.pipes j = []
  waited : ∀ j, j + 1 < s.count → Waited (s.procs j).control → (s.procs (j + 1)).control = none
  empty : ∀ k, s.count ≤ k + 1 → s.pipes k = []
  out : ∀ i, i + 1 = s.count →
    s.out ++ owed n (s.procs i).control (stream n s i) = primesUpTo (bound n)

/-- A step keeps the chain and leaves fewer steps. -/
structure Onward (s s' : State) : Prop where
  inv : Inv n s'
  less : left n s' < left n s

variable {n} {s s' : State} {i j : Nat} {c : Pc}

theorem work_mono {l m : Nat} (h : l ≤ m) : work l ≤ work m := by
  induction h with
  | refl => exact Nat.le_refl _
  | step _ ih =>
    rw [work]
    omega

/-! ## Streams -/

theorem stream_congr (hc : ∀ k, k < j → (s'.procs k).control = (s.procs k).control)
    (hq : ∀ k, k < j → s'.pipes k = s.pipes k) : stream n s' j = stream n s j := by
  induction j with
  | zero => rfl
  | succ j ih =>
    rw [stream, stream, hc j (Nat.lt_succ_self j), hq j (Nat.lt_succ_self j),
      ih (fun k hk => hc k (Nat.lt_succ_of_lt hk)) (fun k hk => hq k (Nat.lt_succ_of_lt hk))]

/-- Above a process nothing changes when what it sends does not. -/
theorem stream_above (h : stream n s' (i + 1) = stream n s (i + 1))
    (hc : ∀ k, i < k → k < j → (s'.procs k).control = (s.procs k).control)
    (hq : ∀ k, i < k → k < j → s'.pipes k = s.pipes k) (hij : i < j) :
    stream n s' j = stream n s j := by
  induction j with
  | zero => exact absurd hij (Nat.not_lt_zero i)
  | succ j ih =>
    rcases Nat.lt_or_ge i j with hlt | hge
    · rw [stream, stream, hc j hlt (Nat.lt_succ_self j), hq j hlt (Nat.lt_succ_self j),
        ih (fun k hk hkj => hc k hk (Nat.lt_succ_of_lt hkj))
          (fun k hk hkj => hq k hk (Nat.lt_succ_of_lt hkj)) hlt]
    · obtain rfl : i = j := by omega
      exact h

theorem emits_closed {c : Option Pc} (h : Closed c) (l : List Nat) : emits n c l = [] := by
  unfold Closed at h
  split at h <;> first | rfl | exact h.elim

theorem closed_roleOf {c : Option Pc} (h : Waited c) : Closed c := by
  unfold Waited at h
  split at h <;> trivial

/-! ## Descriptors -/

theorem Inv.not_last (hs : Inv n s) (hj : j + 1 < s.count) :
    roleOf (s.procs j).control ≠ .last := by
  intro h
  have hlast := (hs.proc j (by omega)).last h
  omega

/-- A process with a child holds the write end of its pipe until it closes it. -/
theorem Inv.holds_writeEnd (hs : Inv n s) (hj : j + 1 < s.count)
    (h : ¬ Closed (s.procs j).control) : .writeEnd j ∈ (s.procs j).ends := by
  have hok := hs.proc j (by omega)
  have hnot := hs.not_last hj
  rw [hok.ends]
  cases hcase : (s.procs j).control with
  | none =>
    rw [hcase] at h
    exact absurd trivial h
  | some c =>
    have hplaced := hok.placed c hcase
    rw [hcase] at h hnot
    cases c <;> first
      | exact absurd rfl hnot
      | exact absurd trivial h
      | (simp only [Pc.Placed] at hplaced; simp [Pc.ends]; omega)

/-- A process holds the read end of its current pipe until it has read to the
end. -/
theorem Inv.holds_readEnd (hs : Inv n s) (hj : j + 1 < s.count)
    (h : ¬ PastEof (s.procs (j + 1)).control) : .readEnd j ∈ (s.procs (j + 1)).ends := by
  have hok := hs.proc (j + 1) hj
  rw [hok.ends]
  cases hcase : (s.procs (j + 1)).control with
  | none =>
    rw [hcase] at h
    exact absurd trivial h
  | some c =>
    have hplaced := hok.placed c hcase
    rw [hcase] at h
    cases c <;> first
      | exact absurd trivial h
      | (simp only [Pc.Placed] at hplaced; simp [Pc.ends]; omega)

/-- The write ends of pipe `j` are with process `j` and, until it has closed its
own, with the child that it forked. -/
theorem Inv.writer (hs : Inv n s) (hi : i < s.count) (h : .writeEnd j ∈ (s.procs i).ends) :
    i = j ∨ i = j + 1 ∧ ∃ c, (s.procs i).control = some c ∧
      (c = .receiveNumbers j ∨ ∃ current, c = .child current j) := by
  have hok := hs.proc i hi
  rw [hok.ends] at h
  cases hcase : (s.procs i).control with
  | none =>
    rw [hcase] at h
    cases h
  | some c =>
    have hplaced := hok.placed c hcase
    rw [hcase] at h
    cases c <;> simp [Pc.ends] at h <;> simp only [Pc.Placed] at hplaced <;> first
      | (left; omega)
      | (subst h; exact .inr ⟨by omega, _, rfl, .inl rfl⟩)
      | (subst h; exact .inr ⟨by omega, _, rfl, .inr ⟨_, rfl⟩⟩)

/-! ## Steps -/

/-- What is left to show of a step of process `i` at `c` that forks nothing. -/
structure Local (n : BitVec 32) (s s' : State) (i : Nat) (c : Pc) : Prop where
  count : s'.count = s.count
  procs : ∀ j, j ≠ i → s'.procs j = s.procs j
  pipes : ∀ k, k ≠ i → k + 1 ≠ i → s'.pipes k = s.pipes k
  proc : ProcOk n s.count i (s'.procs i)
  made : s'.made = if i + 1 = s.count ∧ HasNext (s'.procs i).control then i + 1 else s.made
  past : ∀ j, j + 1 = i → PastEof (s'.procs i).control →
    Closed (s.procs j).control ∧ s'.pipes j = []
  closed : Closed (some c) → Closed (s'.procs i).control
  waited : i + 1 < s.count → Waited (s'.procs i).control → (s.procs (i + 1)).control = none
  pipe : i + 1 = s.count ∨ Closed (some c) → s'.pipes i = s.pipes i
  stream : i + 1 < s.count → stream n s' (i + 1) = stream n s (i + 1)
  out : i + 1 < s.count → s'.out = s.out
  owed : i + 1 = s.count → s'.out ++ owed n (s'.procs i).control (Fork.stream n s' i) =
    s.out ++ owed n (some c) (Fork.stream n s i)
  unmade : ¬ HasNext (some c)
  cost : cost n (s'.procs i).control (Fork.stream n s' i).length <
    cost n (some c) (Fork.stream n s i).length

/-- The other processes have the same steps left. -/
theorem Local.less (hi : i < s.count) (hc : (s.procs i).control = some c)
    (h : Local n s s' i c) : left n s' < left n s := by
  have hsame : ∀ j, j < s.count → j ≠ i →
      Fork.cost n (s'.procs j).control (Fork.stream n s' j).length =
        Fork.cost n (s.procs j).control (Fork.stream n s j).length := by
    intro j hj hji
    rw [h.procs j hji]
    rcases Nat.lt_or_gt_of_ne hji with hlt | hgt
    · rw [stream_congr (fun k hk => by rw [h.procs k (by omega)])
        (fun k hk => h.pipes k (by omega) (by omega))]
    · rw [stream_above (h.stream (by omega)) (fun k hk _ => by rw [h.procs k (by omega)])
        (fun k hk _ => h.pipes k (by omega) (by omega)) hgt]
  unfold left
  rw [h.count]
  refine Finset.sum_lt_sum (fun j hj => ?_) ⟨i, Finset.mem_range.mpr hi, by rw [hc]; exact h.cost⟩
  by_cases hji : j = i
  · subst hji
    rw [hc]
    exact Nat.le_of_lt h.cost
  · exact Nat.le_of_eq (hsame j (Finset.mem_range.mp hj) hji)

theorem Inv.of_local (hs : Inv n s) (hi : i < s.count) (hc : (s.procs i).control = some c)
    (h : Local n s s' i c) : Onward n s s' := by
  refine ⟨?_, h.less hi hc⟩
  have hpast_c : ∀ j, j + 1 = i → ¬ Waited (s.procs j).control := by
    rintro j rfl hw
    have hnone := hs.waited j hi hw
    rw [hc] at hnone
    cases hnone
  refine ⟨by rw [h.count]; exact hs.pos, ?_, ?_, ?_, ?_, ?_, ?_⟩
  · intro j hj
    rw [h.count] at hj ⊢
    by_cases hji : j = i
    · exact hji ▸ h.proc
    · rw [h.procs j hji]
      exact hs.proc j hj
  · intro j hj
    rw [h.count] at hj
    by_cases hji : j = i
    · subst hji
      rw [h.made]
      by_cases hnext : HasNext (s'.procs j).control
      · rw [if_pos ⟨hj, hnext⟩, if_pos hnext]
      · rw [if_neg fun hand => hnext hand.2, if_neg hnext]
        have hmade := hs.made j hj
        rwa [hc, if_neg h.unmade] at hmade
    · rw [h.made, h.procs j hji, if_neg (by omega)]
      exact hs.made j hj
  · intro j hj hp
    rw [h.count] at hj
    by_cases hji : j + 1 = i
    · rw [hji] at hp
      rw [h.procs j (by omega)]
      exact h.past j hji hp
    · rw [h.procs (j + 1) hji] at hp
      obtain ⟨hclosed, hpipe⟩ := hs.past j hj hp
      by_cases hj' : j = i
      · subst hj'
        rw [hc] at hclosed
        exact ⟨h.closed hclosed, by rw [h.pipe (.inr hclosed)]; exact hpipe⟩
      · rw [h.procs j hj', h.pipes j hj' hji]
        exact ⟨hclosed, hpipe⟩
  · intro j hj hw
    rw [h.count] at hj
    by_cases hj' : j = i
    · subst hj'
      rw [h.procs (j + 1) (by omega)]
      exact h.waited hj hw
    · rw [h.procs j hj'] at hw
      by_cases hji : j + 1 = i
      · exact absurd hw (hpast_c j hji)
      · rw [h.procs (j + 1) hji]
        exact hs.waited j hj hw
  · intro k hk
    rw [h.count] at hk
    by_cases hki : k = i
    · subst hki
      rw [h.pipe (.inl (by omega))]
      exact hs.empty k hk
    · rw [h.pipes k hki (by omega)]
      exact hs.empty k hk
  · intro j hj
    rw [h.count] at hj
    by_cases hji : j = i
    · subst hji
      rw [h.owed hj, ← hc]
      exact hs.out j hj
    · have hij : i < j := by omega
      rw [h.out (by omega), h.procs j hji, stream_above (h.stream (by omega))
        (fun k hk _ => by rw [h.procs k (by omega)]) (fun k hk _ => h.pipes k (by omega) (by omega))
        hij]
      exact hs.out j hj

/-- A step that leaves the pipes alone, to where the process is `p`. -/
theorem Inv.of_quiet (hs : Inv n s) (hi : i < s.count) (hc : (s.procs i).control = some c)
    (hnext : ¬ HasNext (some c)) {p : Process Pc} (hself : s'.procs i = p)
    (hcount : s'.count = s.count) (hprocs : ∀ j, j ≠ i → s'.procs j = s.procs j)
    (hpipes : s'.pipes = s.pipes) (hproc : ProcOk n s.count i p)
    (hmade : s'.made = if i + 1 = s.count ∧ HasNext p.control then i + 1 else s.made)
    (hpast : PastEof p.control → ∀ j, j + 1 = i → Closed (s.procs j).control ∧ s.pipes j = [])
    (hclosed : Closed (some c) → Closed p.control)
    (hwaited : i + 1 < s.count → Waited p.control → (s.procs (i + 1)).control = none)
    (hemits : i + 1 < s.count →
      emits n p.control (stream n s i) = emits n (some c) (stream n s i))
    (hout : i + 1 < s.count → s'.out = s.out)
    (howed : i + 1 = s.count → s'.out ++ owed n p.control (stream n s i) =
      s.out ++ owed n (some c) (stream n s i))
    (hcost : cost n p.control (stream n s i).length < cost n (some c) (stream n s i).length) :
    Onward n s s' := by
  subst hself
  have hstream : stream n s' i = stream n s i :=
    stream_congr (fun k hk => by rw [hprocs k (by omega)]) (fun k _ => by rw [hpipes])
  refine hs.of_local hi hc ⟨hcount, hprocs, fun k _ _ => by rw [hpipes], hproc, hmade, ?_, hclosed,
    hwaited, fun _ => by rw [hpipes], ?_, hout, ?_, hnext, by rw [hstream]; exact hcost⟩
  · intro j hj hp
    rw [hpipes]
    exact hpast hp j hj
  · intro hlt
    rw [stream, stream, hpipes, hstream, hemits hlt, hc]
  · intro hlast
    rw [hstream]
    exact howed hlast

/-- The process goes on to `c'`, in the role it has. -/
theorem ProcOk.goto {count : Nat} {p : Process Pc} {c' : Pc} {ends : List End}
    (h : ProcOk n count j p) (hc : p.control = some c) (hrole : c'.role = c.role)
    (hends : ends = c'.ends) (hplaced : c'.Placed n j)
    (hcounted : j = 0 → Closed (some c') → bound n < intMax) :
    ProcOk n count j { p with control := some c', ends := ends } := by
  have hsame : roleOf (some c') = roleOf p.control := by
    rw [hc]
    exact hrole
  refine ⟨hends, ?_, ?_, ?_, ?_, hcounted⟩
  · rw [h.children, ← hsame]
  · intro d hd
    cases hd
    exact hplaced
  · exact fun hlast => h.last (hsame ▸ hlast)
  · exact fun hfather => h.father (hsame ▸ hfather)

/-- The process has no descriptors and no children left. -/
theorem procOk_done {count : Nat} {d : Option Pc} (hd : Waited d)
    (hcounted : j = 0 → bound n < intMax) : ProcOk n count j ⟨d, [], []⟩ := by
  unfold Waited at hd
  split at hd
  · refine ⟨rfl, rfl, ?_, nofun, nofun, fun hj _ => hcounted hj⟩
    intro e he
    cases he
    trivial
  · exact ⟨rfl, rfl, nofun, nofun, nofun, fun hj _ => hcounted hj⟩
  · exact hd.elim

theorem Inv.of_last (hs : Inv n s) (hi : i < s.count) (hc : (s.procs i).control = some c)
    (hrole : c.role = .last) (hnext : ¬ HasNext (some c)) {p : Process Pc}
    (hself : s'.procs i = p) (hcount : s'.count = s.count)
    (hprocs : ∀ j, j ≠ i → s'.procs j = s.procs j) (hpipes : s'.pipes = s.pipes)
    (hproc : ProcOk n s.count i p)
    (hmade : s'.made = if HasNext p.control then i + 1 else s.made)
    (hpast : PastEof p.control → ∀ j, j + 1 = i → Closed (s.procs j).control ∧ s.pipes j = [])
    (howed : s'.out ++ owed n p.control (stream n s i) =
      s.out ++ owed n (some c) (stream n s i))
    (hcost : cost n p.control (stream n s i).length < cost n (some c) (stream n s i).length) :
    Onward n s s' := by
  have hlast : i + 1 = s.count := (hs.proc i hi).last (by rw [hc]; exact hrole)
  refine hs.of_quiet hi hc hnext hself hcount hprocs hpipes hproc ?_ hpast ?_ ?_ ?_ ?_ ?_ hcost
  · rw [hmade]
    by_cases hp : HasNext p.control
    · rw [if_pos hp, if_pos ⟨hlast, hp⟩]
    · rw [if_neg hp, if_neg fun hand => hp hand.2]
  · cases c <;> first | exact False.elim | cases hrole
  · omega
  · omega
  · omega
  · exact fun _ => howed

theorem Inv.of_father (hs : Inv n s) (hi : i < s.count) (hc : (s.procs i).control = some c)
    (hrole : c.role = .father) {p : Process Pc}
    (hself : s'.procs i = p) (hcount : s'.count = s.count)
    (hprocs : ∀ j, j ≠ i → s'.procs j = s.procs j) (hpipes : s'.pipes = s.pipes)
    (hmade : s'.made = s.made) (hout : s'.out = s.out) (hproc : ProcOk n s.count i p)
    (hpast : PastEof p.control → ∀ j, j + 1 = i → Closed (s.procs j).control ∧ s.pipes j = [])
    (hclosed : Closed (some c) → Closed p.control)
    (hwaited : Waited p.control → (s.procs (i + 1)).control = none)
    (hemits : emits n p.control (stream n s i) = emits n (some c) (stream n s i))
    (hcost : cost n p.control (stream n s i).length < cost n (some c) (stream n s i).length) :
    Onward n s s' := by
  have hlt : i + 1 < s.count := (hs.proc i hi).father (by rw [hc]; exact hrole)
  refine hs.of_quiet hi hc ?_ hself hcount hprocs hpipes hproc ?_ hpast hclosed
    (fun _ => hwaited) (fun _ => hemits) (fun _ => hout) ?_ hcost
  · cases c <;> first | exact id | cases hrole
  · rw [if_neg (by omega), hmade]
  · omega

/-- What the end-of-file of process `i` says about the process before it. -/
theorem Inv.eof (hs : Inv n s) (hi : i + 1 < s.count) (hpipe : s.pipes i = [])
    (hheld : ¬ s.Held (.writeEnd i)) :
    Closed (s.procs i).control ∧ stream n s (i + 1) = [] := by
  have hclosed : Closed (s.procs i).control := by
    by_contra hopen
    exact hheld ⟨i, by omega, hs.holds_writeEnd hi hopen⟩
  exact ⟨hclosed, by rw [stream, hpipe, emits_closed hclosed]; rfl⟩

end Fork
end Sisop

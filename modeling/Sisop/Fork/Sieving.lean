import Sisop.Fork.ChainSteps

/-!
# What primes prints

Every run of the program ends, and no process of it is ever stuck, unless `n` is
the largest `int`: then the `p++` of `send_numbers` overflows.

A process waits for the one behind it when it writes or waits for its child, and
for the one in front of it when it reads.  The first process never reads, so when
nothing moves each process waits for the one behind it, and the last one cannot
(`waits_behind`).
-/

namespace Sisop
namespace Fork

open Processes Sieve TransitionSystem

variable {n : BitVec 32} {cap : Nat → Nat} {s s' : State} {i j k : Nat} {c : Pc}

/-! ## Progress -/

/-- The process writes, or waits for its child. -/
def Behind (n : BitVec 32) : Pc → Prop
  | .wait => True
  | .sendNumbers _ p => p ≤ bound n
  | .candidate _ _ p m => m % p ≠ 0
  | _ => False

/-- The process reads from pipe `k`. -/
def Reads (c : Pc) (k : Nat) : Prop := c = .readFirst k ∨ ∃ next p, c = .sendPrimes k next p

theorem step_eq_call (hi : i < s.count) (hc : (s.procs i).control = some c) :
    s.step (prog n) cap i = s.call cap i (prog n c) := by
  unfold Net.step
  rw [if_pos hi, hc]

/-- A read goes on when there is a number or no writer. -/
theorem read_moves {next : Nat → Pc} {eof : Pc} (hend : .readEnd k ∈ (s.procs i).ends)
    (hread : s.pipes k ≠ [] ∨ ¬ s.Held (.writeEnd k)) :
    s.call cap i (.read k next eof) ≠ none := by
  simp only [Net.call]
  rw [if_pos hend]
  split
  · exact Option.some_ne_none _
  · rename_i hempty
    rcases hread with hne | hheld
    · exact absurd hempty hne
    · rw [if_neg hheld]
      exact Option.some_ne_none _

/-- A process that neither writes nor waits goes on, except that a read needs a
number or the end of the file. -/
theorem moves (hs : Inv n s) (hmax : bound n < intMax) (hi : i < s.count)
    (hc : (s.procs i).control = some c) (hnot : ¬ Behind n c)
    (hread : ∀ k, Reads c k → s.pipes k ≠ [] ∨ ¬ s.Held (.writeEnd k)) :
    s.step (prog n) cap i ≠ none := by
  have hends := hs.ends_of hi hc
  have hplaced := (hs.proc i hi).placed _ hc
  rw [step_eq_call hi hc]
  cases c with
  | sendNumbers current p =>
    obtain ⟨-, -, htwo, -⟩ := hplaced
    rw [prog, if_neg fun hle => hnot ((le_bound n htwo).mp hle)]
    exact Option.some_ne_none _
  | sent current p =>
    obtain ⟨-, -, -, hle⟩ := hplaced
    rw [prog, if_neg (by omega)]
    exact Option.some_ne_none _
  | readFirst current =>
    exact read_moves (by rw [hends]; simp [Pc.ends]) (hread current (.inl rfl))
  | sendPrimes current next p =>
    exact read_moves (by rw [hends]; simp [Pc.ends]) (hread current (.inr ⟨next, p, rfl⟩))
  | candidate current next p m =>
    rw [prog, if_neg (show ¬ m % p ≠ 0 from hnot)]
    exact Option.some_ne_none _
  | wait => exact absurd trivial hnot
  | main | mainFork current | mainFather current | receiveNumbers current | noFirst current
  | printf current p | nextPipe current p | fork current next p | child current next
  | father current next p | closeNext current next | closeCurrent current | exit =>
    exact Option.some_ne_none _

/-- When a process has exited, those behind it have. -/
theorem exited_behind (hs : Inv n s) (h : (s.procs i).control = none) (hij : i ≤ j)
    (hj : j < s.count) : (s.procs j).control = none := by
  induction hij with
  | refl => exact h
  | @step j hij ih => exact hs.waited j hj (by rw [ih (by omega)]; trivial)

/-- Nobody else holds the write end once process `j` waits and its child is past
its first call. -/
theorem not_held (hs : Inv n s) (hj : (s.procs j).control = some .wait)
    (hc : (s.procs (j + 1)).control = some c) (hreads : Reads c j) :
    ¬ s.Held (.writeEnd j) := by
  rintro ⟨i, hi, hmem⟩
  rcases hs.writer hi hmem with rfl | ⟨rfl, d, hd, hcases⟩
  · rw [hs.ends_of hi hj] at hmem
    cases hmem
  · rw [hc] at hd
    cases hd
    rcases hreads with rfl | ⟨next, p, rfl⟩ <;> rcases hcases with heq | ⟨current, heq⟩ <;>
      cases heq

/-- A stuck process that waits for the one behind it has one there that does the
same. -/
theorem waits_next (hs : Inv n s) (hmax : bound n < intMax) (hcap : ∀ k, 0 < cap k)
    (hstuck : s.Stuck (prog n) cap) (hj : j + 1 < s.count)
    (hc : (s.procs j).control = some c) (hbehind : Behind n c) :
    ∃ d, (s.procs (j + 1)).control = some d ∧ Behind n d := by
  have hok := hs.proc j (by omega)
  -- What the next process reads, it can read.
  have hnext : ∃ d, (s.procs (j + 1)).control = some d ∧
      (Reads d j → s.pipes j ≠ [] ∨ ¬ s.Held (.writeEnd j)) := by
    by_cases hwait : c = .wait
    · subst hwait
      have hchildren : (s.procs j).children = [j + 1] := by
        rw [hok.children, hc]
        rfl
      cases hd : (s.procs (j + 1)).control with
      | none =>
        have hmove := hstuck j
        rw [step_eq_call (by omega) hc] at hmove
        simp [prog, Net.call, hchildren, Net.exited, hd] at hmove
      | some d => exact ⟨d, rfl, fun hreads => .inr (not_held hs hc hd hreads)⟩
    · have hopen : ¬ Closed (s.procs j).control := by
        rw [hc]
        cases c <;> first | exact id | exact absurd rfl hwait | exact hbehind.elim
      have hpast : ¬ PastEof (s.procs (j + 1)).control := fun h => hopen (hs.past j hj h).1
      have hwrite := hs.holds_writeEnd hj hopen
      have hheld : s.Held (.readEnd j) := ⟨j + 1, hj, hs.holds_readEnd hj hpast⟩
      have hfull : s.pipes j ≠ [] := by
        intro hempty
        have hroom : (s.pipes j).length < cap j := by
          rw [hempty]
          exact hcap j
        have hmove := hstuck j
        have hplaced := hok.placed _ hc
        rw [step_eq_call (by omega) hc] at hmove
        cases c with
        | sendNumbers current p =>
          obtain ⟨rfl, rfl, htwo, -⟩ := hplaced
          rw [prog, if_pos ((le_bound n htwo).mpr hbehind)] at hmove
          simp [Net.call, hwrite, hheld, hroom] at hmove
        | candidate current next p m =>
          obtain ⟨-, rfl⟩ := hplaced
          rw [prog, if_pos (show m % p ≠ 0 from hbehind)] at hmove
          simp [Net.call, hwrite, hheld, hroom] at hmove
        | wait => exact hwait rfl
        | main | mainFork current | mainFather current | sent current p | receiveNumbers current
        | readFirst current | noFirst current | printf current p | nextPipe current p
        | fork current next p | child current next | father current next p
        | sendPrimes current next p | closeNext current next | closeCurrent current | exit =>
          exact hbehind.elim
      cases hd : (s.procs (j + 1)).control with
      | none =>
        rw [hd] at hpast
        exact absurd trivial hpast
      | some d => exact ⟨d, rfl, fun _ => .inl hfull⟩
  obtain ⟨d, hd, hreads⟩ := hnext
  refine ⟨d, hd, ?_⟩
  by_contra hnot
  refine moves hs hmax hj hd hnot (fun k hk => ?_) (hstuck (j + 1))
  have hplaced := (hs.proc (j + 1) hj).placed _ hd
  have hkj : k = j := by
    rcases hk with rfl | ⟨next, p, rfl⟩
    · exact (Nat.succ.inj hplaced).symm
    · exact (Nat.succ.inj hplaced.1).symm
  subst hkj
  exact hreads hk

theorem behind_father (h : Behind n c) : c.role = .father := by
  cases c <;> first | rfl | exact h.elim

/-- In a stuck network every process has exited. -/
theorem not_alive_of_stuck (hs : Inv n s) (hmax : bound n < intMax) (hcap : ∀ k, 0 < cap k)
    (hstuck : s.Stuck (prog n) cap) : ¬ s.Alive := by
  rintro ⟨i, hi, halive⟩
  have hfirst : ∃ c, (s.procs 0).control = some c ∧ Behind n c := by
    cases hc : (s.procs 0).control with
    | none => exact absurd (exited_behind hs hc (Nat.zero_le i) hi) halive
    | some c =>
      refine ⟨c, rfl, ?_⟩
      by_contra hnot
      refine moves hs hmax hs.pos hc hnot (fun k hk => ?_) (hstuck 0)
      have hplaced := (hs.proc 0 hs.pos).placed _ hc
      rcases hk with rfl | ⟨next, p, rfl⟩
      · exact absurd hplaced (Nat.succ_ne_zero k).symm
      · exact absurd hplaced.1 (Nat.succ_ne_zero k).symm
  have hall : ∀ j, j < s.count → ∃ c, (s.procs j).control = some c ∧ Behind n c := by
    intro j
    induction j with
    | zero => exact fun _ => hfirst
    | succ j ih =>
      intro hj
      obtain ⟨c, hc, hbehind⟩ := ih (by omega)
      exact waits_next hs hmax hcap hstuck hj hc hbehind
  obtain ⟨c, hc, hbehind⟩ := hall (s.count - 1) (by have := hs.pos; omega)
  have hfather := (hs.proc (s.count - 1) (by have := hs.pos; omega)).father
    (by rw [hc]; exact behind_father hbehind)
  omega

/-! ## Runs -/

theorem less_of_reach (h : Reach (primes n cap) anyEvent s)
    (hstep : (primes n cap).step s i s') : left n s' < left n s :=
  (onward_step (inv_of_reach h) hstep).less

/-- What has been printed is a part of the primes, from the first one on. -/
theorem printed_initial (hs : Inv n s) : s.out <+: primesUpTo (bound n) := by
  have hpos := hs.pos
  exact ⟨_, hs.out (s.count - 1) (by omega)⟩

theorem printed_all (hs : Inv n s) (h : ¬ s.Alive) : s.out = primesUpTo (bound n) := by
  have hpos := hs.pos
  have hnone : (s.procs (s.count - 1)).control = none := by
    by_contra hne
    exact h ⟨s.count - 1, by omega, hne⟩
  have hout := hs.out (s.count - 1) (by omega)
  rw [hnone] at hout
  exact (List.append_nil s.out).symm.trans hout

/-- A process that reads from a pipe finds its write end with the process before
it and with no other. -/
theorem writer_of_reader (hs : Inv n s) (hi : i < s.count) (hc : (s.procs i).control = some c)
    (hreads : Reads c k) (hj : j < s.count) (hmem : .writeEnd k ∈ (s.procs j).ends) :
    j + 1 = i := by
  have hplaced := (hs.proc i hi).placed _ hc
  have hik : i = k + 1 := by
    rcases hreads with rfl | ⟨next, p, rfl⟩
    · exact hplaced
    · exact hplaced.1
  rcases hs.writer hj hmem with rfl | ⟨rfl, d, hd, hcases⟩
  · exact hik.symm
  · subst hik
    rw [hc] at hd
    cases hd
    rcases hreads with rfl | ⟨next, p, rfl⟩ <;> rcases hcases with heq | ⟨current, heq⟩ <;>
      cases heq

/-- At the largest `int` the first process never gets past its loop. -/
theorem alive_of_max (hs : Inv n s) (hmax : bound n = intMax) : s.Alive := by
  refine ⟨0, hs.pos, fun hnone => ?_⟩
  have hlt := (hs.proc 0 hs.pos).counted rfl (by rw [hnone]; trivial)
  omega

/-- So a run with it gets stuck, in the `p++` of `send_numbers`. -/
theorem stuck_at_max (cap : Nat → Nat) (hmax : bound n = intMax) :
    ∃ t, Reach (primes n cap) anyEvent t ∧ t.Alive ∧ t.Stuck (prog n) cap := by
  obtain ⟨t, ht, hstuck⟩ := Reach.exists_stuck (left n) (fun s i s' => less_of_reach)
    (.init rfl : Reach (primes n cap) anyEvent (Net.start .main))
  refine ⟨t, ht, alive_of_max (inv_of_reach ht) hmax, fun i => ?_⟩
  cases hstep : t.step (prog n) cap i with
  | none => rfl
  | some t' => exact absurd hstep (hstuck i t')

/-- What primes does for the argument `n`, over all interleavings: it prints the
primes up to `n` in order, each once, every run ends, every reader's pipe has its
only write end at the producer, and nothing gets stuck before all have exited. -/
structure Sieves (n : BitVec 32) (cap : Nat → Nat) : Prop where
  printed : ∀ s, Reach (primes n cap) anyEvent s → s.out <+: primesUpTo (bound n)
  complete : ∀ s, Reach (primes n cap) anyEvent s → ¬ s.Alive → s.out = primesUpTo (bound n)
  ends : ∃ measure : State → Nat, ∀ s, Reach (primes n cap) anyEvent s → ∀ i s',
    (primes n cap).step s i s' → measure s' < measure s
  writer : ∀ s, Reach (primes n cap) anyEvent s → ∀ i c k, i < s.count →
    (s.procs i).control = some c → Reads c k → ∀ j, j < s.count →
    .writeEnd k ∈ (s.procs j).ends → j + 1 = i
  moves : ∀ s, Reach (primes n cap) anyEvent s → s.Alive → ¬ s.Stuck (prog n) cap

/-- It does so for every `n` but the largest `int`. -/
theorem sieves_iff (n : BitVec 32) {cap : Nat → Nat} (hcap : ∀ k, 0 < cap k) :
    Sieves n cap ↔ n.toInt ≠ intMax := by
  have hle := bound_le (n := n)
  constructor
  · intro h heq
    have hmax : bound n = intMax := by
      unfold bound
      omega
    obtain ⟨t, ht, halive, hstuck⟩ := stuck_at_max cap hmax
    exact h.moves t ht halive hstuck
  · intro hne
    have hmax : bound n < intMax := by
      have hpos : 0 < intMax := by decide
      unfold bound at hle ⊢
      omega
    refine ⟨fun s hs => printed_initial (inv_of_reach hs),
      fun s hs => printed_all (inv_of_reach hs), ⟨left n, fun s hs i s' => less_of_reach hs⟩,
      fun s hs i c k hi hc hreads j hj hmem =>
        writer_of_reader (inv_of_reach hs) hi hc hreads hj hmem, fun s hs halive hstuck => ?_⟩
    exact not_alive_of_stuck (inv_of_reach hs) hmax hcap hstuck halive

/-- 30, in pipes that hold one number. -/
theorem sieves_thirty : Sieves 30 (fun _ => 1) ↔ (30 : BitVec 32).toInt ≠ intMax :=
  sieves_iff 30 fun _ => Nat.one_pos

theorem sieves_max_overflows : ¬ Sieves 2147483647 (fun _ => 1) := by
  intro h
  obtain ⟨t, ht, halive, hstuck⟩ := stuck_at_max (n := 2147483647) (fun _ => 1) (by decide)
  exact h.moves t ht halive hstuck

end Fork
end Sisop

import Mathlib.Data.Nat.Prime.Basic
import Mathlib.Data.List.Sort

/-!
# The sieve on lists

`sieve` takes the head of a list, drops its multiples from the rest and goes on
with what is left.  On an increasing list that holds every prime factor of its
members this finds the primes of the list, in order.
-/

namespace Sieve

/-- The part of a list that `p` lets through. -/
def strain (p : Nat) (l : List Nat) : List Nat := l.filter fun m => m % p ≠ 0

theorem length_strain_le (p : Nat) (l : List Nat) : (strain p l).length ≤ l.length :=
  List.length_filter_le _ l

def sieve : List Nat → List Nat
  | [] => []
  | p :: l => p :: sieve (strain p l)
termination_by l => l.length
decreasing_by exact Nat.lt_succ_of_le (length_strain_le p l)

@[simp] theorem sieve_nil : sieve [] = [] := by rw [sieve]

@[simp] theorem sieve_cons (p : Nat) (l : List Nat) : sieve (p :: l) = p :: sieve (strain p l) := by
  rw [sieve]

@[simp] theorem strain_nil (p : Nat) : strain p [] = [] := rfl

theorem strain_cons_of_dvd {p m : Nat} (h : m % p = 0) (l : List Nat) :
    strain p (m :: l) = strain p l := by
  unfold strain
  rw [List.filter_cons_of_neg (by simpa using h)]

theorem strain_cons_of_not_dvd {p m : Nat} (h : m % p ≠ 0) (l : List Nat) :
    strain p (m :: l) = m :: strain p l := by
  unfold strain
  rw [List.filter_cons_of_pos (by simpa using h)]

theorem mem_strain {p m : Nat} {l : List Nat} : m ∈ strain p l ↔ m ∈ l ∧ ¬ p ∣ m := by
  unfold strain
  rw [List.mem_filter, Nat.dvd_iff_mod_eq_zero]
  simp

/-- What the sieve needs of a list. -/
structure Sievable (l : List Nat) : Prop where
  increasing : l.Pairwise (· < ·)
  two_le : ∀ m ∈ l, 2 ≤ m
  factors : ∀ m ∈ l, ∀ q, q.Prime → q ∣ m → q ∈ l

variable {p : Nat} {l : List Nat}

/-- The head of a sievable list is prime: its least factor is a member that is
not below it. -/
theorem Sievable.head_prime (h : Sievable (p :: l)) : p.Prime := by
  have htwo := h.two_le p List.mem_cons_self
  have hprime : p.minFac.Prime := Nat.minFac_prime (by omega)
  have hmem := h.factors p List.mem_cons_self _ hprime (Nat.minFac_dvd p)
  have hle := Nat.minFac_le (show 0 < p by omega)
  rcases List.mem_cons.mp hmem with heq | hmem
  · rwa [heq] at hprime
  · have hlt := List.rel_of_pairwise_cons h.increasing hmem
    omega

theorem Sievable.strain (h : Sievable (p :: l)) : Sievable (strain p l) := by
  refine ⟨?_, ?_, ?_⟩
  · exact (List.pairwise_cons.mp h.increasing).2.filter _
  · exact fun m hm => h.two_le m (List.mem_cons_of_mem _ (mem_strain.mp hm).1)
  · intro m hm q hq hdvd
    obtain ⟨hml, hpm⟩ := mem_strain.mp hm
    have hne : q ≠ p := by
      rintro rfl
      exact hpm hdvd
    have hql : q ∈ l := by
      rcases List.mem_cons.mp (h.factors m (List.mem_cons_of_mem _ hml) q hq hdvd) with heq | hql
      · exact absurd heq hne
      · exact hql
    refine mem_strain.mpr ⟨hql, fun hpq => hne ?_⟩
    exact ((Nat.prime_dvd_prime_iff_eq h.head_prime hq).mp hpq).symm

/-- Straining drops no prime. -/
theorem Sievable.filter_strain (h : Sievable (p :: l)) :
    (Sieve.strain p l).filter Nat.Prime = l.filter Nat.Prime := by
  unfold Sieve.strain
  rw [List.filter_filter]
  refine List.filter_congr fun m hm => ?_
  by_cases hprime : m.Prime
  · have hne : m % p ≠ 0 := by
      intro hzero
      have heq := (Nat.prime_dvd_prime_iff_eq h.head_prime hprime).mp
        (Nat.dvd_of_mod_eq_zero hzero)
      have hlt := List.rel_of_pairwise_cons h.increasing hm
      omega
    simp [hprime, hne]
  · simp [hprime]

theorem sieve_eq_filter {l : List Nat} (h : Sievable l) : sieve l = l.filter Nat.Prime := by
  induction l using sieve.induct with
  | case1 => rw [sieve_nil]; rfl
  | case2 p l ih =>
    rw [sieve_cons, ih h.strain, h.filter_strain,
      List.filter_cons_of_pos (by simpa using h.head_prime)]

/-! ## The primes up to a bound -/

/-- The numbers from `p` up to `n`. -/
def upTo (p n : Nat) : List Nat := List.range' p (n + 1 - p)

theorem mem_upTo {p n m : Nat} : m ∈ upTo p n ↔ p ≤ m ∧ m ≤ n := by
  unfold upTo
  rw [List.mem_range'_1]
  omega

theorem upTo_of_le {p n : Nat} (h : p ≤ n) : upTo p n = p :: upTo (p + 1) n := by
  unfold upTo
  rw [show n + 1 - p = (n + 1 - (p + 1)) + 1 by omega, List.range'_succ]

theorem upTo_of_lt {p n : Nat} (h : n < p) : upTo p n = [] := by
  unfold upTo
  rw [show n + 1 - p = 0 by omega]
  rfl

/-- The primes up to `n`, in order. -/
def primesUpTo (n : Nat) : List Nat := (upTo 0 n).filter Nat.Prime

theorem sievable_upTo (n : Nat) : Sievable (upTo 2 n) := by
  refine ⟨List.pairwise_lt_range', fun m hm => (mem_upTo.mp hm).1, fun m hm q hq hdvd => ?_⟩
  obtain ⟨htwo, hle⟩ := mem_upTo.mp hm
  have hqm := Nat.le_of_dvd (by omega) hdvd
  exact mem_upTo.mpr ⟨hq.two_le, by omega⟩

/-- The sieve of the numbers from 2 on finds the primes. -/
theorem sieve_upTo (n : Nat) : sieve (upTo 2 n) = primesUpTo n := by
  rw [sieve_eq_filter (sievable_upTo n)]
  unfold primesUpTo
  have hone : ¬ Nat.Prime 1 := Nat.not_prime_one
  have hzero : ¬ Nat.Prime 0 := Nat.not_prime_zero
  rw [upTo_of_le (Nat.zero_le n), List.filter_cons_of_neg (by simpa using hzero)]
  rcases Nat.lt_or_ge n 1 with hlt | hge
  · rw [upTo_of_lt (show n < 0 + 1 by omega), upTo_of_lt (show n < 2 by omega)]
  · rw [upTo_of_le (show 0 + 1 ≤ n by omega), List.filter_cons_of_neg (by simpa using hone)]

end Sieve

import Mathlib.Data.List.Nodup

/-!
# Circular search

A scan looks for a slot with a property, from a start on, once around `n` slots.
It finds the first one in the order of the rotation, which `ahead` measures.

A rotation that always goes on after the slot it chose last comes strictly closer
to a slot that has the property and is not chosen (`ahead_lt`), so until it gets
there it chooses no slot twice (`nodup_of_approach`).
-/

namespace Rotation

/-- How far slot `j` is ahead of slot `i` on a circle of `n` slots. -/
def ahead (n i j : Nat) : Nat := if i ≤ j then j - i else j + n - i

/-- The search, at slot `i` with `fuel` slots to go. -/
def scan (p : Nat → Bool) (n start : Nat) : Nat → Nat → Option Nat
  | 0, _ => none
  | fuel + 1, i =>
      if p i then some i
      else if (i + 1) % n = start then none
      else scan p n start fuel ((i + 1) % n)

variable {p : Nat → Bool} {n start fuel i j k : Nat}

@[simp] theorem ahead_self (n i : Nat) : ahead n i i = 0 := by
  unfold ahead
  rw [if_pos (Nat.le_refl i), Nat.sub_self]

theorem ahead_lt_card (hi : i < n) (hj : j < n) : ahead n i j < n := by
  unfold ahead
  split <;> omega

/-- The next slot is one further ahead. -/
theorem ahead_next (hstart : start < n) (hi : i < n) (hnext : (i + 1) % n ≠ start) :
    ahead n start ((i + 1) % n) = ahead n start i + 1 := by
  unfold ahead
  by_cases htop : i + 1 = n
  · rw [htop, Nat.mod_self] at hnext ⊢
    split <;> split <;> omega
  · rw [Nat.mod_eq_of_lt (by omega)] at hnext ⊢
    split <;> split <;> omega

/-- The last slot of the turn is the one before the start. -/
theorem ahead_last (hi : i < n) (hnext : (i + 1) % n = start) : ahead n start i + 1 = n := by
  unfold ahead
  by_cases htop : i + 1 = n
  · rw [htop, Nat.mod_self] at hnext
    split <;> omega
  · rw [Nat.mod_eq_of_lt (by omega)] at hnext
    split <;> omega

theorem ahead_inj (hi : i < n) (hj : j < n) (h : ahead n start i = ahead n start j)
    (hstart : start < n) : i = j := by
  unfold ahead at h
  split at h <;> split at h <;> omega

/-- The slot found has the property, and no slot that the scan passed has it. -/
theorem scan_found (hstart : start < n) (hi : i < n) (h : scan p n start fuel i = some j) :
    j < n ∧ p j = true ∧ ahead n start i ≤ ahead n start j ∧
      ∀ x, x < n → p x = true → ahead n start i ≤ ahead n start x →
        ahead n start j ≤ ahead n start x := by
  induction fuel generalizing i with
  | zero => cases h
  | succ fuel ih =>
      rw [scan] at h
      split at h
      · rename_i hp
        cases h
        exact ⟨hi, hp, Nat.le_refl _, fun x _ _ hx => hx⟩
      · rename_i hp
        split at h
        · cases h
        · rename_i hnext
          have hstep := ahead_next hstart hi hnext
          obtain ⟨hj, hpj, hle, hfirst⟩ := ih (Nat.mod_lt _ (by omega)) h
          refine ⟨hj, hpj, by omega, fun x hx hpx hix => hfirst x hx hpx ?_⟩
          have hne : ahead n start i ≠ ahead n start x := by
            intro heq
            rw [ahead_inj hi hx heq hstart] at hp
            exact hp hpx
          omega

/-- A scan that finds nothing has passed every slot to the end of its turn. -/
theorem scan_none (hstart : start < n) (hi : i < n) (hfuel : n ≤ ahead n start i + fuel)
    (h : scan p n start fuel i = none) {x : Nat} (hx : x < n)
    (hix : ahead n start i ≤ ahead n start x) : p x = false := by
  induction fuel generalizing i with
  | zero =>
      have hlt := ahead_lt_card hstart hi
      omega
  | succ fuel ih =>
      rw [scan] at h
      split at h
      · cases h
      · rename_i hp
        by_cases hxi : ahead n start i = ahead n start x
        · rw [← ahead_inj hi hx hxi hstart]
          exact Bool.eq_false_iff.mpr hp
        · split at h
          · rename_i hnext
            have hlast := ahead_last hi hnext
            have hlt := ahead_lt_card hstart hx
            omega
          · rename_i hnext
            have hstep := ahead_next hstart hi hnext
            exact ih (Nat.mod_lt _ (by omega)) (by omega) h (by omega)

/-- A full turn finds the first slot of the rotation that has the property. -/
theorem turn_found (hstart : start < n) (h : scan p n start n start = some j) :
    j < n ∧ p j = true ∧ ∀ x, x < n → p x = true → ahead n start j ≤ ahead n start x := by
  obtain ⟨hj, hp, _, hfirst⟩ := scan_found hstart hstart h
  refine ⟨hj, hp, fun x hx hpx => hfirst x hx hpx ?_⟩
  rw [ahead_self]
  exact Nat.zero_le _

theorem turn_none (hstart : start < n) (h : scan p n start n start = none) {x : Nat}
    (hx : x < n) : p x = false := by
  refine scan_none hstart hstart (Nat.le_add_left _ _) h hx ?_
  rw [ahead_self]
  exact Nat.zero_le _

/-- A full turn finds a slot if there is one. -/
theorem exists_turn (hstart : start < n) (hk : k < n) (hp : p k = true) :
    ∃ j, scan p n start n start = some j := by
  cases h : scan p n start n start with
  | some j => exact ⟨j, rfl⟩
  | none =>
      rw [turn_none hstart h hk] at hp
      cases hp

/-- A slot `j` that comes no later than `k` after slot `i` is closer to `k`. -/
theorem ahead_lt (hi : i + 1 < n) (hj : j < n) (hk : k < n) (hne : i ≠ k)
    (h : ahead n (i + 1) j ≤ ahead n (i + 1) k) : ahead n j k < ahead n i k := by
  unfold ahead at *
  split at h <;> split at h <;> split <;> split <;> omega

/-- A restart at slot 0 that finds slot `j` before `k` comes closer to `k` too, unless it
goes back behind slot `i`. -/
theorem ahead_lt_of_restart (hi : i < n) (hne : i ≠ k) (hj : j < k) (h : i < k → i < j) :
    ahead n j k < ahead n i k := by
  unfold ahead
  split <;> split <;> omega

/-- A sequence that comes closer to `k` with each slot has no slot twice. -/
theorem nodup_of_approach {l : List Nat}
    (h : l.Pairwise fun a b => ahead n a k < ahead n b k) : l.Nodup := by
  refine h.imp fun {a b} hab heq => ?_
  rw [heq] at hab
  exact Nat.lt_irrefl _ hab

end Rotation

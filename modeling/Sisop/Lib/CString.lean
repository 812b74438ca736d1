import Mathlib.Data.List.Range

/-!
# Zero-terminated strings in memory

A memory is a function from positions to cells, and the cell `0` ends a string.
`strlen` searches a bounded stretch, so that it says where a search without a
terminator stops.  `memcpy`, `memset0` and `memread` are the block operations,
each with the cells it changes and the cells it leaves alone.
-/

namespace CString

variable {α : Type*}

/-- The memory after `d` is copied to `p`. -/
def memcpy (m : Nat → α) (p : Nat) (d : List α) : Nat → α :=
  fun i => if i < p then m i else d.getD (i - p) (m i)

/-- The `n` cells from `p` on. -/
def memread (m : Nat → α) (p n : Nat) : List α :=
  (List.range n).map fun i => m (p + i)

variable {m : Nat → α} {p i k n : Nat} {d : List α}

theorem memcpy_below (h : i < p) : memcpy m p d i = m i := by
  simp [memcpy, h]

theorem memcpy_above (h : p + d.length ≤ i) : memcpy m p d i = m i := by
  have hp : ¬ i < p := by omega
  have hd : d.length ≤ i - p := by omega
  simp [memcpy, hp, hd]

theorem memcpy_outside (h : i < p ∨ p + d.length ≤ i) : memcpy m p d i = m i := by
  rcases h with h | h
  · exact memcpy_below h
  · exact memcpy_above h

theorem memcpy_inside (h : k < d.length) : memcpy m p d (p + k) = d[k] := by
  have hp : ¬ p + k < p := by omega
  simp [memcpy, hp, h]

/-- A cell of the copy is one of the cells copied. -/
theorem memcpy_mem (h : p ≤ i) (h' : i < p + d.length) : memcpy m p d i ∈ d := by
  obtain ⟨k, rfl⟩ := Nat.exists_eq_add_of_le h
  have hk : k < d.length := by omega
  rw [memcpy_inside hk]
  exact List.getElem_mem hk

@[simp] theorem length_memread : (memread m p n).length = n := by
  simp [memread]

theorem memread_congr {m' : Nat → α} (h : ∀ i, i < n → m' (p + i) = m (p + i)) :
    memread m' p n = memread m p n := by
  refine List.map_congr_left fun i hi => h i ?_
  exact List.mem_range.mp hi

/-- What was copied is read back. -/
theorem memread_memcpy : memread (memcpy m p d) p d.length = d := by
  refine List.ext_getElem (by simp) fun k hk hk' => ?_
  simp [memread, memcpy_inside hk']

section Zero

variable [Zero α]

/-- The memory after the cells from `lo` up to `hi` are zeroed. -/
def memset0 (m : Nat → α) (lo hi : Nat) : Nat → α :=
  fun i => if lo ≤ i ∧ i < hi then 0 else m i

theorem memset0_outside {lo hi : Nat} (h : i < lo ∨ hi ≤ i) : memset0 m lo hi i = m i := by
  have hn : ¬ (lo ≤ i ∧ i < hi) := by omega
  simp [memset0, hn]

theorem memset0_zero {lo hi : Nat} (h : m i = 0) : memset0 m lo hi i = 0 := by
  simp [memset0, h]

variable [DecidableEq α]

/-- The distance from `p` to the first zero, searched for in `n` cells. -/
def strlen (m : Nat → α) (p : Nat) : Nat → Nat
  | 0 => 0
  | n + 1 => if m p = 0 then 0 else strlen m (p + 1) n + 1

/-- The string at `p`, when it ends within `n` cells. -/
def strAt (m : Nat → α) (p n : Nat) : List α :=
  memread m p (strlen m p n)

theorem strlen_le : strlen m p n ≤ n := by
  induction n generalizing p with
  | zero => exact Nat.le_refl 0
  | succ n ih =>
    rw [strlen]
    split
    · exact Nat.zero_le _
    · exact Nat.succ_le_succ ih

theorem ne_zero_of_lt_strlen (h : i < strlen m p n) : m (p + i) ≠ 0 := by
  induction n generalizing p i with
  | zero => exact absurd h (Nat.not_lt_zero i)
  | succ n ih =>
    rw [strlen] at h
    split at h
    · exact absurd h (Nat.not_lt_zero i)
    · rename_i hp
      cases i with
      | zero => exact hp
      | succ i =>
        have hi := ih (Nat.lt_of_succ_lt_succ h)
        rwa [Nat.add_assoc, Nat.add_comm 1 i] at hi

theorem zero_at_strlen (h : strlen m p n < n) : m (p + strlen m p n) = 0 := by
  induction n generalizing p with
  | zero => exact absurd h (Nat.not_lt_zero _)
  | succ n ih =>
    rw [strlen] at h ⊢
    split
    · rename_i hp
      exact hp
    · rename_i hp
      rw [if_neg hp] at h
      have hz := ih (p := p + 1) (Nat.lt_of_succ_lt_succ h)
      rwa [Nat.add_assoc, Nat.add_comm 1] at hz

theorem strlen_le_of_zero (h : m (p + k) = 0) : strlen m p n ≤ k := by
  refine Nat.le_of_not_lt fun hlt => ?_
  exact ne_zero_of_lt_strlen hlt h

theorem strlen_lt_of_zero (hk : k < n) (h : m (p + k) = 0) : strlen m p n < n :=
  Nat.lt_of_le_of_lt (strlen_le_of_zero h) hk

/-- The length of a string is the place of its first zero. -/
theorem strlen_eq_iff (hk : k < n) :
    strlen m p n = k ↔ m (p + k) = 0 ∧ ∀ i, i < k → m (p + i) ≠ 0 := by
  constructor
  · rintro rfl
    exact ⟨zero_at_strlen hk, fun i hi => ne_zero_of_lt_strlen hi⟩
  · rintro ⟨hz, hne⟩
    refine Nat.le_antisymm (strlen_le_of_zero hz) (Nat.le_of_not_lt fun hlt => ?_)
    exact hne _ hlt (zero_at_strlen (Nat.lt_trans hlt hk))

theorem strAt_eq_nil (h : m p = 0) : strAt m p n = [] := by
  have hlen : strlen m p n ≤ 0 := strlen_le_of_zero h
  rw [strAt, Nat.le_zero.mp hlen]
  rfl

theorem strlen_congr {m' : Nat → α} (h : ∀ i, i < n → m' (p + i) = m (p + i)) :
    strlen m' p n = strlen m p n := by
  induction n generalizing p with
  | zero => rfl
  | succ n ih =>
    have hrest : strlen m' (p + 1) n = strlen m (p + 1) n := ih fun i hi => by
      rw [Nat.add_assoc, Nat.add_comm 1]
      exact h (i + 1) (Nat.succ_lt_succ hi)
    have hfirst : m' p = m p := h 0 (Nat.succ_pos n)
    rw [strlen, strlen, hrest, hfirst]

theorem strAt_congr {m' : Nat → α} (h : ∀ i, i < n → m' (p + i) = m (p + i)) :
    strAt m' p n = strAt m p n := by
  rw [strAt, strAt, strlen_congr h]
  exact memread_congr fun i hi => h i (Nat.lt_of_lt_of_le hi strlen_le)

/-- The string that is read is the one copied, when a zero stands behind it. -/
theorem strAt_memcpy (hlen : d.length < n) (hd : 0 ∉ d) (hz : m (p + d.length) = 0) :
    strAt (memcpy m p d) p n = d := by
  have hend : strlen (memcpy m p d) p n = d.length := by
    refine (strlen_eq_iff hlen).mpr ⟨?_, fun i hi hzero => hd ?_⟩
    · rw [memcpy_above (Nat.le_refl _), hz]
    · rw [← hzero]
      exact memcpy_mem (Nat.le_add_right p i) (by omega)
  rw [strAt, hend]
  exact memread_memcpy

end Zero

end CString

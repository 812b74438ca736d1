import Mathlib.Algebra.Group.Nat.Defs
import Mathlib.Data.Nat.Basic

/-!
# Windows of a machine's addresses

A window of `n` addresses from `a` on wraps at the top of the address space.  An address
is in it when its distance from `a`, which wraps as well, is below `n`.  `paint` gives the
addresses of a window new values, and painting two windows side by side is painting the
window they make up.
-/

namespace Window

variable {w : Nat} {α : Type*} {a x : BitVec w} {m n : Nat}

/-- Address `x` is one of the `n` addresses from `a` on. -/
def Mem (a : BitVec w) (n : Nat) (x : BitVec w) : Prop := (x - a).toNat < n

instance (a : BitVec w) (n : Nat) (x : BitVec w) : Decidable (Mem a n x) :=
  inferInstanceAs (Decidable (_ < _))

/-- The function `f`, with the values of `g` at the distances of the window. -/
def paint (f : BitVec w → α) (a : BitVec w) (n : Nat) (g : BitVec w → α) (x : BitVec w) : α :=
  if Mem a n x then g (x - a) else f x

theorem not_mem_zero : ¬ Mem a 0 x := Nat.not_lt_zero _

/-- Outside the window only the function itself counts, at that address. -/
theorem paint_congr {f f' : BitVec w → α} (h : f x = f' x) (a : BitVec w) (n : Nat)
    (g : BitVec w → α) : paint f a n g x = paint f' a n g x := by
  unfold paint
  rw [h]

/-- In the window only the values at its distances count. -/
theorem paint_congr_window {g g' : BitVec w → α} (h : ∀ x, Mem a n x → g (x - a) = g' (x - a))
    (f : BitVec w → α) : paint f a n g = paint f a n g' := by
  funext x
  unfold paint
  by_cases hx : Mem a n x
  · rw [if_pos hx, if_pos hx, h x hx]
  · rw [if_neg hx, if_neg hx]

theorem paint_zero (f g : BitVec w → α) (a : BitVec w) : paint f a 0 g = f :=
  funext fun _ => if_neg not_mem_zero

/-- The distance from the second of two windows side by side. -/
theorem toNat_sub_add (hm : m < 2 ^ w) (a x : BitVec w) :
    (x - (a + BitVec.ofNat w m)).toNat =
      if m ≤ (x - a).toNat then (x - a).toNat - m else (x - a).toNat + 2 ^ w - m := by
  have hlt := (x - a).isLt
  rw [← BitVec.sub_sub, BitVec.toNat_sub (x - a), BitVec.toNat_ofNat, Nat.mod_eq_of_lt hm]
  split
  · rw [show 2 ^ w - m + (x - a).toNat = (x - a).toNat - m + 2 ^ w by omega, Nat.add_mod_right,
      Nat.mod_eq_of_lt (by omega)]
  · rw [Nat.mod_eq_of_lt (by omega)]
    omega

theorem mem_add_iff (hmn : m + n ≤ 2 ^ w) (hm : m < 2 ^ w) :
    Mem (a + BitVec.ofNat w m) n x ↔ Mem a (m + n) x ∧ ¬ Mem a m x := by
  unfold Mem
  rw [toNat_sub_add hm]
  have hlt := (x - a).isLt
  split <;> omega

theorem Mem.mono (h : Mem a m x) (hmn : m ≤ n) : Mem a n x := Nat.lt_of_lt_of_le h hmn

/-- Painting two windows side by side. -/
theorem paint_paint (f g : BitVec w → α) (hmn : m + n ≤ 2 ^ w) (hm : m < 2 ^ w) :
    paint (paint f a m g) (a + BitVec.ofNat w m) n (fun o => g (BitVec.ofNat w m + o)) =
      paint f a (m + n) g := by
  funext x
  unfold paint
  by_cases hfirst : Mem a m x
  · rw [if_neg fun h => ((mem_add_iff hmn hm).mp h).2 hfirst, if_pos hfirst,
      if_pos (hfirst.mono (Nat.le_add_right m n))]
  · rw [if_neg hfirst]
    by_cases hboth : Mem a (m + n) x
    · rw [if_pos ((mem_add_iff hmn hm).mpr ⟨hboth, hfirst⟩), if_pos hboth]
      dsimp only
      rw [← BitVec.sub_sub, BitVec.add_comm, BitVec.sub_add_cancel]
    · rw [if_neg fun h => hboth ((mem_add_iff hmn hm).mp h).1, if_neg hboth]

end Window

import Mathlib.Data.Finset.Card
import Mathlib.Logic.Function.Basic

/-!
# Counting references

A reference graph is a finite set of slots and a map that sends each slot to the
object it refers to, if any.  `refs` counts the slots that refer to an object.
Every operation on such a graph is a sequence of writes to single slots, and
`refs_update` is the arithmetic of one write: the old target loses one reference
and the new one gains one.
-/

namespace RefCount

variable {σ α : Type*} [DecidableEq α]

/-- How many slots of `S` refer to `p`. -/
def refs (S : Finset σ) (t : σ → Option α) (p : α) : Nat :=
  (S.filter fun x => t x = some p).card

variable {S : Finset σ} {t t' : σ → Option α} {x : σ} {p : α}

theorem refs_congr (h : ∀ x ∈ S, t' x = t x) : refs S t' p = refs S t p := by
  unfold refs
  refine congrArg Finset.card (Finset.filter_congr fun x hx => ?_)
  rw [h x hx]

theorem refs_eq_zero_iff : refs S t p = 0 ↔ ∀ x ∈ S, t x ≠ some p := by
  unfold refs
  rw [Finset.card_eq_zero, Finset.filter_eq_empty_iff]

theorem refs_pos (hx : x ∈ S) (h : t x = some p) : 0 < refs S t p := by
  refine Nat.pos_of_ne_zero fun h0 => ?_
  exact refs_eq_zero_iff.mp h0 x hx h

/-- Slots that stop referring to `p` only lower its references. -/
theorem refs_mono (h : ∀ x ∈ S, t' x = some p → t x = some p) :
    refs S t' p ≤ refs S t p := by
  refine Finset.card_le_card fun x hx => ?_
  rw [Finset.mem_filter] at hx ⊢
  exact ⟨hx.1, h x hx.1 hx.2⟩

/-- A bound on the slots that can refer to `p` bounds its references. -/
theorem refs_le_card {T : Finset σ} (h : ∀ x ∈ S, t x = some p → x ∈ T) :
    refs S t p ≤ T.card := by
  refine Finset.card_le_card fun x hx => ?_
  rw [Finset.mem_filter] at hx
  exact h x hx.1 hx.2

variable [DecidableEq σ]

/-- Slots that copy what other slots refer to at most double the references. -/
theorem refs_le_double (f : σ → σ)
    (h : ∀ x ∈ S, t' x = some p → t x = some p ∨ ∃ y ∈ S, t y = some p ∧ f y = x) :
    refs S t' p ≤ 2 * refs S t p := by
  have hsub : (S.filter fun x => t' x = some p) ⊆
      (S.filter fun x => t x = some p) ∪ (S.filter fun x => t x = some p).image f := by
    intro x hx
    obtain ⟨hxs, hxp⟩ := Finset.mem_filter.mp hx
    rw [Finset.mem_union, Finset.mem_image]
    rcases h x hxs hxp with hold | ⟨y, hys, hyp, rfl⟩
    · exact .inl (Finset.mem_filter.mpr ⟨hxs, hold⟩)
    · exact .inr ⟨y, Finset.mem_filter.mpr ⟨hys, hyp⟩, rfl⟩
  have hcard := Finset.card_le_card hsub
  have hunion := Finset.card_union_le (S.filter fun x => t x = some p)
    ((S.filter fun x => t x = some p).image f)
  have himage := Finset.card_image_le (s := S.filter fun x => t x = some p) (f := f)
  unfold refs
  omega

theorem refs_union {T : Finset σ} (h : Disjoint S T) :
    refs (S ∪ T) t p = refs S t p + refs T t p := by
  unfold refs
  rw [Finset.filter_union, Finset.card_union_of_disjoint (Finset.disjoint_filter_filter h)]

/-- Counting over the image of an injective naming of slots. -/
theorem refs_image {τ : Type*} {S : Finset τ} {f : τ → σ} (hf : Function.Injective f) :
    refs (S.image f) t p = refs S (fun x => t (f x)) p := by
  unfold refs
  rw [Finset.filter_image, Finset.card_image_of_injective _ hf]

/-- The slots that refer to `p`, with one of them taken out. -/
theorem refs_erase (hx : x ∈ S) :
    refs S t p = refs (S.erase x) t p + if t x = some p then 1 else 0 := by
  unfold refs
  rw [← Finset.insert_erase hx, Finset.filter_insert]
  by_cases h : t x = some p
  · rw [if_pos h, if_pos h, Finset.card_insert_of_notMem (by simp), Finset.erase_insert (by simp)]
  · rw [if_neg h, if_neg h, Finset.erase_insert (by simp), Nat.add_zero]

/-- Writing one slot. -/
theorem refs_update (hx : x ∈ S) (v : Option α) :
    refs S (Function.update t x v) p + (if t x = some p then 1 else 0) =
      refs S t p + if v = some p then 1 else 0 := by
  have hrest : refs (S.erase x) (Function.update t x v) p = refs (S.erase x) t p := by
    refine refs_congr fun y hy => ?_
    exact Function.update_of_ne (Finset.ne_of_mem_erase hy) _ _
  rw [refs_erase (t := Function.update t x v) hx, refs_erase (t := t) hx,
    hrest, Function.update_self]
  omega

/-- A slot that refers to `p` and is the only one. -/
theorem refs_eq_one_iff_unique (hx : x ∈ S) (h : t x = some p) :
    refs S t p = 1 ↔ ∀ y ∈ S, t y = some p → y = x := by
  rw [refs_erase hx, if_pos h, Nat.add_eq_right, refs_eq_zero_iff]
  constructor
  · intro hnone y hy hyp
    by_contra hne
    exact hnone y (Finset.mem_erase.mpr ⟨hne, hy⟩) hyp
  · intro huniq y hy hyp
    exact Finset.ne_of_mem_erase hy (huniq y (Finset.mem_of_mem_erase hy) hyp)

end RefCount

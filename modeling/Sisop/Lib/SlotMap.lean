import Mathlib.Data.Set.Card

/-!
# Arrays of slots as finite maps

An array whose slots are free or hold a key and a value, searched from the front.  While no two
slots have one key it is a finite map: filling a free slot adds a key, emptying one removes it,
and there is no free slot exactly when there are as many keys as slots.
-/

namespace SlotMap

variable {K V : Type*} {n i : Nat} {slots : Nat → Option (K × V)} {k : K} {v w : V}

def Distinct (n : Nat) (slots : Nat → Option (K × V)) : Prop :=
  ∀ i j k v w, i < n → j < n → slots i = some (k, v) → slots j = some (k, w) → i = j

section

variable [DecidableEq K]

/-- The value of the first slot that has the key. -/
@[irreducible] def find (n : Nat) (slots : Nat → Option (K × V)) (k : K) : Option V :=
  (List.range n).findSome? fun i => (slots i).bind fun e => if e.1 = k then some e.2 else none

theorem slot_eq_some : ((slots i).bind fun e => if e.1 = k then some e.2 else none) = some v ↔
    slots i = some (k, v) := by
  cases hs : slots i with
  | none => exact iff_of_false (fun h => by cases h) fun h => by cases h
  | some e =>
      obtain ⟨k', v'⟩ := e
      rw [Option.bind_some]
      constructor
      · intro h
        dsimp only at h
        split at h
        · rename_i hk
          cases h
          rw [hk]
        · cases h
      · intro h
        cases h
        exact if_pos rfl

theorem find_eq_none : find n slots k = none ↔ ∀ i, i < n → ∀ v, slots i ≠ some (k, v) := by
  unfold find
  rw [List.findSome?_eq_none_iff]
  constructor
  · intro h i hi v hs
    have hnone := h i (List.mem_range.mpr hi)
    rw [slot_eq_some.mpr hs] at hnone
    cases hnone
  · intro h i hi
    rw [Option.eq_none_iff_forall_not_mem]
    exact fun v hv => h i (List.mem_range.mp hi) v (slot_eq_some.mp hv)

theorem exists_of_find (h : find n slots k = some v) : ∃ i, i < n ∧ slots i = some (k, v) := by
  unfold find at h
  obtain ⟨i, hi, hs⟩ := List.exists_of_findSome?_eq_some h
  exact ⟨i, List.mem_range.mp hi, slot_eq_some.mp hs⟩

theorem Distinct.find_eq_some (h : Distinct n slots) :
    find n slots k = some v ↔ ∃ i, i < n ∧ slots i = some (k, v) := by
  refine ⟨exists_of_find, fun ⟨i, hi, hs⟩ => ?_⟩
  cases hf : find n slots k with
  | none => exact absurd hs (find_eq_none.mp hf i hi v)
  | some w =>
      obtain ⟨j, hj, hs'⟩ := exists_of_find hf
      have heq : i = j := h i j k v w hi hj hs hs'
      rw [heq, hs'] at hs
      cases hs
      rfl

/-! ## Changes of one slot -/

/-- A slot that is free or has the key takes a value for it. -/
theorem Distinct.update (h : Distinct n slots)
    (hold : slots i = none ∧ find n slots k = none ∨ ∃ w, slots i = some (k, w)) :
    Distinct n (Function.update slots i (some (k, v))) := by
  -- No other slot has the key.
  have hother : ∀ j w, j < n → i < n → slots j = some (k, w) → j = i := fun j w hj hi hs => by
    rcases hold with ⟨-, hnone⟩ | ⟨w', hw'⟩
    · exact absurd hs (find_eq_none.mp hnone j hj w)
    · exact h j i k w w' hj hi hs hw'
  intro a b k' v₁ v₂ ha hb hsa hsb
  by_cases hai : a = i
  · by_cases hbi : b = i
    · rw [hai, hbi]
    · rw [hai, Function.update_self] at hsa
      rw [Function.update_of_ne hbi] at hsb
      cases hsa
      exact absurd (hother b v₂ hb (hai ▸ ha) hsb) hbi
  · rw [Function.update_of_ne hai] at hsa
    by_cases hbi : b = i
    · rw [hbi, Function.update_self] at hsb
      cases hsb
      exact absurd (hother a v₁ ha (hbi ▸ hb) hsa) hai
    · rw [Function.update_of_ne hbi] at hsb
      exact h a b k' v₁ v₂ ha hb hsa hsb

theorem Distinct.find_update (h : Distinct n slots) (hi : i < n)
    (hold : slots i = none ∧ find n slots k = none ∨ ∃ w, slots i = some (k, w)) :
    find n (Function.update slots i (some (k, v))) = Function.update (find n slots) k (some v) := by
  have hnew := h.update (v := v) hold
  funext k'
  refine Option.ext fun v' => ?_
  rw [hnew.find_eq_some]
  by_cases hk : k' = k
  · subst hk
    rw [Function.update_self]
    constructor
    · rintro ⟨j, hj, hs⟩
      have heq : j = i := hnew j i k' v' v hj hi hs (Function.update_self _ _ _)
      rw [heq, Function.update_self] at hs
      cases hs
      rfl
    · rintro ⟨⟩
      exact ⟨i, hi, Function.update_self _ _ _⟩
  · rw [Function.update_of_ne hk, h.find_eq_some]
    constructor
    · rintro ⟨j, hj, hs⟩
      by_cases hji : j = i
      · rw [hji, Function.update_self] at hs
        cases hs
        exact absurd rfl hk
      · rw [Function.update_of_ne hji] at hs
        exact ⟨j, hj, hs⟩
    · rintro ⟨j, hj, hs⟩
      have hji : j ≠ i := by
        rintro rfl
        rcases hold with ⟨hfree, -⟩ | ⟨w', hw'⟩
        · rw [hfree] at hs
          cases hs
        · rw [hw'] at hs
          cases hs
          exact hk rfl
      exact ⟨j, hj, (Function.update_of_ne hji _ _).trans hs⟩

omit [DecidableEq K] in
theorem Distinct.erase (h : Distinct n slots) : Distinct n (Function.update slots i none) := by
  have hkept : ∀ {j e}, Function.update slots i none j = some e → slots j = some e := fun {j e} hs => by
    by_cases hji : j = i
    · rw [hji, Function.update_self] at hs
      cases hs
    · rw [Function.update_of_ne hji] at hs
      exact hs
  exact fun a b k' v₁ v₂ ha hb hsa hsb => h a b k' v₁ v₂ ha hb (hkept hsa) (hkept hsb)

theorem Distinct.find_erase (h : Distinct n slots) (hi : i < n) (hs : slots i = some (k, w)) :
    find n (Function.update slots i none) = Function.update (find n slots) k none := by
  funext k'
  refine Option.ext fun v' => ?_
  rw [h.erase.find_eq_some]
  by_cases hk : k' = k
  · subst hk
    rw [Function.update_self]
    refine iff_of_false (fun ⟨j, hj, hs'⟩ => ?_) fun hx => by cases hx
    by_cases hji : j = i
    · rw [hji, Function.update_self] at hs'
      cases hs'
    · rw [Function.update_of_ne hji] at hs'
      exact hji (h j i k' v' w hj hi hs' hs)
  · rw [Function.update_of_ne hk, h.find_eq_some]
    constructor
    · rintro ⟨j, hj, hs'⟩
      by_cases hji : j = i
      · rw [hji, Function.update_self] at hs'
        cases hs'
      · rw [Function.update_of_ne hji] at hs'
        exact ⟨j, hj, hs'⟩
    · rintro ⟨j, hj, hs'⟩
      have hji : j ≠ i := by
        rintro rfl
        rw [hs] at hs'
        cases hs'
        exact hk rfl
      exact ⟨j, hj, (Function.update_of_ne hji _ _).trans hs'⟩

/-- No slot is free exactly when there are as many keys as slots. -/
theorem Distinct.ncard_eq_iff (h : Distinct n slots) :
    {k | find n slots k ≠ none}.ncard = n ↔ ∀ i, i < n → slots i ≠ none := by
  have hsub : {i | i < n ∧ slots i ≠ none} ⊆ (Finset.range n : Set Nat) := fun i hi =>
    Finset.mem_coe.mpr (Finset.mem_range.mpr hi.1)
  have hkeys : {i | i < n ∧ slots i ≠ none}.ncard = {k | find n slots k ≠ none}.ncard := by
    refine Set.ncard_congr (fun i hi => ((slots i).get (Option.isSome_iff_ne_none.mpr hi.2)).1)
      (fun i hi => ?_) (fun i j hi hj heq => ?_) fun k hk => ?_
    · obtain ⟨e, he⟩ := Option.ne_none_iff_exists'.mp hi.2
      have hfind : find n slots e.1 = some e.2 := h.find_eq_some.mpr ⟨i, hi.1, he⟩
      show find n slots ((slots i).get _).1 ≠ none
      rw [show (slots i).get (Option.isSome_iff_ne_none.mpr hi.2) = e from Option.get_of_eq_some _ he,
        hfind]
      exact Option.some_ne_none _
    · obtain ⟨e, he⟩ := Option.ne_none_iff_exists'.mp hi.2
      obtain ⟨e', he'⟩ := Option.ne_none_iff_exists'.mp hj.2
      rw [show (slots i).get (Option.isSome_iff_ne_none.mpr hi.2) = e from Option.get_of_eq_some _ he,
        show (slots j).get (Option.isSome_iff_ne_none.mpr hj.2) = e' from
          Option.get_of_eq_some _ he'] at heq
      refine h i j e.1 e.2 e'.2 hi.1 hj.1 he ?_
      rw [he', heq]
    · obtain ⟨v, hv⟩ := Option.ne_none_iff_exists'.mp hk
      obtain ⟨i, hi, hs⟩ := exists_of_find hv
      have hne : slots i ≠ none := by
        rw [hs]
        exact Option.some_ne_none _
      refine ⟨i, ⟨hi, hne⟩, ?_⟩
      rw [show (slots i).get (Option.isSome_iff_ne_none.mpr hne) = (k, v) from
        Option.get_of_eq_some _ hs]
  have hcard : (Finset.range n : Set Nat).ncard = n := by
    rw [Set.ncard_coe_finset, Finset.card_range]
  rw [← hkeys]
  constructor
  · intro heq i hi
    have hall := Set.eq_of_subset_of_ncard_le hsub (by rw [hcard, heq]) (Finset.finite_toSet _)
    have hmem : i ∈ {i | i < n ∧ slots i ≠ none} := by
      rw [hall]
      exact Finset.mem_coe.mpr (Finset.mem_range.mpr hi)
    exact hmem.2
  · intro hall
    have heq : {i | i < n ∧ slots i ≠ none} = (Finset.range n : Set Nat) := by
      refine Set.Subset.antisymm hsub fun i hi => ?_
      have hlt : i < n := Finset.mem_range.mp (Finset.mem_coe.mp hi)
      exact ⟨hlt, hall i hlt⟩
    rw [heq, hcard]

end

end SlotMap

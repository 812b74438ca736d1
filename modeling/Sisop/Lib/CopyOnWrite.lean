import Sisop.Lib.RefCount
import Mathlib.Data.Fintype.Prod

/-!
# Frames that address spaces share

Each owner has a frame, or none, at each page, and may write some of its pages.  In a
copy-on-write scheme two places have the same frame only when they are the same page of
different owners and neither may be written.  `Guarded` is that rule up to a relation of
pairs of places that somebody is in the middle of changing.

A step of such a scheme changes one place: it maps a frame that nobody has, or takes the
frame of a place away, or gives a place the frame of another one, or takes the permission
to write.  `Guarded.change` is the step, and the others are cases of it.
-/

namespace CopyOnWrite

open RefCount

variable {E N F : Type*}

/-- Who has which frame at which page, and who may write it. -/
structure Spaces (E N F : Type*) where
  frame : E × N → Option F
  writes : E × N → Prop

/-- The two places may have one frame. -/
def Spaces.Shares (sp : Spaces E N F) (x y : E × N) : Prop :=
  x.1 ≠ y.1 ∧ x.2 = y.2 ∧ ¬ sp.writes x ∧ ¬ sp.writes y

/-- Places with one frame may share it, or are a pair that `ex` names. -/
def Guarded (sp : Spaces E N F) (ex : E × N → E × N → Prop) : Prop :=
  ∀ x y f, x ≠ y → sp.frame x = some f → sp.frame y = some f →
    sp.Shares x y ∨ ex x y ∨ ex y x

variable {sp sp' : Spaces E N F} {ex ex' : E × N → E × N → Prop} {x y x₀ : E × N} {f : F}

theorem Spaces.Shares.symm (h : sp.Shares x y) : sp.Shares y x :=
  ⟨h.1.symm, h.2.1.symm, h.2.2.2, h.2.2.1⟩

/-- Pairs of `ex` that have one frame may be dropped when they share it. -/
theorem Guarded.weaken (h : Guarded sp ex)
    (hex : ∀ x y f, sp.frame x = some f → sp.frame y = some f → x ≠ y → ex x y →
      sp.Shares x y ∨ ex' x y) : Guarded sp ex' := by
  intro x y f hne hx hy
  rcases h x y f hne hx hy with hs | he | he
  · exact .inl hs
  · exact (hex x y f hx hy hne he).imp_right .inl
  · rcases hex y x f hy hx hne.symm he with hs | he'
    · exact .inl hs.symm
    · exact .inr (.inr he')

/-- One place changes: it is the only one that gets a frame or the permission to write. -/
theorem Guarded.change (h : Guarded sp ex) (hframe : ∀ x, x ≠ x₀ → sp'.frame x = sp.frame x)
    (hwrites : ∀ x, x ≠ x₀ → sp'.writes x → sp.writes x)
    (hex : ∀ x y, x ≠ x₀ → y ≠ x₀ → ex x y → ex' x y)
    (hnew : ∀ y f, y ≠ x₀ → sp'.frame x₀ = some f → sp.frame y = some f →
      sp'.Shares x₀ y ∨ ex' x₀ y ∨ ex' y x₀) : Guarded sp' ex' := by
  intro x y f hne hx hy
  by_cases hx₀ : x = x₀
  · subst hx₀
    exact hnew y f hne.symm hx ((hframe y hne.symm).symm.trans hy)
  by_cases hy₀ : y = x₀
  · subst hy₀
    rcases hnew x f hne hy ((hframe x hne).symm.trans hx) with hs | he | he
    · exact .inl hs.symm
    · exact .inr (.inr he)
    · exact .inr (.inl he)
  rw [hframe x hx₀] at hx
  rw [hframe y hy₀] at hy
  rcases h x y f hne hx hy with ⟨ho, hp, hwx, hwy⟩ | he | he
  · exact .inl ⟨ho, hp, fun hw => hwx (hwrites x hx₀ hw), fun hw => hwy (hwrites y hy₀ hw)⟩
  · exact .inr (.inl (hex x y hx₀ hy₀ he))
  · exact .inr (.inr (hex y x hy₀ hx₀ he))

/-- A place gets a frame that no other place has, or none. -/
theorem Guarded.fresh (h : Guarded sp ex) (hframe : ∀ x, x ≠ x₀ → sp'.frame x = sp.frame x)
    (hwrites : ∀ x, x ≠ x₀ → sp'.writes x → sp.writes x)
    (hex : ∀ x y, x ≠ x₀ → y ≠ x₀ → ex x y → ex' x y)
    (hnew : ∀ y f, y ≠ x₀ → sp'.frame x₀ = some f → sp.frame y ≠ some f) : Guarded sp' ex' :=
  h.change hframe hwrites hex fun y f hy hx hy' => absurd hy' (hnew y f hy hx)

/-- What an owner may write, another owner has only as a pair of `ex`. -/
theorem Guarded.ne_of_writes (h : Guarded sp ex) (hw : sp.writes x) (hx : sp.frame x = some f)
    (hne : x ≠ y) (h₁ : ¬ ex x y) (h₂ : ¬ ex y x) : sp.frame y ≠ some f := by
  intro hy
  rcases h x y f hne hx hy with hs | he | he
  · exact hs.2.2.1 hw
  · exact h₁ he
  · exact h₂ he

/-- No owner has a frame at more than two pages, one of which is `t`, when the pairs of
`ex` of one owner have `t` first. -/
theorem Guarded.refs_le [DecidableEq N] [DecidableEq F] {t : N} (h : Guarded sp ex)
    (hex : ∀ x y, x.1 = y.1 → ex x y → x.2 = t) (owners : Finset E) {S : Finset (E × N)}
    (hS : ∀ x ∈ S, x.1 ∈ owners) (f : F) : refs S sp.frame f ≤ 2 * owners.card := by
  have hcard : (owners ×ˢ (Finset.univ : Finset Bool)).card = 2 * owners.card := by
    rw [Finset.card_product, Finset.card_univ, Fintype.card_bool, Nat.mul_comm]
  rw [← hcard]
  refine Finset.card_le_card_of_injOn (fun x => (x.1, decide (x.2 = t))) (fun x hx => ?_) ?_
  · have hx' := (Finset.mem_filter.mp (Finset.mem_coe.mp hx)).1
    exact Finset.mem_coe.mpr (Finset.mem_product.mpr ⟨hS x hx', Finset.mem_univ _⟩)
  · intro x hx y hy heq
    obtain ⟨-, hfx⟩ := Finset.mem_filter.mp (Finset.mem_coe.mp hx)
    obtain ⟨-, hfy⟩ := Finset.mem_filter.mp (Finset.mem_coe.mp hy)
    obtain ⟨howner, hpage⟩ := Prod.mk.inj heq
    rw [decide_eq_decide] at hpage
    -- Two pages of one owner: one of them is `t`, and then so is the other.
    by_contra hne
    rcases h x y f hne hfx hfy with hs | he | he
    · exact hs.1 howner
    · have hx := hex x y howner he
      exact hne (Prod.ext howner (hx.trans (hpage.mp hx).symm))
    · have hy := hex y x howner.symm he
      exact hne (Prod.ext howner ((hpage.mpr hy).trans hy.symm))

end CopyOnWrite

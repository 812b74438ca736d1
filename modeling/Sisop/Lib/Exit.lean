import Mathlib.Tactic.Common

/-!
# Computations that may end early

`Except ε α` as a computation that returns a value or ends early with an exit.
`Post x Q E` says that a value returned meets `Q` and an exit meets `E`.  The
rules are those of a program logic with two postconditions: one for `pure`, for
an exit, for sequencing, for weakening, and an invariant rule for a monadic
fold.
-/

namespace Exit

variable {ε ε' α β σ : Type}

/-- What holds of the value returned, or of the exit. -/
def Post (x : Except ε α) (Q : α → Prop) (E : ε → Prop) : Prop :=
  match x with
  | .ok a => Q a
  | .error e => E e

variable {Q Q' : α → Prop} {E E' : ε → Prop} {R : β → Prop}

@[simp] theorem post_ok {a : α} : Post (.ok a) Q E ↔ Q a := Iff.rfl

@[simp] theorem post_pure {a : α} : Post (pure a : Except ε α) Q E ↔ Q a := Iff.rfl

@[simp] theorem post_error {e : ε} : Post (.error e : Except ε α) Q E ↔ E e := Iff.rfl

attribute [irreducible] Post

theorem Post.bind {x : Except ε α} {f : α → Except ε β} (hx : Post x Q E)
    (hf : ∀ a, Q a → Post (f a) R E) : Post (x >>= f) R E := by
  cases x with
  | ok a => exact hf a (post_ok.mp hx)
  | error e => exact post_error.mpr (post_error.mp hx)

theorem Post.imp {x : Except ε α} (hx : Post x Q E) (hQ : ∀ a, Q a → Q' a)
    (hE : ∀ e, E e → E' e) : Post x Q' E' := by
  cases x with
  | ok a => exact post_ok.mpr (hQ a (post_ok.mp hx))
  | error e => exact post_error.mpr (hE e (post_error.mp hx))

/-- The invariant rule of a fold: each turn may use the part of the list already
consumed. -/
theorem Post.foldlM {f : σ → α → Except ε σ} {I : List α → σ → Prop} (l : List α)
    (hstep : ∀ done a s, (∃ rest, l = done ++ a :: rest) → I done s →
      Post (f s a) (I (done ++ [a])) E) {s : σ} (h : I [] s) : Post (l.foldlM f s) (I l) E := by
  suffices hgen : ∀ todo done s, l = done ++ todo → I done s →
      Post (todo.foldlM f s) (I l) E from hgen l [] s rfl h
  intro todo
  induction todo with
  | nil =>
      intro done s hl hI
      rw [hl, List.append_nil]
      exact post_ok.mpr hI
  | cons a rest ih =>
      intro done s hl hI
      rw [List.foldlM_cons]
      refine (hstep done a s ⟨rest, hl⟩ hI).bind fun s' hs' => ?_
      exact ih (done ++ [a]) s' (by simp [hl]) hs'

/-- A value that is known. -/
theorem Post.value {x : Except ε α} {a : α} (hx : Post x Q E) (ha : x = .ok a) : Q a := by
  rw [ha] at hx
  exact post_ok.mp hx

theorem Post.exit {x : Except ε α} {e : ε} (hx : Post x Q E) (he : x = .error e) : E e := by
  rw [he] at hx
  exact post_error.mp hx

end Exit

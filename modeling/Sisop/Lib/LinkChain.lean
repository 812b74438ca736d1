import Mathlib.Logic.Function.Basic
import Mathlib.Data.List.Nodup

/-!
# Lists threaded through a link map

A singly linked list in an array is a head pointer and a map that sends every
node to its successor.  `LinkChain link head l` says that following `link` from
`head` visits exactly the nodes of `l`, in order, and then stops.  Such a list
is finite by definition and never visits a node twice, which is `nodup`, so a
represented list is acyclic.

`push` and `pop` are the two updates a free list makes, and `congr` is the frame
rule: a map that agrees on the visited nodes threads the same list.
-/

namespace LinkChain

variable {α : Type*}

/-- Following `link` from `head` visits the nodes of the list and then stops. -/
def Visits (link : α → Option α) : Option α → List α → Prop
  | head, [] => head = none
  | head, a :: l => head = some a ∧ Visits link (link a) l

variable {link link' : α → Option α} {head : Option α} {a : α} {l l' : List α}

theorem visits_nil : Visits link head [] ↔ head = none := Iff.rfl

theorem eq_nil_of_none (h : Visits link none l) : l = [] := by
  cases l with
  | nil => rfl
  | cons a l => exact absurd h.1 (by simp)

/-- A non-empty head is the first node visited. -/
theorem exists_cons (h : Visits link (some a) l) :
    ∃ rest, l = a :: rest ∧ Visits link (link a) rest := by
  cases l with
  | nil => exact absurd h (by simp [Visits])
  | cons b rest =>
      obtain ⟨hb, hrest⟩ := h
      cases hb
      exact ⟨rest, rfl, hrest⟩

/-- The nodes visited are determined by the links. -/
theorem unique (h : Visits link head l) (h' : Visits link head l') : l = l' := by
  induction l generalizing head l' with
  | nil =>
      rw [visits_nil] at h
      subst h
      exact (eq_nil_of_none h').symm
  | cons a l ih =>
      obtain ⟨rfl, hl⟩ := h
      obtain ⟨rest, rfl, hrest⟩ := exists_cons h'
      rw [ih hl hrest]

/-- Starting at a visited node gives the rest of the visit. -/
theorem from_mem (h : Visits link head l) (ha : a ∈ l) :
    ∃ pre rest, l = pre ++ a :: rest ∧ Visits link (some a) (a :: rest) := by
  induction l generalizing head with
  | nil => simp at ha
  | cons b l ih =>
      rcases List.mem_cons.mp ha with rfl | hmem
      · exact ⟨[], l, rfl, rfl, h.2⟩
      · obtain ⟨pre, rest, rfl, hv⟩ := ih h.2 hmem
        exact ⟨b :: pre, rest, rfl, hv⟩

/-- No node is visited twice: a second visit would start the same infinite
walk again, and the two would have different lengths. -/
theorem nodup (h : Visits link head l) : l.Nodup := by
  induction l generalizing head with
  | nil => exact List.nodup_nil
  | cons a l ih =>
      refine List.nodup_cons.mpr ⟨fun hmem => ?_, ih h.2⟩
      obtain ⟨pre, rest, hl, hv⟩ := from_mem h.2 hmem
      have hsame : l = rest := unique h.2 hv.2
      have hlen := congrArg List.length hl
      rw [← hsame] at hlen
      simp only [List.length_append, List.length_cons] at hlen
      omega

theorem congr (h : Visits link head l) (heq : ∀ a ∈ l, link' a = link a) :
    Visits link' head l := by
  induction l generalizing head with
  | nil => exact h
  | cons a l ih =>
      refine ⟨h.1, ?_⟩
      rw [heq a List.mem_cons_self]
      exact ih h.2 (fun b hb => heq b (List.mem_cons_of_mem a hb))

variable [DecidableEq α]

instance decidableVisits (link : α → Option α) :
    (head : Option α) → (l : List α) → Decidable (Visits link head l)
  | head, [] => inferInstanceAs (Decidable (head = none))
  | head, a :: l =>
      have := decidableVisits link (link a) l
      inferInstanceAs (Decidable (head = some a ∧ Visits link (link a) l))

/-- Linking a new node in front. -/
theorem push (h : Visits link head l) (ha : a ∉ l) :
    Visits (Function.update link a head) (some a) (a :: l) := by
  refine ⟨rfl, ?_⟩
  rw [Function.update_self]
  refine congr h (fun b hb => ?_)
  have hne : b ≠ a := fun e => ha (e ▸ hb)
  exact Function.update_of_ne hne _ _

/-- Unlinking the first node and clearing its link. -/
theorem pop (h : Visits link (some a) (a :: l)) :
    Visits (Function.update link a none) (link a) l := by
  have ha : a ∉ l := (List.nodup_cons.mp (nodup h)).1
  refine congr h.2 (fun b hb => ?_)
  have hne : b ≠ a := fun e => ha (e ▸ hb)
  exact Function.update_of_ne hne _ _

end LinkChain

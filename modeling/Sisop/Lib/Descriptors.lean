import Mathlib.Data.List.Basic

/-!
# Descriptor tables

The table of the open descriptors of a process.  What a descriptor stands for is
a parameter.  `openAt` takes the lowest descriptor that is closed, as `open` and
`pipe` do, and `exec` closes the descriptors that are close-on-exec.

`Clean n` says which descriptors an `exec` keeps: those below `n`.  Whatever is
open from `n` on is close-on-exec.
-/

namespace Descriptors

structure Entry (α : Type) where
  desc : α
  cloexec : Bool
  deriving DecidableEq, Repr

/-- Descriptors behind the end of the list are closed. -/
structure Table (α : Type) where
  slots : List (Option (Entry α))
  deriving DecidableEq, Repr

namespace Table

variable {α : Type}

def get (t : Table α) (fd : Nat) : Option (Entry α) := t.slots.getD fd none

def set (t : Table α) (fd : Nat) (e : Option (Entry α)) : Table α :=
  ⟨(t.slots ++ List.replicate (fd + 1 - t.slots.length) none).set fd e⟩

def lowest (t : Table α) : Nat := t.slots.findIdx Option.isNone

def openAt (t : Table α) (e : Entry α) : Nat × Table α := (t.lowest, t.set t.lowest (some e))

def close (t : Table α) (fd : Nat) : Table α := t.set fd none

/-- `none` when `old` is not open.  The copy is never close-on-exec. -/
def dup2 (t : Table α) (old new : Nat) : Option (Table α) :=
  (t.get old).map fun e => if old = new then t else t.set new (some ⟨e.desc, false⟩)

/-- The two ends, the read end first, and the table with both. -/
def pipe (t : Table α) (r w : α) : Nat × Nat × Table α :=
  let first := t.openAt ⟨r, false⟩
  let second := first.2.openAt ⟨w, false⟩
  (first.1, second.1, second.2)

def exec (t : Table α) : Table α := ⟨t.slots.map (Option.filter fun e => !e.cloexec)⟩

variable {t t' : Table α} {fd i n : Nat} {e : Entry α} {d r w : α}

/-! ## What the operations do to each descriptor -/

theorem get_set (t : Table α) (fd : Nat) (e : Option (Entry α)) (i : Nat) :
    (t.set fd e).get i = if i = fd then e else t.get i := by
  unfold get set
  simp only [List.getD_eq_getElem?_getD, List.getElem?_set, List.length_append,
    List.length_replicate]
  by_cases hi : i = fd
  · subst hi
    rw [if_pos rfl, if_pos (by omega), if_pos rfl]
    rfl
  · rw [if_neg (Ne.symm hi), if_neg hi]
    rcases Nat.lt_or_ge i t.slots.length with hlt | hge
    · rw [List.getElem?_append_left hlt]
    · rw [List.getElem?_append_right hge, List.getElem?_eq_none hge, List.getElem?_replicate]
      split <;> rfl

@[simp] theorem get_set_self (t : Table α) (fd : Nat) (e : Option (Entry α)) :
    (t.set fd e).get fd = e := by
  rw [get_set, if_pos rfl]

theorem get_set_ne (t : Table α) (e : Option (Entry α)) (h : i ≠ fd) :
    (t.set fd e).get i = t.get i := by
  rw [get_set, if_neg h]

@[simp] theorem get_close_self (t : Table α) (fd : Nat) : (t.close fd).get fd = none :=
  get_set_self t fd none

theorem get_close_ne (t : Table α) (h : i ≠ fd) : (t.close fd).get i = t.get i :=
  get_set_ne t none h

theorem get_exec (t : Table α) (i : Nat) :
    t.exec.get i = (t.get i).filter fun e => !e.cloexec := by
  unfold get exec
  simp only [List.getD_eq_getElem?_getD, List.getElem?_map]
  cases t.slots[i]? with
  | none => rfl
  | some e => rfl

/-- The lowest closed descriptor is closed. -/
theorem get_lowest (t : Table α) : t.get t.lowest = none := by
  unfold get lowest
  rw [List.getD_eq_getElem?_getD]
  rcases Nat.lt_or_ge (t.slots.findIdx Option.isNone) t.slots.length with hlt | hge
  · rw [List.getElem?_eq_getElem hlt]
    exact Option.isNone_iff_eq_none.mp (List.findIdx_getElem (w := hlt))
  · rw [List.getElem?_eq_none hge]
    rfl

theorem lowest_ne (h : t.get i = some e) : t.lowest ≠ i := by
  intro heq
  rw [← heq, get_lowest] at h
  cases h

theorem get_openAt_self (t : Table α) (e : Entry α) :
    (t.openAt e).2.get (t.openAt e).1 = some e :=
  get_set_self t t.lowest (some e)

theorem get_openAt_ne (t : Table α) (e : Entry α) (h : i ≠ (t.openAt e).1) :
    (t.openAt e).2.get i = t.get i :=
  get_set_ne t (some e) h

theorem dup2_eq (h : t.get i = some e) (hne : i ≠ fd) :
    t.dup2 i fd = some (t.set fd (some ⟨e.desc, false⟩)) := by
  unfold dup2
  rw [h, Option.map_some, if_neg hne]

/-! ## The descriptors that an exec keeps -/

structure Clean (n : Nat) (t : Table α) : Prop where
  kept : ∀ i, i < n → ∃ d, t.get i = some ⟨d, false⟩
  dropped : ∀ i e, n ≤ i → t.get i = some e → e.cloexec = true

theorem Clean.exec (h : Clean n t) (i : Nat) : (t.exec.get i).isSome ↔ i < n := by
  rw [get_exec]
  rcases Nat.lt_or_ge i n with hlt | hge
  · obtain ⟨d, hd⟩ := h.kept i hlt
    rw [hd]
    exact iff_of_true rfl hlt
  · refine iff_of_false ?_ (Nat.not_lt.mpr hge)
    cases hget : t.get i with
    | none => simp
    | some e => simp [h.dropped i e hge hget]

/-- Below `n` an exec changes nothing. -/
theorem Clean.get_exec (h : Clean n t) (hi : i < n) : t.exec.get i = t.get i := by
  obtain ⟨d, hd⟩ := h.kept i hi
  rw [Table.get_exec, hd]
  rfl

theorem Clean.le_lowest (h : Clean n t) : n ≤ t.lowest := by
  refine Nat.le_of_not_lt fun hlt => ?_
  obtain ⟨d, hd⟩ := h.kept _ hlt
  exact lowest_ne hd rfl

/-- A close-on-exec descriptor is opened above. -/
theorem Clean.openAt (h : Clean n t) (he : e.cloexec = true) : Clean n (t.openAt e).2 := by
  have hlow : n ≤ (t.openAt e).1 := h.le_lowest
  constructor
  · intro i hi
    rw [get_openAt_ne t e (by omega)]
    exact h.kept i hi
  · intro i e' hi hget
    by_cases heq : i = (t.openAt e).1
    · rw [heq, get_openAt_self] at hget
      cases hget
      exact he
    · rw [get_openAt_ne t e heq] at hget
      exact h.dropped i e' hi hget

theorem Clean.set (h : Clean n t) (hfd : fd < n) : Clean n (t.set fd (some ⟨d, false⟩)) := by
  constructor
  · intro i hi
    by_cases heq : i = fd
    · rw [heq, get_set_self]
      exact ⟨d, rfl⟩
    · rw [get_set_ne t _ heq]
      exact h.kept i hi
  · intro i e hi hget
    rw [get_set_ne t _ (by omega)] at hget
    exact h.dropped i e hi hget

/-! ## A pipe -/

/-- A pipe end moved to `fd` and both descriptors of the pipe closed. -/
def moveEnd (t : Table α) (r w : α) (fd : Nat) (readEnd : Bool) : Table α :=
  let p := t.pipe r w
  (((p.2.2.dup2 (if readEnd then p.1 else p.2.1) fd).getD p.2.2).close p.1).close p.2.1

theorem pipe_spec (h : Clean n t) (r w : α) :
    n ≤ (t.pipe r w).1 ∧ n ≤ (t.pipe r w).2.1 ∧ (t.pipe r w).1 ≠ (t.pipe r w).2.1 ∧
      (t.pipe r w).2.2.get (t.pipe r w).1 = some ⟨r, false⟩ ∧
      (t.pipe r w).2.2.get (t.pipe r w).2.1 = some ⟨w, false⟩ ∧
      ∀ i, i ≠ (t.pipe r w).1 → i ≠ (t.pipe r w).2.1 →
        (t.pipe r w).2.2.get i = t.get i := by
  have hlow : n ≤ (t.openAt ⟨r, false⟩).1 := h.le_lowest
  have hfirst := get_openAt_self t ⟨r, false⟩
  have hne : (t.openAt ⟨r, false⟩).1 ≠ ((t.openAt ⟨r, false⟩).2.openAt ⟨w, false⟩).1 :=
    (lowest_ne hfirst).symm
  refine ⟨hlow, ?_, hne, ?_, get_openAt_self _ _, fun i h₀ h₁ => ?_⟩
  · refine Nat.le_of_not_lt fun hlt => ?_
    obtain ⟨d, hd⟩ := h.kept _ hlt
    rw [← get_openAt_ne t ⟨r, false⟩ (by omega)] at hd
    exact lowest_ne hd rfl
  · exact (get_openAt_ne _ _ hne).trans hfirst
  · exact (get_openAt_ne _ _ h₁).trans (get_openAt_ne t _ h₀)

/-- Only `fd` has changed, and it stands for the end of the pipe. -/
theorem moveEnd_get (h : Clean n t) (hfd : fd < n) (readEnd : Bool) (hi : i < n) :
    (t.moveEnd r w fd readEnd).get i =
      if i = fd then some ⟨if readEnd then r else w, false⟩ else t.get i := by
  obtain ⟨h₀, h₁, -, hr, hw, hother⟩ := pipe_spec h r w
  unfold moveEnd
  dsimp only
  rw [get_close_ne _ (by omega), get_close_ne _ (by omega)]
  cases readEnd with
  | true =>
    rw [if_pos rfl, dup2_eq hr (by omega), Option.getD_some, get_set]
    split
    · rfl
    · exact hother i (by omega) (by omega)
  | false =>
    rw [if_neg Bool.false_ne_true, dup2_eq hw (by omega), Option.getD_some, get_set]
    split
    · rfl
    · exact hother i (by omega) (by omega)

theorem Clean.moveEnd (h : Clean n t) (hfd : fd < n) (readEnd : Bool) :
    Clean n (t.moveEnd r w fd readEnd) := by
  constructor
  · intro i hi
    rw [moveEnd_get h hfd readEnd hi]
    split
    · exact ⟨_, rfl⟩
    · exact h.kept i hi
  · intro i e hi hget
    obtain ⟨h₀, h₁, hne, hr, hw, hother⟩ := pipe_spec h r w
    unfold Table.moveEnd at hget
    dsimp only at hget
    by_cases hi₁ : i = (t.pipe r w).2.1
    · rw [hi₁, get_close_self] at hget
      cases hget
    · rw [get_close_ne _ hi₁] at hget
      by_cases hi₀ : i = (t.pipe r w).1
      · rw [hi₀, get_close_self] at hget
        cases hget
      · rw [get_close_ne _ hi₀] at hget
        refine h.dropped i e hi ?_
        rw [← hget, ← hother i hi₀ hi₁]
        cases readEnd with
        | true =>
          rw [if_pos rfl, dup2_eq hr (by omega), Option.getD_some, get_set_ne _ _ (by omega)]
        | false =>
          rw [if_neg Bool.false_ne_true, dup2_eq hw (by omega), Option.getD_some,
            get_set_ne _ _ (by omega)]

end Table
end Descriptors

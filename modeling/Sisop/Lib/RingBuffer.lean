import Mathlib.Data.List.Range
import Mathlib.Logic.Function.Basic

/-!
# Circular buffers without a count

A buffer of `n` slots with a position to read at and one to write at, and nothing else: it is
empty when the two are one.  So it never holds `n` values, and the one that would fill it empties
it instead.  `unread` is the queue it stands for.

`History` follows the values through any run: those read are those written, but for runs of `n`
of them that got lost together.
-/

structure RingBuffer (n : Nat) (α : Type*) where
  buf : Nat → α
  rpos : Nat
  wpos : Nat

namespace RingBuffer

variable {n : Nat} {α : Type*}

def put (r : RingBuffer n α) (a : α) : RingBuffer n α :=
  { r with
    buf := Function.update r.buf r.wpos a
    wpos := if r.wpos + 1 = n then 0 else r.wpos + 1 }

def get (r : RingBuffer n α) : Option (α × RingBuffer n α) :=
  if r.rpos = r.wpos then none
  else some (r.buf r.rpos, { r with rpos := if r.rpos + 1 = n then 0 else r.rpos + 1 })

/-- The positions are in the buffer. -/
structure Valid (r : RingBuffer n α) : Prop where
  rpos_lt : r.rpos < n
  wpos_lt : r.wpos < n

/-- How many values wait. -/
def count (r : RingBuffer n α) : Nat := if r.rpos ≤ r.wpos then r.wpos - r.rpos else r.wpos + n - r.rpos

/-- The slot of the `k`-th of them. -/
def slot (r : RingBuffer n α) (k : Nat) : Nat := if r.rpos + k < n then r.rpos + k else r.rpos + k - n

/-- The values that wait, the oldest first. -/
def unread (r : RingBuffer n α) : List α := (List.range r.count).map fun k => r.buf (r.slot k)

variable {r r' : RingBuffer n α} {a : α} {k : Nat}

@[simp] theorem length_unread : r.unread.length = r.count := by
  unfold unread
  rw [List.length_map, List.length_range]

theorem Valid.put (h : r.Valid) : (r.put a).Valid := by
  have hw := h.wpos_lt
  refine ⟨h.rpos_lt, ?_⟩
  show (if r.wpos + 1 = n then 0 else r.wpos + 1) < n
  split <;> omega

theorem Valid.get (h : r.Valid) (hg : r.get = some (a, r')) : r'.Valid := by
  have hr := h.rpos_lt
  unfold RingBuffer.get at hg
  split at hg
  · cases hg
  · cases hg
    refine ⟨?_, h.wpos_lt⟩
    show (if r.rpos + 1 = n then 0 else r.rpos + 1) < n
    split <;> omega

/-- The slot written to is none of those that wait. -/
theorem Valid.slot_ne_wpos (h : r.Valid) (hk : k < r.count) : r.slot k ≠ r.wpos := by
  have hr := h.rpos_lt
  have hw := h.wpos_lt
  unfold count at hk
  unfold slot
  split at hk <;> split <;> omega

/-- A write puts its value behind those that wait, unless it fills the buffer. -/
theorem Valid.unread_put (h : r.Valid) :
    (r.put a).unread = if r.count + 1 = n then [] else r.unread ++ [a] := by
  have hr := h.rpos_lt
  have hw := h.wpos_lt
  have hcount : (r.put a).count = if r.count + 1 = n then 0 else r.count + 1 := by
    show (if r.rpos ≤ (if r.wpos + 1 = n then 0 else r.wpos + 1) then
      (if r.wpos + 1 = n then 0 else r.wpos + 1) - r.rpos
      else (if r.wpos + 1 = n then 0 else r.wpos + 1) + n - r.rpos) = _
    unfold count
    split <;> split <;> split <;> split <;> omega
  unfold unread
  rw [hcount]
  split
  · rfl
  rename_i hfull
  have hslot : r.slot r.count = r.wpos := by
    unfold slot count
    split <;> split <;> omega
  rw [List.range_succ, List.map_append]
  refine congrArg₂ _ (List.map_congr_left fun k hk => ?_) ?_
  · exact Function.update_of_ne (h.slot_ne_wpos (List.mem_range.mp hk)) _ _
  · show [Function.update r.buf r.wpos a (r.slot r.count)] = [a]
    rw [hslot, Function.update_self]

theorem get_eq_none (h : r.Valid) : r.get = none ↔ r.unread = [] := by
  have hr := h.rpos_lt
  have hw := h.wpos_lt
  rw [← List.length_eq_zero_iff, length_unread]
  unfold RingBuffer.get count
  constructor
  · intro hg
    split at hg
    · split <;> omega
    · cases hg
  · intro hz
    rw [if_pos]
    split at hz <;> omega

/-- A read takes the oldest. -/
theorem Valid.unread_get (h : r.Valid) (hg : r.get = some (a, r')) : r.unread = a :: r'.unread := by
  have hr := h.rpos_lt
  have hw := h.wpos_lt
  unfold RingBuffer.get at hg
  split at hg
  · cases hg
  rename_i hne
  cases hg
  have hcount : r.count =
      ({ r with rpos := if r.rpos + 1 = n then 0 else r.rpos + 1 } : RingBuffer n α).count + 1 := by
    unfold count
    dsimp only
    split <;> split <;> split <;> omega
  unfold unread
  rw [hcount, List.range_succ_eq_map, List.map_cons, List.map_map]
  refine congrArg₂ _ ?_ (List.map_congr_left fun k hk => congrArg r.buf ?_)
  · unfold slot
    rw [Nat.add_zero, if_pos hr]
  · have hk' := List.mem_range.mp hk
    unfold count at hk'
    unfold slot
    dsimp only [Nat.succ_eq_add_one] at hk' ⊢
    by_cases htop : r.rpos + 1 = n
    · rw [if_pos htop] at hk' ⊢
      split at hk' <;> split <;> split <;> omega
    · rw [if_neg htop] at hk' ⊢
      split at hk' <;> split <;> split <;> omega

/-! ## What goes in and what comes out -/

/-- The second list is the first without some runs of `n` values. -/
inductive Drops (n : Nat) : List α → List α → Prop
  | nil : Drops n [] []
  | keep {l l' : List α} (a : α) (h : Drops n l l') : Drops n (l ++ [a]) (l' ++ [a])
  | drop {l l' : List α} (block : List α) (hn : block.length = n) (h : Drops n l l') :
      Drops n (l ++ block) l'

/-- `written` and `taken` are all that was written to the buffer and read from it. -/
structure History (r : RingBuffer n α) (written taken : List α) : Prop where
  valid : r.Valid
  kept : ∃ kept, written = kept ++ r.unread ∧ Drops n kept taken

variable {written taken : List α}

theorem History.put (h : r.History written taken) (a : α) :
    (r.put a).History (written ++ [a]) taken := by
  refine ⟨h.valid.put, ?_⟩
  obtain ⟨kept, rfl, hdrops⟩ := h.kept
  rw [h.valid.unread_put]
  split
  · rename_i hfull
    refine ⟨kept ++ (r.unread ++ [a]), ?_, hdrops.drop _ ?_⟩
    · rw [List.append_nil, List.append_assoc]
    · rw [List.length_append, length_unread, List.length_singleton, hfull]
  · exact ⟨kept, List.append_assoc _ _ _, hdrops⟩

theorem History.get (h : r.History written taken) (hg : r.get = some (a, r')) :
    r'.History written (taken ++ [a]) := by
  refine ⟨h.valid.get hg, ?_⟩
  obtain ⟨kept, rfl, hdrops⟩ := h.kept
  refine ⟨kept ++ [a], ?_, hdrops.keep a⟩
  rw [h.valid.unread_get hg, List.append_assoc, List.singleton_append]

end RingBuffer

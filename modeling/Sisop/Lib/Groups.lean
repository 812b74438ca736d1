import Mathlib.Data.List.Basic

/-!
# Groups of a list

A list cut into consecutive groups of `n` elements.  The last group has what
remains, when there is anything left.
-/

namespace Groups

variable {α : Type} {n : Nat} {l rest : List α}

def groups (n : Nat) (l : List α) : List (List α) :=
  if _h : n = 0 ∨ l = [] then []
  else l.take n :: groups n (l.drop n)
termination_by l.length
decreasing_by
  rw [List.length_drop]
  have hpos := List.length_pos_of_ne_nil fun hnil => _h (.inr hnil)
  have hn : n ≠ 0 := fun hzero => _h (.inl hzero)
  omega

theorem groups_nil : groups n ([] : List α) = [] := by
  rw [groups, dif_pos (.inr rfl)]

theorem groups_step (hn : 0 < n) (hl : l ≠ []) : groups n l = l.take n :: groups n (l.drop n) := by
  rw [groups, dif_neg (not_or.mpr ⟨Nat.ne_of_gt hn, hl⟩)]

/-- A full group in front. -/
theorem groups_full (hn : 0 < n) (h : l.length = n) :
    groups n (l ++ rest) = l :: groups n rest := by
  have hne : l ++ rest ≠ [] := by
    intro hnil
    have hlen := congrArg List.length hnil
    rw [List.length_append, List.length_nil] at hlen
    omega
  rw [groups_step hn hne, ← h, List.take_left, List.drop_left]

/-- A single group, full or not. -/
theorem groups_short (hl : l ≠ []) (h : l.length ≤ n) : groups n l = [l] := by
  have hpos := List.length_pos_of_ne_nil hl
  rw [groups_step (by omega) hl, List.take_of_length_le h, List.drop_of_length_le h, groups_nil]

theorem flatten_groups (hn : 0 < n) (l : List α) : (groups n l).flatten = l := by
  induction l using groups.induct n with
  | case1 l hend =>
    rcases hend with hzero | hnil
    · exact absurd hzero (Nat.ne_of_gt hn)
    · rw [hnil, groups_nil]
      rfl
  | case2 l hmore ih =>
    rw [groups_step hn (not_or.mp hmore).2, List.flatten_cons, ih, List.take_append_drop]

/-- The groups determine the list. -/
theorem groups_injective (hn : 0 < n) (h : groups n l = groups n rest) : l = rest := by
  have hflat := congrArg List.flatten h
  rw [flatten_groups hn, flatten_groups hn] at hflat
  exact hflat

end Groups

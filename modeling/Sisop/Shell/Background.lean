import Sisop.Shell.Capacity

/-!
# Commands in the background

`parse_cmd` looks for the first `&` of a segment and at the byte in front of it.
A segment asks for the background when it has an `&` anywhere that no `>` stands
in front of.
-/

namespace Sisop
namespace Shell

variable {arr : Arrays} {env : Environ} {before : Byte} {s : List Byte} {i idx : Nat}

def ampersand : Byte := chr '&'

/-- The byte at `i` of the segment is an `&` that is not immediately preceded by a
`>` of the segment. -/
def IsBackgroundMark (s : List Byte) (i : Nat) : Prop :=
  s[i]? = some ampersand ∧ ∀ j : Nat, i = j + 1 → s[j]? ≠ some (chr '>')

/-- `parse_cmd` makes a `BACK` node exactly of the segments with a background mark,
and it contains the command in front of the first one. -/
structure BacksMarked (arr : Arrays) (env : Environ) (before : Byte) (s : List Byte) : Prop where
  back_iff : (∃ scmd c, parseCmd arr env before s = some (.back scmd c)) ↔ ∃ i, IsBackgroundMark s i
  inside : ∀ scmd c, parseCmd arr env before s = some (.back scmd c) →
    ∃ i, IsBackgroundMark s i ∧ (∀ j, j < i → ¬ IsBackgroundMark s j) ∧
      parseExec arr env (s.take i) = some c

/-- The first `&` of the segment has another byte than `>` in front of it in the
buffer. -/
def FirstIsMark (before : Byte) (s : List Byte) : Prop :=
  ∃ i : Nat, s[i]? = some ampersand ∧ (∀ j : Nat, j < i → s[j]? ≠ some ampersand) ∧
    (before :: s)[i]? ≠ some (chr '>')

/-! ## The first ampersand -/

theorem blockContains_some (h : blockContains s ampersand = some idx) :
    s[idx]? = some ampersand ∧ ∀ j, j < idx → s[j]? ≠ some ampersand := by
  unfold blockContains at h
  obtain ⟨hlt, hat, hbefore⟩ := List.findIdx?_eq_some_iff_getElem.mp h
  constructor
  · rw [List.getElem?_eq_getElem hlt]
    exact congrArg some (by simpa using hat)
  · intro j hj heq
    have hnot := hbefore j hj
    rw [List.getElem?_eq_getElem (Nat.lt_trans hj hlt)] at heq
    exact absurd (Option.some.inj heq) (by simpa using hnot)

/-- A segment without `&` has no background mark. -/
theorem not_isBackgroundMark (h : blockContains s ampersand = none) : ¬ IsBackgroundMark s i := by
  intro hmark
  exact blockContains_eq_none.mp h (List.mem_of_getElem? hmark.1)

/-! ## What the parser does at it -/

/-- A free first `&` puts the command in front of it in the background. -/
theorem parseCmd_back (hidx : blockContains s ampersand = some idx)
    (hfree : (before :: s)[idx]? ≠ some (chr '>')) :
    parseCmd arr env before s = (parseExec arr env (s.take idx)).bind backCmdCreate := by
  have hne : s ≠ [] := by
    rintro rfl
    cases hidx
  unfold ampersand at hidx
  unfold parseCmd
  rw [if_neg hne, hidx]
  dsimp only
  rw [if_pos hfree, parseBack, (takeWhile_eq_take hidx).1]
  rfl

theorem parseCmd_redirected (hidx : blockContains s ampersand = some idx)
    (hredir : (before :: s)[idx]? = some (chr '>')) :
    parseCmd arr env before s = parseExec arr env s := by
  have hne : s ≠ [] := by
    rintro rfl
    cases hidx
  unfold ampersand at hidx
  unfold parseCmd
  rw [if_neg hne, hidx]
  dsimp only
  rw [if_neg (not_not.mpr hredir)]

theorem parseExec_ne_back (scmd : List Byte) (c : Cmd) :
    parseExec arr env s ≠ some (.back scmd c) := by
  intro h
  obtain ⟨e, -, -, htree⟩ := parseExec_eq_some.mp h
  cases htree

theorem parseCmd_plain (hnone : blockContains s ampersand = none) (scmd : List Byte) (c : Cmd) :
    parseCmd arr env before s ≠ some (.back scmd c) := by
  unfold ampersand at hnone
  unfold parseCmd
  split
  · intro h
    cases h
  · rw [hnone]
    exact parseExec_ne_back scmd c

/-- A byte other than `>` in front of the first `&` makes that one a mark. -/
theorem isBackgroundMark_of_free (hat : s[idx]? = some ampersand)
    (hfree : (before :: s)[idx]? ≠ some (chr '>')) : IsBackgroundMark s idx := by
  refine ⟨hat, fun j hj heq => ?_⟩
  rw [hj] at hfree
  exact hfree heq

theorem firstIsMark_iff (hidx : blockContains s ampersand = some idx) :
    FirstIsMark before s ↔ (before :: s)[idx]? ≠ some (chr '>') := by
  obtain ⟨hat, hfirst⟩ := blockContains_some hidx
  constructor
  · rintro ⟨i, hi, hbefore, hfree⟩
    have heq : i = idx := by
      rcases Nat.lt_trichotomy i idx with hlt | heq | hgt
      · exact absurd hi (hfirst i hlt)
      · exact heq
      · exact absurd hat (hbefore idx hgt)
    rw [← heq]
    exact hfree
  · intro hfree
    exact ⟨idx, hat, hfirst, hfree⟩

/-- `parse_cmd` is right about the background exactly when the first `&` of the
segment is a mark, and the command in front of it fits in its arrays, or no `&` of
the segment is one. -/
theorem backsMarked_iff (arr : Arrays) (env : Environ) (before : Byte) (s : List Byte) :
    BacksMarked arr env before s ↔
      FirstIsMark before s ∧ CommandFits arr env (s.takeWhile (· ≠ ampersand)) ∨
      ∀ i, ¬ IsBackgroundMark s i := by
  cases hidx : blockContains s ampersand with
  | none =>
    have hno : ∀ i, ¬ IsBackgroundMark s i := fun i => not_isBackgroundMark hidx
    refine iff_of_true ⟨⟨?_, ?_⟩, ?_⟩ (.inr hno)
    · rintro ⟨scmd, c, h⟩
      exact absurd h (parseCmd_plain hidx scmd c)
    · rintro ⟨i, hi⟩
      exact absurd hi (hno i)
    · intro scmd c h
      exact absurd h (parseCmd_plain hidx scmd c)
  | some idx =>
    obtain ⟨hat, hfirst⟩ := blockContains_some hidx
    rw [firstIsMark_iff hidx]
    by_cases hfree : (before :: s)[idx]? ≠ some (chr '>')
    · have hback := @parseCmd_back arr env before s idx hidx hfree
      have hmark := isBackgroundMark_of_free hat hfree
      rw [and_iff_right hfree, (takeWhile_eq_take hidx).1, or_iff_left fun hno => hno idx hmark]
      by_cases hfit : CommandFits arr env (s.take idx)
      · obtain ⟨c, -, hc⟩ := parseExec_of_fits hfit
        rw [hc, Option.bind_some] at hback
        refine iff_of_true ⟨iff_of_true ⟨_, _, hback⟩ ⟨idx, hmark⟩, ?_⟩ hfit
        intro scmd' c' h
        rw [hback] at h
        cases h
        exact ⟨idx, hmark, fun j hj hj' => hfirst j hj hj'.1, hc⟩
      · refine iff_of_false (fun hright => ?_) hfit
        obtain ⟨scmd, c, h⟩ := hright.back_iff.mpr ⟨idx, hmark⟩
        rw [hback, Option.bind_eq_some_iff] at h
        obtain ⟨e, he, -⟩ := h
        exact hfit (parseExec_isSome.mp (Option.isSome_of_eq_some he))
    · have hexec := @parseCmd_redirected arr env before s idx hidx (not_not.mp hfree)
      have hno : ∀ scmd c, parseCmd arr env before s ≠ some (.back scmd c) := by
        intro scmd c h
        rw [hexec] at h
        exact parseExec_ne_back scmd c h
      constructor
      · intro hright
        refine .inr fun i hi => ?_
        obtain ⟨scmd, c, h⟩ := hright.back_iff.mpr ⟨i, hi⟩
        exact hno scmd c h
      · rintro (⟨hmark, -⟩ | hnone)
        · exact absurd hmark hfree
        · refine ⟨iff_of_false ?_ ?_, fun scmd c h => absurd h (hno scmd c)⟩
          · rintro ⟨scmd, c, h⟩
            exact hno scmd c h
          · rintro ⟨i, hi⟩
            exact hnone i hi

/-- `a 2>&1 &` -/
def errorsInBackground : List Byte :=
  [chr 'a', space, chr '2', chr '>', chr '&', chr '1', space, chr '&']

/-- The redirection in front of its `&` keeps the command out of the background. -/
theorem errorsInBackground_waits (arr : Arrays) (env : Environ) :
    parseCmd arr env 0 errorsInBackground = parseExec arr env errorsInBackground :=
  @parseCmd_redirected arr env 0 errorsInBackground 4 (by decide) (by decide)

theorem errorsInBackground_wrong :
    ¬ BacksMarked sizes ⟨fun _ => none, 0⟩ 0 errorsInBackground := by
  intro h
  have hmark : IsBackgroundMark errorsInBackground 7 := by
    refine ⟨by decide, fun j hj => ?_⟩
    cases hj
    decide
  obtain ⟨scmd, c, hback⟩ := h.back_iff.mpr ⟨7, hmark⟩
  rw [errorsInBackground_waits] at hback
  exact parseExec_ne_back scmd c hback

end Shell
end Sisop

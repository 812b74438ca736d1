import Sisop.Shell.Pipelines

/-!
# The arrays of the parser

A line is read and parsed within the arrays when it is not too long, does not begin
with `&`, and no command of it has more arguments or assignments than `argv` and
`eargv` have cells.  What is counted are the tokens of the line.
-/

namespace Sisop
namespace Shell

variable {env : Environ} {s line : List Byte} {m : Memory}

/-! ## Lines that fit -/

/-- The command has fewer arguments than `argv` has cells, so that a null pointer
can end them, and no more assignments than `eargv` has. -/
def ArgsFit (env : Environ) (s : List Byte) : Prop :=
  (tokens s).countP (IsArgument env ·) < maxargs ∧ (tokens s).countP (IsAssignment ·) ≤ maxargs

theorem commandFits_inBounds : CommandFits inBounds.toArrays env s ↔ ArgsFit env s := by
  constructor
  · intro h
    exact h.1 maxargs rfl
  · intro h
    refine ⟨fun k hk => ?_, fun _ _ _ k hk => by cases hk⟩
    cases hk
    exact h

/-- The line that is read, and that is parsed when it runs a command, stays within
`buffer`, the tokens, `argv`, `eargv` and the names of the files. -/
def LineInBounds (env : Environ) (line : List Byte) : Prop :=
  ∃ m, readLine zeroed 0 (line ++ [endLine]) = some (some m, []) ∧
    (RunsCommand line → (parseLineAt inBounds env m 0).isSome)

/-- The line leaves a cell for its zero.  When it runs a command, it has another cell
behind it or is not read to its end, it does not begin with `&`, and each of its
commands fits. -/
structure LineFits (env : Environ) (line : List Byte) : Prop where
  length : line.length < buflen
  behind : RunsCommand line → line.length + 1 < buflen ∨ ¬ ReachesEnd ⟨0, line⟩
  front : RunsCommand line → line.head? ≠ some (chr '&')
  args : RunsCommand line → ∀ seg ∈ commands ⟨0, line⟩,
    seg.bytes = [] ∨ ArgsFit env (commandText seg.before seg.bytes)

theorem head_splitLine : (splitLine ⟨0, line⟩ bar).1.head? = some (chr '&') ↔
    line.head? = some (chr '&') := by
  cases line with
  | nil => exact Iff.rfl
  | cons a line =>
    have hleft : (splitLine ⟨0, a :: line⟩ bar).1 =
        (a :: line).takeWhile fun b => decide (b ≠ bar ∧ b ≠ 0) := rfl
    rw [hleft, List.takeWhile_cons]
    by_cases ha : a ≠ bar ∧ a ≠ 0
    · rw [if_pos (decide_eq_true ha)]
      exact Iff.rfl
    · have hnot : a ≠ chr '&' := by
        rintro rfl
        exact ha (by decide)
      rw [if_neg (by simpa using ha)]
      exact iff_of_false (fun h => by cases h) fun h => hnot (Option.some.inj h)

/-- A line that begins with `&` makes `parse_cmd` read in front of the buffer. -/
theorem parseLineAt_front (h : Rest m 0 line) (hamp : line.head? = some (chr '&')) :
    parseLineAt inBounds env m 0 = none := by
  by_cases hroom : 0 + line.length + 1 < buflen ∨ (splitLine ⟨0, line⟩ bar).1 ≠ line
  · obtain ⟨m', right, hsplit, -, hleft, -⟩ := @splitLineAt_fits inBounds m 0 line h 0 bar hroom
    rw [parseLineAt_step hsplit, parseCmdAt_front hleft (head_splitLine.mpr hamp) rfl]
    rfl
  · obtain ⟨hfull, hleft⟩ := not_or.mp hroom
    have hin := h.inside
    exact parseLineAt_none (splitLineAt_overrun h (by omega) (not_not.mp hleft))

theorem lineCommandsFit_inBounds {buf : Ptr} : LineCommandsFit inBounds.toArrays env buf ↔
    ∀ seg ∈ commands buf, seg.bytes = [] ∨ ArgsFit env (commandText seg.before seg.bytes) :=
  forall₂_congr fun _ _ => or_congr_right commandFits_inBounds

/-- Parsing stays within the arrays exactly when the line fits. -/
theorem parseLineAt_isSome_iff (env : Environ) (h : Rest m 0 line) :
    (parseLineAt inBounds env m 0).isSome ↔
    (line.length + 1 < buflen ∨ ¬ ReachesEnd ⟨0, line⟩) ∧ line.head? ≠ some (chr '&') ∧
    ∀ seg ∈ commands ⟨0, line⟩,
      seg.bytes = [] ∨ ArgsFit env (commandText seg.before seg.bytes) := by
  have hin := h.inside
  by_cases hamp : line.head? = some (chr '&')
  · rw [parseLineAt_front h hamp]
    exact iff_of_false Bool.false_ne_true fun hfits => hfits.2.1 hamp
  · have hb : (splitLine ⟨0, line⟩ bar).1.head? = some (chr '&') →
        byteBefore inBounds m 0 = some 0 := fun hhead => absurd (head_splitLine.mp hhead) hamp
    rw [and_iff_right hamp, ← lineCommandsFit_inBounds, ← parseLine_isSome]
    by_cases hroom : line.length + 1 < buflen ∨ ¬ ReachesEnd ⟨0, line⟩
    · have hparse := @parseLineAt_eq inBounds m 0 ⟨0, line⟩ env h (by rwa [Nat.zero_add]) hb
      rw [and_iff_right hroom, ← hparse, Option.isSome_map]
    · obtain ⟨hlong, hreach⟩ := not_or.mp hroom
      rw [@parseLineAt_overrun inBounds m 0 ⟨0, line⟩ env h hb
        (by dsimp only at hin ⊢; omega) (not_not.mp hreach)]
      exact iff_of_false Bool.false_ne_true fun hfits => hroom hfits.1

theorem lineInBounds_iff (env : Environ) (hline : endLine ∉ line) :
    LineInBounds env line ↔ LineFits env line := by
  by_cases hlen : line.length < buflen
  · obtain ⟨m, hread, hrest⟩ := @rest_readLine line [] hline hlen
    have hiff := parseLineAt_isSome_iff env hrest
    constructor
    · rintro ⟨m', hread', hparse⟩
      rw [hread] at hread'
      cases hread'
      exact ⟨hlen, fun hruns => (hiff.mp (hparse hruns)).1,
        fun hruns => (hiff.mp (hparse hruns)).2.1, fun hruns => (hiff.mp (hparse hruns)).2.2⟩
    · intro hfits
      refine ⟨m, hread, fun hruns => hiff.mpr ?_⟩
      exact ⟨hfits.behind hruns, hfits.front hruns, hfits.args hruns⟩
  · refine iff_of_false ?_ fun hfits => hlen hfits.length
    rintro ⟨m, hread, -⟩
    rw [readLine_overflow hline (by omega)] at hread
    cases hread

/-- `ls | wc` -/
theorem lineInBounds_lsWc : LineInBounds bare lsWc.bytes ↔ LineFits bare lsWc.bytes :=
  lineInBounds_iff bare (by decide)

/-- The word `a`, twenty times. -/
def twentyWords : List Byte := chr 'a' :: (List.replicate 19 [space, chr 'a']).flatten

/-- A command of twenty words leaves no cell of `argv` for the null pointer. -/
theorem twentyWords_overflow : endLine ∉ twentyWords ∧ RunsCommand twentyWords ∧
    ¬ LineInBounds bare twentyWords := by
  have hline : endLine ∉ twentyWords := by decide
  have hruns : RunsCommand twentyWords := by decide
  have hcut : splitLine ⟨0, twentyWords⟩ bar = (twentyWords, ⟨0, []⟩) := by decide
  have hmany : ¬ ArgsFit bare (commandText 0 twentyWords) := by
    have htext : commandText 0 twentyWords = twentyWords := by decide
    rw [htext]
    rintro ⟨hargs, -⟩
    revert hargs
    decide +kernel
  have hseg : (⟨0, twentyWords⟩ : Ptr) ∈ commands ⟨0, twentyWords⟩ := by
    rw [commands]
    have hfirst : (splitLine ⟨0, twentyWords⟩ (chr '|')).1 = twentyWords := congrArg Prod.fst hcut
    rw [hfirst]
    exact List.mem_cons_self
  refine ⟨hline, hruns, ?_⟩
  rintro ⟨m, hread, hparse⟩
  obtain ⟨m', hread', hrest⟩ := @rest_readLine twentyWords [] hline (by decide)
  rw [hread'] at hread
  cases hread
  obtain ⟨-, -, hfits⟩ := (parseLineAt_isSome_iff bare hrest).mp (hparse hruns)
  rcases hfits _ hseg with hnil | hargs
  · cases hnil
  · exact hmany hargs

end Shell
end Sisop

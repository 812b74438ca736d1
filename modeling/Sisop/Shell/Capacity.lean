import Sisop.Shell.Tokens

/-!
# What the arrays hold

The arrays of a command fill up with its tokens.  `parse_exec` stays within them
exactly when there are cells for all the arguments and the null pointer behind
them, for all the assignments, and for the status when a token asks for it.  A
line stays within them when each of its segments does.
-/

namespace Sisop
namespace Shell

variable {arr : Arrays} {env : Environ} {c c' : ExecCmd} {buf s tok : List Byte}
  {toks pre mid post : List (List Byte)} {before : Byte}

/-! ## One token -/

/-- A turn of the loop stays within the arrays when there is a cell for what it
adds. -/
theorem addToken_isSome : (c.addToken arr env tok).isSome ↔
    (IsArgument env tok → arr.HasCell c.argv.length) ∧
    (IsAssignment tok → arr.HasCell c.eargv.length) ∧
    (AsksStatus tok → arr.HoldsStatus (decimal env)) := by
  by_cases hredir : IsRedirection tok
  · obtain ⟨c₁, -, hadd⟩ := @addToken_redirection arr env c tok hredir
    rw [hadd]
    refine iff_of_true rfl ⟨fun h => ?_, fun h => ?_, fun h => ?_⟩ <;> exact absurd hredir h.1
  · by_cases hassign : IsAssignment tok
    · rw [addToken_assignment hassign]
      by_cases hcell : arr.HasCell c.eargv.length
      · rw [if_pos hcell]
        refine iff_of_true rfl ⟨fun h => ?_, fun _ => hcell, fun h => ?_⟩ <;>
          exact absurd hassign h.2.1
      · rw [if_neg hcell]
        exact iff_of_false Bool.false_ne_true fun h => hcell (h.2.1 hassign)
    · rw [addToken_word hredir hassign, expandEnvironVar_eq]
      by_cases hstatus : [chr '$', chr '?'] <+: tok → arr.HoldsStatus (decimal env)
      · rw [if_pos hstatus, Option.bind_some]
        have hasks : AsksStatus tok → arr.HoldsStatus (decimal env) := fun h => hstatus h.2.2
        by_cases hnil : meaning env tok = []
        · rw [if_neg (not_not.mpr hnil)]
          exact iff_of_true rfl ⟨fun h => absurd hnil h.2.2, fun h => absurd h hassign, hasks⟩
        · rw [if_pos hnil]
          have hargument : IsArgument env tok := ⟨hredir, hassign, hnil⟩
          by_cases hcell : arr.HasCell c.argv.length
          · rw [if_pos hcell]
            exact iff_of_true rfl ⟨fun _ => hcell, fun h => absurd h hassign, hasks⟩
          · rw [if_neg hcell]
            exact iff_of_false Bool.false_ne_true fun h => hcell (h.1 hargument)
      · rw [if_neg hstatus]
        refine iff_of_false Bool.false_ne_true fun h => hstatus fun hprefix => ?_
        exact h.2.2 ⟨hredir, hassign, hprefix⟩

/-- A turn of the loop adds an argument or an assignment for what the token is. -/
theorem addToken_lengths (h : c.addToken arr env tok = some c') :
    c'.argv.length = c.argv.length + (if IsArgument env tok then 1 else 0) ∧
    c'.eargv.length = c.eargv.length + if IsAssignment tok then 1 else 0 := by
  obtain ⟨his, hflow⟩ | ⟨his, -, rfl⟩ | ⟨hredir, hassign, w, hw, hadded⟩ := addToken_cases h
  · obtain ⟨hargv, heargv⟩ := parseRedirFlow_args hflow
    have hargument : ¬ IsArgument env tok := fun hnot => hnot.1 his
    have hassign : ¬ IsAssignment tok := fun hnot => hnot.1 his
    rw [if_neg hargument, if_neg hassign, hargv, heargv]
    exact ⟨rfl, rfl⟩
  · have hargument : ¬ IsArgument env tok := fun hnot => hnot.2.1 his
    rw [if_neg hargument, if_pos his]
    dsimp only
    rw [List.length_append]
    exact ⟨rfl, rfl⟩
  · rw [meaning_of_expanded hw] at hadded
    rw [if_neg hassign]
    obtain ⟨hne, -, rfl⟩ | ⟨hnil, rfl⟩ := hadded
    · have hargument : IsArgument env tok := ⟨hredir, hassign, hne⟩
      rw [if_pos hargument]
      dsimp only
      rw [List.length_append]
      exact ⟨rfl, rfl⟩
    · have hargument : ¬ IsArgument env tok := fun hnot => hnot.2.2 hnil
      rw [if_neg hargument]
      exact ⟨rfl, rfl⟩

/-! ## All the tokens -/

/-- There are cells for the tokens behind what the command has. -/
structure TokensFit (arr : Arrays) (env : Environ) (c : ExecCmd) (toks : List (List Byte)) :
    Prop where
  args : ∀ k ∈ arr.args, c.argv.length + toks.countP (IsArgument env ·) ≤ k ∧
    c.eargv.length + toks.countP (IsAssignment ·) ≤ k
  status : ∀ tok ∈ toks, AsksStatus tok → arr.HoldsStatus (decimal env)

/-- A token without a cell does not fit. -/
theorem not_tokensFit (h : c.addToken arr env tok = none) :
    ¬ TokensFit arr env c (tok :: toks) := by
  intro hfit
  refine Option.not_isSome_iff_eq_none.mpr h (addToken_isSome.mpr ⟨?_, ?_, ?_⟩)
  · intro hargument k hk
    have hcells := (hfit.args k hk).1
    rw [List.countP_cons_of_pos (by simpa using hargument)] at hcells
    omega
  · intro hassign k hk
    have hcells := (hfit.args k hk).2
    rw [List.countP_cons_of_pos (by simpa using hassign)] at hcells
    omega
  · exact hfit.status tok List.mem_cons_self

theorem tokensFit_cons (h : c.addToken arr env tok = some c') :
    TokensFit arr env c (tok :: toks) ↔ TokensFit arr env c' toks := by
  obtain ⟨hargv, heargv⟩ := addToken_lengths h
  have hstatus := (addToken_isSome.mp (Option.isSome_of_eq_some h)).2.2
  have hcounts : c.argv.length + (tok :: toks).countP (IsArgument env ·) =
      c'.argv.length + toks.countP (IsArgument env ·) ∧
      c.eargv.length + (tok :: toks).countP (IsAssignment ·) =
      c'.eargv.length + toks.countP (IsAssignment ·) := by
    rw [hargv, heargv, List.countP_cons, List.countP_cons]
    simp only [decide_eq_true_eq]
    omega
  constructor
  · rintro ⟨hargs, hall⟩
    rw [hcounts.1, hcounts.2] at hargs
    exact ⟨hargs, fun t ht => hall t (List.mem_cons_of_mem _ ht)⟩
  · rintro ⟨hargs, hall⟩
    refine ⟨by rwa [hcounts.1, hcounts.2], fun t ht => ?_⟩
    rcases List.mem_cons.mp ht with rfl | ht
    · exact hstatus
    · exact hall t ht

/-- What has been stored had its cells. -/
theorem tokensFit_nil (h : c.addToken arr env tok = some c') (hc : TokensFit arr env c []) :
    TokensFit arr env c' [] := by
  obtain ⟨hargument, hassign, -⟩ := addToken_isSome.mp (Option.isSome_of_eq_some h)
  obtain ⟨hargv, heargv⟩ := addToken_lengths h
  refine ⟨fun k hk => ?_, fun t ht => absurd ht List.not_mem_nil⟩
  have hcells := hc.args k hk
  rw [List.countP_nil, Nat.add_zero, List.countP_nil, Nat.add_zero] at hcells ⊢
  rw [hargv, heargv]
  constructor
  · split
    · exact hargument ‹_› k hk
    · exact hcells.1
  · split
    · exact hassign ‹_› k hk
    · exact hcells.2

/-- The loop stays within the arrays exactly when the tokens fit. -/
theorem foldlM_isSome (hc : TokensFit arr env c []) :
    (toks.foldlM (ExecCmd.addToken arr env) c).isSome ↔ TokensFit arr env c toks := by
  induction toks generalizing c with
  | nil => exact iff_of_true rfl hc
  | cons tok toks ih =>
    rw [List.foldlM_cons]
    cases hadd : c.addToken arr env tok with
    | none => exact iff_of_false Bool.false_ne_true (not_tokensFit hadd)
    | some c₁ =>
      rw [tokensFit_cons hadd]
      exact ih (tokensFit_nil hadd hc)

/-! ## A command -/

/-- `argv` has a cell for each argument and the null pointer, `eargv` has one for each
assignment, and `status_str` holds the status when a token asks for it. -/
def CommandFits (arr : Arrays) (env : Environ) (s : List Byte) : Prop :=
  (∀ k ∈ arr.args, (tokens s).countP (IsArgument env ·) < k ∧
    (tokens s).countP (IsAssignment ·) ≤ k) ∧
  ∀ tok ∈ tokens s, AsksStatus tok → arr.HoldsStatus (decimal env)

instance : Decidable (CommandFits arr env s) := inferInstanceAs (Decidable (_ ∧ _))

theorem tokensFit_execCmdCreate : TokensFit arr env (execCmdCreate s) [] :=
  ⟨fun k _ => ⟨Nat.zero_le k, Nat.zero_le k⟩, fun _ h => absurd h List.not_mem_nil⟩

theorem parsedTokens_isSome : (parsedTokens arr env buf toks).isSome ↔
    TokensFit arr env (execCmdCreate buf) toks :=
  foldlM_isSome tokensFit_execCmdCreate

theorem foldlM_lengths (h : toks.foldlM (ExecCmd.addToken arr env) c = some c') :
    c'.argv.length = c.argv.length + toks.countP (IsArgument env ·) ∧
    c'.eargv.length = c.eargv.length + toks.countP (IsAssignment ·) := by
  induction toks generalizing c with
  | nil =>
    cases h
    exact ⟨rfl, rfl⟩
  | cons tok toks ih =>
    rw [List.foldlM_cons, Option.bind_eq_bind, Option.bind_eq_some_iff] at h
    obtain ⟨c₁, hone, hrest⟩ := h
    obtain ⟨hargv, heargv⟩ := ih hrest
    obtain ⟨hargv₁, heargv₁⟩ := addToken_lengths hone
    rw [hargv, heargv, hargv₁, heargv₁, List.countP_cons, List.countP_cons]
    simp only [decide_eq_true_eq]
    omega

/-- The arguments and the assignments that have been parsed. -/
theorem parsedTokens_lengths (h : parsedTokens arr env buf toks = some c) :
    c.argv.length = toks.countP (IsArgument env ·) ∧
    c.eargv.length = toks.countP (IsAssignment ·) := by
  have hlengths := foldlM_lengths h
  have hstart : (execCmdCreate buf).argv.length = 0 ∧ (execCmdCreate buf).eargv.length = 0 :=
    ⟨rfl, rfl⟩
  rwa [hstart.1, hstart.2, Nat.zero_add, Nat.zero_add] at hlengths

/-- The command that `parse_exec` gives is the one it has behind its last token. -/
theorem parseExec_eq_some {tree : Cmd} : parseExec arr env buf = some tree ↔
    ∃ c, parsedTokens arr env buf (tokens buf) = some c ∧ arr.HasCell c.argv.length ∧
      tree = .exec c := by
  rw [parseExec_eq, Option.bind_eq_some_iff]
  refine exists_congr fun c => and_congr_right fun _ => ?_
  constructor
  · intro h
    split at h
    · exact ⟨‹_›, (Option.some.inj h).symm⟩
    · cases h
  · rintro ⟨hcell, rfl⟩
    exact if_pos hcell

/-- `parse_exec` stays within the arrays exactly when the command fits. -/
theorem parseExec_isSome : (parseExec arr env buf).isSome ↔ CommandFits arr env buf := by
  have htokens : (parsedTokens arr env buf (tokens buf)).isSome ↔ _ := parsedTokens_isSome
  constructor
  · intro h
    obtain ⟨tree, htree⟩ := Option.isSome_iff_exists.mp h
    obtain ⟨c, hc, hcell, -⟩ := parseExec_eq_some.mp htree
    have hfit := htokens.mp (Option.isSome_of_eq_some hc)
    obtain ⟨hargv, -⟩ := parsedTokens_lengths hc
    rw [hargv] at hcell
    refine ⟨fun k hk => ⟨hcell k hk, ?_⟩, hfit.status⟩
    have heargv := (hfit.args k hk).2
    rwa [execCmdCreate, List.length_nil, Nat.zero_add] at heargv
  · rintro ⟨hargs, hstatus⟩
    have hfit : TokensFit arr env (execCmdCreate buf) (tokens buf) := by
      refine ⟨fun k hk => ?_, hstatus⟩
      rw [execCmdCreate, List.length_nil, Nat.zero_add, Nat.zero_add]
      exact ⟨Nat.le_of_lt (hargs k hk).1, (hargs k hk).2⟩
    obtain ⟨c, hc⟩ := Option.isSome_iff_exists.mp (htokens.mpr hfit)
    obtain ⟨hargv, -⟩ := parsedTokens_lengths hc
    refine Option.isSome_of_eq_some (parseExec_eq_some.mpr ⟨c, hc, fun k hk => ?_, rfl⟩)
    rw [hargv]
    exact (hargs k hk).1

theorem parseExec_of_fits (h : CommandFits arr env buf) :
    ∃ c, parsedTokens arr env buf (tokens buf) = some c ∧
      parseExec arr env buf = some (.exec c) := by
  obtain ⟨tree, htree⟩ := Option.isSome_iff_exists.mp (parseExec_isSome.mpr h)
  obtain ⟨c, hc, -, rfl⟩ := parseExec_eq_some.mp htree
  exact ⟨c, hc, htree⟩

/-- `parse_exec` goes through the tokens `mid` behind `pre`, and `R` relates the command
before them to the one behind them. -/
def GoesThrough (arr : Arrays) (env : Environ) (buf : List Byte) (pre mid : List (List Byte))
    (R : ExecCmd → ExecCmd → Prop) : Prop :=
  ∃ c c', parsedTokens arr env buf pre = some c ∧
    parsedTokens arr env buf (pre ++ mid) = some c' ∧ R c c'

theorem goesThrough (h : CommandFits arr env buf) (hsplit : tokens buf = pre ++ mid ++ post)
    {R : ExecCmd → ExecCmd → Prop}
    (hR : ∀ c c', mid.foldlM (ExecCmd.addToken arr env) c = some c' → R c c') :
    GoesThrough arr env buf pre mid R := by
  obtain ⟨c₂, hall, -⟩ := parseExec_of_fits h
  rw [hsplit, parsedTokens_append, Option.bind_eq_some_iff] at hall
  obtain ⟨c', hc', -⟩ := hall
  have hmid := hc'
  rw [parsedTokens_append, Option.bind_eq_some_iff] at hmid
  obtain ⟨c, hc, hrun⟩ := hmid
  exact ⟨c, c', hc, hc', hR c c' hrun⟩

/-! ## A line -/

/-- The string that `parse_cmd` hands to `parse_exec`. -/
def commandText (before : Byte) (s : List Byte) : List Byte :=
  match blockContains s (chr '&') with
  | some idx =>
    if (before :: s)[idx]? ≠ some (chr '>') then s.takeWhile (· ≠ chr '&') else s
  | none => s

/-- The command of a segment fits in its arrays. -/
def SegmentFits (arr : Arrays) (env : Environ) (before : Byte) (s : List Byte) : Prop :=
  s = [] ∨ CommandFits arr env (commandText before s)

instance : Decidable (SegmentFits arr env before s) := inferInstanceAs (Decidable (_ ∨ _))

/-- `parse_cmd` gives what `parse_exec` makes of its string, alone or below a `BACK`. -/
theorem parseCmd_eq (before : Byte) (hne : s ≠ []) : ∃ wrap : Cmd → Option Cmd,
    parseCmd arr env before s = (parseExec arr env (commandText before s)).bind wrap ∧
    ∀ c : ExecCmd, wrap (.exec c) = some (.exec c) ∨
      wrap (.exec c) = some (.back c.scmd (.exec c)) := by
  rw [parseCmd, if_neg hne]
  unfold commandText
  cases blockContains s (chr '&') with
  | none => exact ⟨some, (Option.bind_fun_some _).symm, fun c => .inl rfl⟩
  | some idx =>
    dsimp only
    split
    · exact ⟨backCmdCreate, rfl, fun c => .inr rfl⟩
    · exact ⟨some, (Option.bind_fun_some _).symm, fun c => .inl rfl⟩

theorem parseCmd_cases {tree : Cmd} (hne : s ≠ []) (h : parseCmd arr env before s = some tree) :
    ∃ c : ExecCmd, parseExec arr env (commandText before s) = some (.exec c) ∧
      (tree = .exec c ∨ tree = .back c.scmd (.exec c)) := by
  obtain ⟨wrap, heq, hwrap⟩ := @parseCmd_eq arr env s before hne
  rw [heq, Option.bind_eq_some_iff] at h
  obtain ⟨e, he, htree⟩ := h
  obtain ⟨c, -, -, rfl⟩ := parseExec_eq_some.mp he
  refine ⟨c, he, ?_⟩
  rcases hwrap c with hexec | hback
  · rw [hexec] at htree
    exact .inl (Option.some.inj htree).symm
  · rw [hback] at htree
    exact .inr (Option.some.inj htree).symm

theorem parseCmd_isSome : (parseCmd arr env before s).isSome ↔ SegmentFits arr env before s := by
  by_cases hne : s = []
  · rw [parseCmd, if_pos hne]
    exact iff_of_true rfl (.inl hne)
  · obtain ⟨wrap, heq, hwrap⟩ := @parseCmd_eq arr env s before hne
    rw [heq, SegmentFits, or_iff_right hne, ← parseExec_isSome]
    cases hexec : parseExec arr env (commandText before s) with
    | none => exact Iff.rfl
    | some e =>
      obtain ⟨c, -, -, rfl⟩ := parseExec_eq_some.mp hexec
      refine iff_of_true ?_ rfl
      rcases hwrap c with h | h <;> exact Option.isSome_of_eq_some h

/-- The segments of a line that `parse_line` parses, each with the byte in front
of it. -/
def commands (buf : Ptr) : List Ptr :=
  ⟨buf.before, (splitLine buf (chr '|')).1⟩ ::
    if _h : (splitLine buf (chr '|')).2.more then commands (splitLine buf (chr '|')).2 else []
termination_by buf.bytes.length
decreasing_by exact length_splitLine _h

/-- Each command of the line fits in its arrays. -/
def LineCommandsFit (arr : Arrays) (env : Environ) (buf : Ptr) : Prop :=
  ∀ seg ∈ commands buf, SegmentFits arr env seg.before seg.bytes

/-- `parse_line` stays within the arrays exactly when each command fits. -/
theorem parseLine_isSome (buf : Ptr) :
    (parseLine arr env buf).isSome ↔ LineCommandsFit arr env buf := by
  induction buf using commands.induct with
  | case1 buf ih =>
    unfold LineCommandsFit
    rw [commands, parseLine, List.forall_mem_cons, ← parseCmd_isSome]
    cases hl : parseCmd arr env buf.before (splitLine buf (chr '|')).1 with
    | none => exact iff_of_false Bool.false_ne_true fun h => Bool.false_ne_true h.1
    | some l =>
      rw [Option.bind_eq_bind, Option.bind_some, Option.isSome_some]
      by_cases hmore : (splitLine buf (chr '|')).2.more
      · rw [dif_pos hmore, dif_pos hmore]
        have hrest := ih hmore
        unfold LineCommandsFit at hrest
        rw [← hrest, and_iff_right rfl]
        cases parseLine arr env (splitLine buf (chr '|')).2 <;> exact Iff.rfl
      · rw [dif_neg hmore, dif_neg hmore]
        exact iff_of_true rfl ⟨rfl, fun _ h => absurd h List.not_mem_nil⟩

end Shell
end Sisop

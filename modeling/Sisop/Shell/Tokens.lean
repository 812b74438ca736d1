import Mathlib.Data.List.TakeWhile
import Sisop.Shell.Parsing

/-!
# What becomes of a token

`parse_exec` goes through the tokens of a command string from left to right and
adds each to the command.  Here the tokens are those of a split at the spaces, and
what may become of one is a relation of its own: an argument, an assignment, or
the file of the redirection it begins with.
-/

namespace Sisop
namespace Shell

variable {arr : Arrays} {env : Environ} {c c' : ExecCmd} {buf tok file : List Byte}
  {toks pre mid post : List (List Byte)}

/-! ## The tokens of a string -/

/-- The tokens between the spaces. -/
def tokens (buf : List Byte) : List (List Byte) :=
  (buf.splitOn space).filter (· ≠ [])

theorem blockContains_eq_none {b : Byte} : blockContains buf b = none ↔ b ∉ buf := by
  unfold blockContains
  rw [List.findIdx?_eq_none_iff]
  simp only [decide_eq_false_iff_not]
  constructor
  · intro h hmem
    exact h b hmem rfl
  · intro h x hx heq
    rw [heq] at hx
    exact h hx

/-- The first byte of a string is the one searched for. -/
theorem blockContains_cons_self {b : Byte} : blockContains (b :: buf) b = some 0 := by
  unfold blockContains
  rw [List.findIdx?_cons, if_pos (decide_eq_true rfl)]

/-- What stands in front of the first byte that is searched for. -/
theorem takeWhile_eq_take {b : Byte} {idx : Nat} (h : blockContains buf b = some idx) :
    buf.takeWhile (· ≠ b) = buf.take idx ∧ idx < buf.length := by
  unfold blockContains at h
  induction buf generalizing idx with
  | nil => cases h
  | cons a buf ih =>
    rw [List.findIdx?_cons] at h
    by_cases hab : a = b
    · rw [if_pos (decide_eq_true hab)] at h
      cases h
      rw [List.takeWhile_cons_of_neg (by simpa using hab)]
      exact ⟨rfl, Nat.succ_pos _⟩
    · rw [if_neg (by simpa using hab)] at h
      cases hrest : buf.findIdx? (· = b) with
      | none =>
        rw [hrest] at h
        cases h
      | some j =>
        rw [hrest] at h
        cases h
        obtain ⟨htake, hlt⟩ := ih hrest
        rw [List.takeWhile_cons_of_pos (by simpa using hab), htake]
        exact ⟨rfl, Nat.succ_lt_succ hlt⟩

/-- An empty token leaves no trace. -/
theorem addToken_nil (c : ExecCmd) : c.addToken arr env [] = some c := by
  simp [ExecCmd.addToken, parseRedirFlow, parseEnvironVar, blockContains, expandEnvironVar]

theorem tokens_append (word rest : List Byte) :
    tokens (word ++ space :: rest) = tokens word ++ tokens rest := by
  unfold tokens
  rw [List.splitOn_eq_splitOnP, List.splitOn_eq_splitOnP, List.splitOn_eq_splitOnP,
    List.splitOnP_append_cons (p := (· == space)) word rest (beq_self_eq_true space),
    List.filter_append]

theorem tokens_word (h : space ∉ buf) : tokens buf = [buf].filter (· ≠ []) := by
  have hword : ∀ b ∈ buf, (b == space) = false := by
    intro b hb
    rw [beq_eq_false_iff_ne]
    intro heq
    rw [heq] at hb
    exact h hb
  unfold tokens
  rw [List.splitOn_eq_splitOnP, List.splitOnP_eq_singleton hword]

theorem foldlM_word {σ : Type} {step : σ → List Byte → Option σ} {st : σ}
    (hnil : ∀ st, step st [] = some st) (h : space ∉ tok) :
    (tokens tok).foldlM step st = step st tok := by
  rw [tokens_word h]
  by_cases hs : tok = []
  · rw [hs, hnil]
    rfl
  · rw [List.filter_cons_of_pos (by simpa using hs), List.filter_nil, List.foldlM_cons]
    exact bind_pure _

theorem space_notMem_getToken : space ∉ getToken buf := by
  intro hmem
  have hall : ∀ b ∈ getToken buf, b ≠ space := by
    intro b hb
    have hkept := List.mem_takeWhile_imp hb
    simpa using hkept
  exact hall space hmem rfl

/-- A string is its first token and, after a space, the rest. -/
theorem getToken_cases (buf : List Byte) :
    buf = getToken buf ∨
    buf = getToken buf ++ space :: buf.drop ((getToken buf).length + 1) := by
  have happend : getToken buf ++ buf.dropWhile (· ≠ space) = buf := List.takeWhile_append_dropWhile
  cases hrest : buf.dropWhile (· ≠ space) with
  | nil =>
    rw [hrest, List.append_nil] at happend
    exact .inl happend.symm
  | cons b rest =>
    have hb : b = space := by
      have hhead := List.head?_dropWhile_not (fun b : Byte => decide (b ≠ space)) buf
      rw [hrest] at hhead
      simpa using hhead
    rw [hrest, hb] at happend
    refine .inr ?_
    have hrest' : getToken buf ++ space :: rest = buf := happend
    have hdrop : buf.drop ((getToken buf).length + 1) = rest := by
      have hlen := congrArg (List.drop ((getToken buf).length + 1)) hrest'
      rw [← hlen, List.drop_append, List.drop_eq_nil_of_le (Nat.le_succ _), List.nil_append,
        Nat.add_sub_cancel_left]
      rfl
    rw [hdrop]
    exact hrest'.symm

/-- A token is a part of the string. -/
theorem infix_of_mem_tokens {s : List Byte} (h : tok ∈ tokens s) : tok <:+: s := by
  have hword : ∀ word, space ∉ word → tok ∈ tokens word → tok = word := by
    intro word hspace hmem
    rw [tokens_word hspace] at hmem
    exact List.mem_singleton.mp (List.mem_filter.mp hmem).1
  induction hn : s.length using Nat.strong_induction_on generalizing s with
  | _ n ih =>
    have hspace : space ∉ getToken s := space_notMem_getToken
    have hprefix : getToken s <+: s := List.takeWhile_prefix _
    rcases getToken_cases s with hlast | hmore
    · rw [← hlast] at hspace
      exact hword s hspace h ▸ List.infix_rfl
    · have hlen := congrArg List.length hmore
      rw [List.length_append, List.length_cons] at hlen
      rw [hmore, tokens_append] at h
      rcases List.mem_append.mp h with hfirst | hrest
      · rw [hword _ hspace hfirst]
        exact hprefix.isInfix
      · exact (ih _ (by omega) hrest rfl).trans (List.drop_suffix _ s).isInfix

/-- The loop of `parse_exec` adds the tokens one after the other. -/
theorem addTokens_eq (c : ExecCmd) (buf : List Byte) :
    addTokens arr env c buf = (tokens buf).foldlM (ExecCmd.addToken arr env) c := by
  induction hn : buf.length using Nat.strong_induction_on generalizing buf c with
  | _ n ih =>
    cases buf with
    | nil =>
      rw [addTokens]
      rfl
    | cons b rest =>
      rw [List.length_cons] at hn
      have hspace : space ∉ getToken (b :: rest) := space_notMem_getToken
      rw [addTokens]
      rcases getToken_cases (b :: rest) with hlast | hmore
      · have hdrop : (b :: rest).drop ((getToken (b :: rest)).length + 1) = [] := by
          rw [← hlast]
          exact List.drop_eq_nil_of_le (Nat.le_succ _)
        have hend : ∀ c', addTokens arr env c' [] = some c' := fun c' => by rw [addTokens]
        rw [hdrop, ← hlast]
        rw [← hlast] at hspace
        simp only [hend]
        rw [foldlM_word addToken_nil hspace]
        exact bind_pure _
      · have htokens : tokens (b :: rest) = tokens (getToken (b :: rest)) ++
            tokens ((b :: rest).drop ((getToken (b :: rest)).length + 1)) := by
          rw [← tokens_append, ← hmore]
        rw [htokens, List.foldlM_append, foldlM_word addToken_nil hspace]
        refine congrArg _ (funext fun c' => ih _ ?_ c' _ rfl)
        rw [List.length_drop, List.length_cons]
        omega

/-- The command `parse_exec` has when it has gone through `toks`. -/
def parsedTokens (arr : Arrays) (env : Environ) (buf : List Byte) (toks : List (List Byte)) :
    Option ExecCmd :=
  toks.foldlM (ExecCmd.addToken arr env) (execCmdCreate buf)

theorem parseExec_eq : parseExec arr env buf =
    (parsedTokens arr env buf (tokens buf)).bind fun c =>
      if arr.HasCell c.argv.length then some (.exec c) else none := by
  rw [parseExec, addTokens_eq]
  rfl

theorem parsedTokens_append (pre post : List (List Byte)) :
    parsedTokens arr env buf (pre ++ post) =
      (parsedTokens arr env buf pre).bind (post.foldlM (ExecCmd.addToken arr env)) :=
  List.foldlM_append ..

/-! ## What a token is -/

def IsRedirection (tok : List Byte) : Prop :=
  chr '>' ∈ tok ∨ chr '<' ∈ tok

instance : Decidable (IsRedirection tok) := inferInstanceAs (Decidable (_ ∨ _))

/-- A token with a `=` behind its first byte and no `-`. -/
def IsAssignment (tok : List Byte) : Prop :=
  ¬ IsRedirection tok ∧ chr '=' ∈ tok ∧ tok.head? ≠ some (chr '=') ∧ chr '-' ∉ tok

instance : Decidable (IsAssignment tok) := inferInstanceAs (Decidable (_ ∧ _ ∧ _ ∧ _))

/-- What a token stands for: `$?…` for the status, `$NAME` for the value of the
variable, which is empty when it is not set, and any other token for itself. -/
def meaning (env : Environ) (tok : List Byte) : List Byte :=
  if [chr '$', chr '?'] <+: tok then decimal env
  else if [chr '$'] <+: tok then (env.getenv (tok.drop 1)).getD []
  else tok

def IsArgument (env : Environ) (tok : List Byte) : Prop :=
  ¬ IsRedirection tok ∧ ¬ IsAssignment tok ∧ meaning env tok ≠ []

instance : Decidable (IsArgument env tok) := inferInstanceAs (Decidable (_ ∧ _ ∧ _))

/-- The status is printed for the token. -/
def AsksStatus (tok : List Byte) : Prop :=
  ¬ IsRedirection tok ∧ ¬ IsAssignment tok ∧ [chr '$', chr '?'] <+: tok

instance : Decidable (AsksStatus tok) := inferInstanceAs (Decidable (_ ∧ _ ∧ _))

theorem parseRedirFlow_isSome : (parseRedirFlow c tok).isSome ↔ IsRedirection tok := by
  unfold IsRedirection
  by_cases hout : chr '>' ∈ tok
  · refine iff_of_true ?_ (.inl hout)
    unfold parseRedirFlow
    split
    · rfl
    · rfl
    · rfl
    · rename_i hnone
      exact absurd hout (blockContains_eq_none.mp hnone)
  · rw [parseRedirFlow, blockContains_eq_none.mpr hout]
    by_cases hin : chr '<' ∈ tok
    · refine iff_of_true ?_ (.inr hin)
      dsimp only
      split
      · rfl
      · rename_i hnone
        exact absurd hin (blockContains_eq_none.mp hnone)
    · dsimp only
      rw [blockContains_eq_none.mpr hin]
      exact iff_of_false Bool.false_ne_true (not_or.mpr ⟨hout, hin⟩)

theorem blockContains_eq_zero {b : Byte} : blockContains tok b = some 0 ↔ tok.head? = some b := by
  cases tok with
  | nil =>
    exact ⟨fun h => (nomatch h), fun h => (nomatch h)⟩
  | cons a tok =>
    unfold blockContains
    rw [List.findIdx?_cons, List.head?_cons]
    by_cases ha : a = b
    · rw [if_pos (decide_eq_true ha), ha]
      exact iff_of_true rfl rfl
    · rw [if_neg (by simpa using ha)]
      refine iff_of_false (fun h => ?_) fun h => ha (Option.some.inj h)
      cases hrest : tok.findIdx? (· = b) <;> rw [hrest] at h <;> cases h

theorem parseEnvironVar_isSome (hredir : ¬ IsRedirection tok) :
    (parseEnvironVar c tok).isSome ↔ IsAssignment tok := by
  unfold parseEnvironVar IsAssignment
  cases hat : blockContains tok (chr '=') with
  | none =>
    have hnot := blockContains_eq_none.mp hat
    exact iff_of_false Bool.false_ne_true fun h => hnot h.2.1
  | some idx =>
    have hmem : chr '=' ∈ tok := by
      by_contra hnot
      rw [blockContains_eq_none.mpr hnot] at hat
      cases hat
    cases idx with
    | zero =>
      have hfirst := blockContains_eq_zero.mp hat
      exact iff_of_false Bool.false_ne_true fun h => h.2.2.1 hfirst
    | succ idx =>
      have hfirst : tok.head? ≠ some (chr '=') := by
        intro hhead
        rw [blockContains_eq_zero.mpr hhead] at hat
        cases hat
      dsimp only
      by_cases hdash : chr '-' ∈ tok
      · rw [if_neg fun hnone => absurd hdash (blockContains_eq_none.mp hnone)]
        exact iff_of_false Bool.false_ne_true fun h => h.2.2.2 hdash
      · rw [if_pos (blockContains_eq_none.mpr hdash)]
        exact iff_of_true rfl ⟨hredir, hmem, hfirst, hdash⟩

theorem beginsWithDollar_iff {b : Byte} {name : List Byte} :
    [chr '$'] <+: b :: name ↔ b = chr '$' := by
  rw [List.cons_prefix_cons]
  exact ⟨fun h => h.1.symm, fun h => ⟨h.symm, List.nil_prefix⟩⟩

theorem beginsWithStatus_iff {b : Byte} {name : List Byte} :
    [chr '$', chr '?'] <+: b :: name ↔ b = chr '$' ∧ name.head? = some (chr '?') := by
  rw [List.cons_prefix_cons]
  cases name with
  | nil => exact iff_of_false (fun h => List.cons_ne_nil _ _ (List.prefix_nil.mp h.2)) nofun
  | cons q name =>
    rw [List.cons_prefix_cons, List.head?_cons]
    constructor
    · rintro ⟨rfl, rfl, -⟩
      exact ⟨rfl, rfl⟩
    · rintro ⟨rfl, h⟩
      exact ⟨rfl, (Option.some.inj h).symm, List.nil_prefix⟩

/-- A token is expanded to what it means, unless the status does not fit. -/
theorem expandEnvironVar_eq (arr : Arrays) (env : Environ) (tok : List Byte) :
    expandEnvironVar arr env tok =
      if [chr '$', chr '?'] <+: tok → arr.HoldsStatus (decimal env) then some (meaning env tok)
      else none := by
  cases tok with
  | nil =>
    have hno : ¬ [chr '$', chr '?'] <+: ([] : List Byte) := by decide
    have hnil : meaning env [] = [] := by
      unfold meaning
      rw [if_neg hno, if_neg (by decide)]
    rw [if_pos fun h => absurd h hno, hnil]
    rfl
  | cons b name =>
    unfold expandEnvironVar meaning
    dsimp only
    by_cases hb : b = chr '$'
    · rw [if_neg (not_not.mpr hb)]
      by_cases hq : name.head? = some (chr '?')
      · have hprefix : [chr '$', chr '?'] <+: b :: name := beginsWithStatus_iff.mpr ⟨hb, hq⟩
        rw [if_pos hq, if_pos hprefix]
        by_cases hfits : arr.HoldsStatus (decimal env)
        · rw [if_pos hfits, if_pos fun _ => hfits]
        · rw [if_neg hfits, if_neg fun h => hfits (h hprefix)]
      · have hprefix : ¬ [chr '$', chr '?'] <+: b :: name :=
          fun h => hq (beginsWithStatus_iff.mp h).2
        rw [if_neg hq, if_pos fun h => absurd h hprefix, if_neg hprefix,
          if_pos (beginsWithDollar_iff.mpr hb)]
        rfl
    · have hprefix : ¬ [chr '$', chr '?'] <+: b :: name := fun h => hb (beginsWithStatus_iff.mp h).1
      rw [if_pos hb, if_pos fun h => absurd h hprefix, if_neg hprefix,
        if_neg fun h => hb (beginsWithDollar_iff.mp h)]

/-- When the token is expanded at all, it is expanded to what it means. -/
theorem meaning_of_expanded {w : List Byte} (h : expandEnvironVar arr env tok = some w) :
    w = meaning env tok := by
  rw [expandEnvironVar_eq] at h
  split at h
  · exact (Option.some.inj h).symm
  · cases h

/-! ## What one turn of the loop does -/

/-- A token without operators is no redirection. -/
theorem parseRedirFlow_none (h : ¬ IsRedirection tok) : parseRedirFlow c tok = none := by
  rw [← Option.not_isSome_iff_eq_none, parseRedirFlow_isSome]
  exact h

/-- What `parse_redir_flow` takes is neither an argument nor an assignment. -/
theorem parseRedirFlow_args (h : parseRedirFlow c tok = some c') :
    c'.argv = c.argv ∧ c'.eargv = c.eargv := by
  obtain rfl | rfl | rfl | rfl := parseRedirFlow_cases h <;> exact ⟨rfl, rfl⟩

theorem addToken_redirection (h : IsRedirection tok) :
    ∃ c', parseRedirFlow c tok = some c' ∧ c.addToken arr env tok = some c' := by
  obtain ⟨c', hflow⟩ := Option.isSome_iff_exists.mp ((parseRedirFlow_isSome (c := c)).mpr h)
  refine ⟨c', hflow, ?_⟩
  rw [ExecCmd.addToken, hflow]

theorem parseEnvironVar_eq (h : parseEnvironVar c tok = some c') :
    c' = { c with eargv := c.eargv ++ [tok] } := by
  unfold parseEnvironVar at h
  split at h
  · split at h
    · exact (Option.some.inj h).symm
    · cases h
  · cases h

/-- An assignment takes the next cell of `eargv`. -/
theorem addToken_assignment (h : IsAssignment tok) : c.addToken arr env tok =
    if arr.HasCell c.eargv.length then some { c with eargv := c.eargv ++ [tok] } else none := by
  obtain ⟨c', henv⟩ := Option.isSome_iff_exists.mp ((parseEnvironVar_isSome (c := c) h.1).mpr h)
  rw [ExecCmd.addToken, parseRedirFlow_none h.1]
  dsimp only
  rw [henv, parseEnvironVar_eq henv]

/-- Any other token is expanded, and takes the next cell of `argv` when anything is
left of it. -/
theorem addToken_word (hredir : ¬ IsRedirection tok) (h : ¬ IsAssignment tok) :
    c.addToken arr env tok = (expandEnvironVar arr env tok).bind fun w =>
      if w ≠ [] then
        if arr.HasCell c.argv.length then some { c with argv := c.argv ++ [w] } else none
      else some c := by
  have henv : parseEnvironVar c tok = none := by
    rw [← Option.not_isSome_iff_eq_none, parseEnvironVar_isSome hredir]
    exact h
  rw [ExecCmd.addToken, parseRedirFlow_none hredir]
  dsimp only
  rw [henv]
  rfl

/-- What one turn makes of the command, by what the token is. -/
theorem addToken_cases (h : c.addToken arr env tok = some c') :
    IsRedirection tok ∧ parseRedirFlow c tok = some c' ∨
    IsAssignment tok ∧ arr.HasCell c.eargv.length ∧ c' = { c with eargv := c.eargv ++ [tok] } ∨
    ¬ IsRedirection tok ∧ ¬ IsAssignment tok ∧ ∃ w, expandEnvironVar arr env tok = some w ∧
      (w ≠ [] ∧ arr.HasCell c.argv.length ∧ c' = { c with argv := c.argv ++ [w] } ∨
        w = [] ∧ c' = c) := by
  by_cases hredir : IsRedirection tok
  · obtain ⟨c₁, hflow, hadd⟩ := @addToken_redirection arr env c tok hredir
    rw [hadd] at h
    exact .inl ⟨hredir, h ▸ hflow⟩
  · by_cases hassign : IsAssignment tok
    · rw [addToken_assignment hassign] at h
      split at h
      · exact .inr (.inl ⟨hassign, ‹_›, (Option.some.inj h).symm⟩)
      · cases h
    · rw [addToken_word hredir hassign, Option.bind_eq_some_iff] at h
      obtain ⟨w, hw, h⟩ := h
      refine .inr (.inr ⟨hredir, hassign, w, hw, ?_⟩)
      split at h
      · split at h
        · exact .inl ⟨‹_›, ‹_›, (Option.some.inj h).symm⟩
        · cases h
      · exact .inr ⟨not_not.mp ‹_›, (Option.some.inj h).symm⟩

/-- A turn of the loop only appends to the arguments and the assignments. -/
theorem addToken_prefix (h : c.addToken arr env tok = some c') :
    c.argv <+: c'.argv ∧ c.eargv <+: c'.eargv := by
  obtain ⟨-, hflow⟩ | ⟨-, -, rfl⟩ | ⟨-, -, w, -, ⟨-, -, rfl⟩ | ⟨-, rfl⟩⟩ := addToken_cases h
  · obtain ⟨hargv, heargv⟩ := parseRedirFlow_args hflow
    rw [hargv, heargv]
    exact ⟨List.prefix_rfl, List.prefix_rfl⟩
  · exact ⟨List.prefix_rfl, List.prefix_append _ _⟩
  · exact ⟨List.prefix_append _ _, List.prefix_rfl⟩
  · exact ⟨List.prefix_rfl, List.prefix_rfl⟩

theorem foldlM_prefix (h : toks.foldlM (ExecCmd.addToken arr env) c = some c') :
    c.argv <+: c'.argv ∧ c.eargv <+: c'.eargv := by
  induction toks generalizing c with
  | nil =>
    cases h
    exact ⟨List.prefix_rfl, List.prefix_rfl⟩
  | cons tok toks ih =>
    rw [List.foldlM_cons, Option.bind_eq_bind, Option.bind_eq_some_iff] at h
    obtain ⟨c₁, hone, hrest⟩ := h
    have hone' := addToken_prefix hone
    have hrest' := ih hrest
    exact ⟨hone'.1.trans hrest'.1, hone'.2.trans hrest'.2⟩

end Shell
end Sisop

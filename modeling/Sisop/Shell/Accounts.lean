import Sisop.Shell.Capacity

/-!
# What becomes of a token

`parse_exec` goes through the tokens of a command string from left to right and
adds each to the command.  What may become of a token is a relation of its own: an
argument, an assignment, or the file of the redirection it begins with.
-/

namespace Sisop
namespace Shell

variable {arr : Arrays} {env : Environ} {c c' : ExecCmd} {buf tok file : List Byte}

/-! ## What may become of a token -/

/-- `<file`, `>file` and `2>file`. -/
def BeginsWithOperator (tok : List Byte) : Prop :=
  [chr '<'] <+: tok ∨ [chr '>'] <+: tok ∨ [chr '2', chr '>'] <+: tok

/-- The token becomes an argument or an assignment, or its operator is taken off
and the rest is the file of the redirection. -/
inductive Accounted (arr : Arrays) (env : Environ) (c : ExecCmd) : List Byte → ExecCmd → Prop
  | argument {tok w : List Byte} (plain : ¬ BeginsWithOperator tok)
      (expanded : expandEnvironVar arr env tok = some w) :
      Accounted arr env c tok { c with argv := c.argv ++ [w] }
  | environ {tok : List Byte} (plain : ¬ BeginsWithOperator tok) :
      Accounted arr env c tok { c with eargv := c.eargv ++ [tok] }
  | input {file : List Byte} :
      Accounted arr env c (chr '<' :: file) { c with inFile := file, type := .redir }
  | output {file : List Byte} :
      Accounted arr env c (chr '>' :: file) { c with outFile := file, type := .redir }
  | error {file : List Byte} :
      Accounted arr env c (chr '2' :: chr '>' :: file) { c with errFile := file, type := .redir }

/-- A variable whose value is empty leaves no argument. -/
def LeavesNothing (arr : Arrays) (env : Environ) (c : ExecCmd) (tok : List Byte)
    (c' : ExecCmd) : Prop :=
  ¬ BeginsWithOperator tok ∧ expandEnvironVar arr env tok = some [] ∧ c' = c

/-- The operators of the token are one it begins with and what follows that one. -/
def LeadingOperator (tok : List Byte) : Prop :=
  [chr '>'] <+: tok ∨ [chr '2', chr '>'] <+: tok ∨
    chr '>' ∉ tok ∧ ([chr '<'] <+: tok ∨ chr '<' ∉ tok)

/-! ## What does become of it -/

theorem addToken_output : c.addToken arr env (chr '>' :: file) =
    some { c with outFile := file, type := .redir } := by
  rw [ExecCmd.addToken, parseRedirFlow, blockContains_cons_self]
  rfl

theorem addToken_error : c.addToken arr env (chr '2' :: chr '>' :: file) =
    some { c with errFile := file, type := .redir } := by
  have hat : blockContains (chr '2' :: chr '>' :: file) (chr '>') = some 1 := by
    unfold blockContains
    rw [List.findIdx?_cons, if_neg (by decide), List.findIdx?_cons, if_pos (by decide)]
    rfl
  rw [ExecCmd.addToken, parseRedirFlow, hat]
  rfl

theorem addToken_input (h : chr '>' ∉ file) : c.addToken arr env (chr '<' :: file) =
    some { c with inFile := file, type := .redir } := by
  have hnone : blockContains (chr '<' :: file) (chr '>') = none := by
    rw [blockContains_eq_none, List.mem_cons, not_or]
    exact ⟨by decide, h⟩
  rw [ExecCmd.addToken, parseRedirFlow, hnone]
  dsimp only
  rw [blockContains_cons_self]
  rfl

theorem not_beginsWithOperator (hout : chr '>' ∉ tok) (hin : chr '<' ∉ tok) :
    ¬ BeginsWithOperator tok := by
  rintro (hlt | hgt | htwo)
  · exact hin (hlt.subset (List.mem_singleton.mpr rfl))
  · exact hout (hgt.subset (List.mem_singleton.mpr rfl))
  · exact hout (htwo.subset (by simp))

/-- What one turn of the loop makes of a token. -/
theorem addToken_accounted (hlead : LeadingOperator tok) (h : c.addToken arr env tok = some c') :
    Accounted arr env c tok c' ∨ LeavesNothing arr env c tok c' := by
  rcases hlead with ⟨file, rfl⟩ | ⟨file, rfl⟩ | ⟨hout, ⟨file, rfl⟩ | hin⟩
  · have heq : c.addToken arr env ([chr '>'] ++ file) = _ := addToken_output
    rw [heq] at h
    cases h
    exact .inl .output
  · have heq : c.addToken arr env ([chr '2', chr '>'] ++ file) = _ := addToken_error
    rw [heq] at h
    cases h
    exact .inl .error
  · have hfile : chr '>' ∉ file := fun hmem => hout (List.mem_append_right _ hmem)
    have heq : c.addToken arr env ([chr '<'] ++ file) = _ := addToken_input hfile
    rw [heq] at h
    cases h
    exact .inl .input
  · have hplain := not_beginsWithOperator hout hin
    obtain ⟨hredir, -⟩ | ⟨-, -, rfl⟩ | ⟨-, -, w, hw, ⟨-, -, rfl⟩ | ⟨rfl, rfl⟩⟩ := addToken_cases h
    · exact absurd hredir (not_or.mpr ⟨hout, hin⟩)
    · exact .inl (.environ hplain)
    · exact .inl (.argument hplain hw)
    · exact .inr ⟨hplain, hw, rfl⟩

/-! ## Every token -/

/-- `parse_exec` goes through the tokens in their order, each is accounted for in
its turn, and what was appended stays. -/
structure TokensAccounted (arr : Arrays) (env : Environ) (buf : List Byte) : Prop where
  result : ∃ c, parsedTokens arr env buf (tokens buf) = some c ∧
    parseExec arr env buf = some (.exec c)
  each : ∀ pre tok post, tokens buf = pre ++ tok :: post → LeadingOperator tok →
    GoesThrough arr env buf pre [tok] fun c c' =>
      Accounted arr env c tok c' ∨ LeavesNothing arr env c tok c'
  stays : ∀ pre post, tokens buf = pre ++ post →
    GoesThrough arr env buf pre post fun c c' => c.argv <+: c'.argv ∧ c.eargv <+: c'.eargv

theorem goesThrough_token {pre post : List (List Byte)} (hfit : CommandFits arr env buf)
    (hsplit : tokens buf = pre ++ tok :: post) {R : ExecCmd → ExecCmd → Prop}
    (hR : ∀ c c', c.addToken arr env tok = some c' → R c c') :
    GoesThrough arr env buf pre [tok] R := by
  have hall : tokens buf = pre ++ [tok] ++ post := by
    rw [hsplit, List.append_assoc]
    rfl
  refine goesThrough hfit hall fun c c' h => ?_
  rw [List.foldlM_cons, Option.bind_eq_bind, Option.bind_eq_some_iff] at h
  obtain ⟨c₁, hone, hnil⟩ := h
  cases hnil
  exact hR c c' hone

theorem goesThrough_prefix {pre post : List (List Byte)} (hfit : CommandFits arr env buf)
    (hsplit : tokens buf = pre ++ post) :
    GoesThrough arr env buf pre post fun c c' => c.argv <+: c'.argv ∧ c.eargv <+: c'.eargv := by
  have hall : tokens buf = pre ++ post ++ [] := by rw [hsplit, List.append_nil]
  exact goesThrough hfit hall fun _ _ => foldlM_prefix

/-- A variable that is accounted for makes the command grow. -/
theorem Accounted.grows (h : Accounted arr env c tok c') (hdollar : tok.head? = some (chr '$')) :
    c.argv.length < c'.argv.length ∨ c.eargv.length < c'.eargv.length := by
  cases h with
  | argument plain expanded =>
    rw [List.length_append]
    exact .inl (Nat.lt_succ_self _)
  | environ plain =>
    rw [List.length_append]
    exact .inr (Nat.lt_succ_self _)
  | input => exact absurd (Option.some.inj hdollar) (by decide)
  | output => exact absurd (Option.some.inj hdollar) (by decide)
  | error => exact absurd (Option.some.inj hdollar) (by decide)

/-- `X=1 ls $X >f` -/
def assignLs : List Byte :=
  [chr 'X', chr '=', chr '1', space, chr 'l', chr 's', space, chr '$', chr 'X', space, chr '>',
    chr 'f']

/-- `ls $X`. -/
def lsVariable : List Byte := [chr 'l', chr 's', chr ' ', chr '$', chr 'X']

end Shell
end Sisop

import Sisop.Shell.Accounts

/-!
# Assignments

A token `KEY=VALUE` is an assignment to the environment or an argument.  Its key
decides, wherever in the command the token stands: what is in front of it does not
matter.
-/

namespace Sisop
namespace Shell

variable {arr : Arrays} {env : Environ} {c c' : ExecCmd} {buf tok key value : List Byte}

/-- `KEY=VALUE`. -/
def pairOf (key value : List Byte) : List Byte := key ++ chr '=' :: value

def IsKey (key : List Byte) : Prop := key ≠ [] ∧ chr '-' ∉ key

instance : Decidable (IsKey key) := inferInstanceAs (Decidable (_ ∧ _))

/-- What the token expands to is the last argument, if there is anything left of it. -/
def AddsArgument (arr : Arrays) (env : Environ) (tok : List Byte) (c c' : ExecCmd) : Prop :=
  ∃ w, expandEnvironVar arr env tok = some w ∧
    c' = if w ≠ [] then { c with argv := c.argv ++ [w] } else c

/-- The pair is the last assignment when its key is one, and an argument otherwise. -/
def AddsPair (arr : Arrays) (env : Environ) (key value : List Byte) (c c' : ExecCmd) : Prop :=
  if IsKey key then c' = { c with eargv := c.eargv ++ [pairOf key value] }
  else AddsArgument arr env (pairOf key value) c c'

/-- `parse_exec` goes through the tokens in their order.  A pair is an assignment
exactly when its key is one, and an argument otherwise.  The value has no say, as
long as there is no `-` in the value of a key.  Redirections become neither, other
tokens become arguments, and what was added stays. -/
structure PairsByKey (arr : Arrays) (env : Environ) (buf : List Byte) : Prop where
  result : ∃ c, parsedTokens arr env buf (tokens buf) = some c ∧
    parseExec arr env buf = some (.exec c)
  pair : ∀ pre key value post, tokens buf = pre ++ pairOf key value :: post → chr '=' ∉ key →
    ¬ IsRedirection (pairOf key value) → (IsKey key → chr '-' ∉ value) →
    GoesThrough arr env buf pre [pairOf key value] (AddsPair arr env key value)
  word : ∀ pre tok post, tokens buf = pre ++ tok :: post → chr '=' ∉ tok →
    ¬ IsRedirection tok → GoesThrough arr env buf pre [tok] (AddsArgument arr env tok)
  redirection : ∀ pre tok post, tokens buf = pre ++ tok :: post → IsRedirection tok →
    GoesThrough arr env buf pre [tok] fun c c' => c'.argv = c.argv ∧ c'.eargv = c.eargv
  stays : ∀ pre post, tokens buf = pre ++ post →
    GoesThrough arr env buf pre post fun c c' => c.argv <+: c'.argv ∧ c.eargv <+: c'.eargv

/-! ## What is an assignment -/

theorem addToken_eargv (hassign : IsAssignment tok) (h : c.addToken arr env tok = some c') :
    c' = { c with eargv := c.eargv ++ [tok] } := by
  rw [addToken_assignment hassign] at h
  split at h
  · exact (Option.some.inj h).symm
  · cases h

theorem addToken_argument (hredir : ¬ IsRedirection tok) (hassign : ¬ IsAssignment tok)
    (h : c.addToken arr env tok = some c') : AddsArgument arr env tok c c' := by
  obtain ⟨his, -⟩ | ⟨his, -⟩ | ⟨-, -, w, hw, ⟨hne, -, rfl⟩ | ⟨hnil, rfl⟩⟩ := addToken_cases h
  · exact absurd his hredir
  · exact absurd his hassign
  · exact ⟨w, hw, (if_pos hne).symm⟩
  · exact ⟨w, hw, (if_neg (not_not.mpr hnil)).symm⟩

/-- The first byte of a pair is a `=` when there is no key. -/
theorem head_pairOf (hkey : chr '=' ∉ key) :
    (pairOf key value).head? = some (chr '=') ↔ key = [] := by
  cases key with
  | nil => exact iff_of_true rfl rfl
  | cons b key =>
    refine iff_of_false ?_ (List.cons_ne_nil _ _)
    intro h
    have hb : b = chr '=' := Option.some.inj h
    exact hkey (hb ▸ List.mem_cons_self)

theorem isAssignment_pairOf (hkey : chr '=' ∉ key) (hredir : ¬ IsRedirection (pairOf key value))
    (hvalue : IsKey key → chr '-' ∉ value) : IsAssignment (pairOf key value) ↔ IsKey key := by
  have hmem : chr '=' ∈ pairOf key value := List.mem_append_right _ List.mem_cons_self
  constructor
  · rintro ⟨-, -, hhead, hdash⟩
    refine ⟨fun hnil => hhead ((head_pairOf hkey).mpr hnil), fun hmem => ?_⟩
    exact hdash (List.mem_append_left _ hmem)
  · intro h
    refine ⟨hredir, hmem, fun hhead => h.1 ((head_pairOf hkey).mp hhead), ?_⟩
    intro hdash
    rcases List.mem_append.mp hdash with hin | hin
    · exact h.2 hin
    · rcases List.mem_cons.mp hin with heq | hin
      · exact absurd heq (by decide)
      · exact hvalue h hin

theorem addToken_pair (hkey : chr '=' ∉ key) (hredir : ¬ IsRedirection (pairOf key value))
    (hvalue : IsKey key → chr '-' ∉ value)
    (h : c.addToken arr env (pairOf key value) = some c') : AddsPair arr env key value c c' := by
  have hiff := isAssignment_pairOf hkey hredir hvalue
  unfold AddsPair
  by_cases his : IsKey key
  · rw [if_pos his]
    exact addToken_eargv (hiff.mpr his) h
  · rw [if_neg his]
    exact addToken_argument hredir (fun hassign => his (hiff.mp hassign)) h

theorem addToken_neither (his : IsRedirection tok) (h : c.addToken arr env tok = some c') :
    c'.argv = c.argv ∧ c'.eargv = c.eargv := by
  obtain ⟨c₁, hflow, hadd⟩ := @addToken_redirection arr env c tok his
  rw [hadd] at h
  cases h
  exact parseRedirFlow_args hflow

/-- `A=b env -x=$Y C=d >f` -/
def envPairs : List Byte :=
  ['A', '=', 'b', ' ', 'e', 'n', 'v', ' ', '-', 'x', '=', '$', 'Y', ' ', 'C', '=', 'd', ' ', '>',
    'f'].map chr

/-- A pair is an assignment exactly when its key is one and no argument stands in
front of it. -/
def AssignsInFront (arr : Arrays) (env : Environ) (buf : List Byte) : Prop :=
  ∀ pre key value post, tokens buf = pre ++ pairOf key value :: post → chr '=' ∉ key →
    GoesThrough arr env buf pre [pairOf key value] fun c c' =>
      c'.eargv = c.eargv ++ [pairOf key value] ↔ IsKey key ∧ c.argv = []

/-- `echo A=b` -/
def echoPair : List Byte :=
  [chr 'e', chr 'c', chr 'h', chr 'o', space, chr 'A', chr '=', chr 'b']

end Shell
end Sisop

import Mathlib.Data.List.Basic

/-!
# The command parser

A line lies in a buffer that was zeroed before it was read.  `Ptr` is a pointer
into it: the byte in front of it, which `parse_cmd` reads when the string starts
with `&`, and the bytes from it on, behind which the buffer is zero.  A C string
that has been cut off is the list of its bytes.

`Cmd` is a pointer to a command, so it may be null.  `none` is a dereference of
the null pointer, at which the process is killed, or a store behind the end of an
array, at which C says nothing.  `Arrays` says which arrays are limited: those of
the source are `sizes`.  A token and the name of a file always fit in their arrays
of 1024 bytes, because they come out of a buffer of that size.
-/

namespace Sisop
namespace Shell

abbrev Byte := BitVec 8

def chr (c : Char) : Byte := BitVec.ofNat 8 c.toNat

/-- `SPACE`. -/
def space : Byte := chr ' '

structure Ptr where
  before : Byte
  bytes : List Byte
  deriving DecidableEq, Repr

/-- What the parser reads of the process: its environment and `status`. -/
structure Environ where
  getenv : List Byte → Option (List Byte)
  status : Int

/-- A process without environment variables. -/
def bare : Environ := ⟨fun _ => none, 0⟩

/-- `MAXARGS`. -/
def maxargs : Nat := 20

/-- `sizeof(int)`, the size of `status_str`. -/
def statusStrSize : Nat := 4

/-- The number of cells of `argv` and of `eargv`, and the size of `status_str`, where
they are limited. -/
structure Arrays where
  args : Option Nat
  statusStr : Option Nat

/-- The arrays of the source. -/
def sizes : Arrays := ⟨some maxargs, some statusStrSize⟩

/-- There is a cell with index `n` in `argv` and `eargv`. -/
def Arrays.HasCell (arr : Arrays) (n : Nat) : Prop :=
  ∀ k ∈ arr.args, n < k

instance (arr : Arrays) (n : Nat) : Decidable (arr.HasCell n) :=
  inferInstanceAs (Decidable (∀ k ∈ arr.args, n < k))

/-- `status_str` holds the string and the zero behind it. -/
def Arrays.HoldsStatus (arr : Arrays) (str : List Byte) : Prop :=
  ∀ k ∈ arr.statusStr, str.length + 1 ≤ k

instance (arr : Arrays) (str : List Byte) : Decidable (arr.HoldsStatus str) :=
  inferInstanceAs (Decidable (∀ k ∈ arr.statusStr, str.length + 1 ≤ k))

/-! ## The commands -/

inductive CmdType
  | exec
  | back
  | redir
  | pipe
  deriving DecidableEq, Repr

structure ExecCmd where
  type : CmdType
  scmd : List Byte
  argv : List (List Byte)
  eargv : List (List Byte)
  outFile : List Byte
  inFile : List Byte
  errFile : List Byte
  deriving DecidableEq, Repr

inductive Cmd
  | null
  | exec (c : ExecCmd)
  | back (scmd : List Byte) (c : Cmd)
  | pipe (leftcmd rightcmd : Cmd)
  deriving DecidableEq, Repr

/-- `cmd->type`. -/
def Cmd.type : Cmd → Option CmdType
  | .null => none
  | .exec c => some c.type
  | .back _ _ => some .back
  | .pipe _ _ => some .pipe

/-- `cmd->scmd`. -/
def Cmd.scmd : Cmd → Option (List Byte)
  | .null => none
  | .exec c => some c.scmd
  | .back scmd _ => some scmd
  | .pipe _ _ => some []

def execCmdCreate (bufCmd : List Byte) : ExecCmd :=
  { type := .exec, scmd := bufCmd, argv := [], eargv := [], outFile := [], inFile := [],
    errFile := [] }

def backCmdCreate (c : Cmd) : Option Cmd := do
  let scmd ← c.scmd
  some (.back scmd c)

def pipeCmdCreate (left right : Cmd) : Cmd :=
  if right = .null then left else .pipe left right

/-! ## Tokens -/

def blockContains (buf : List Byte) (c : Byte) : Option Nat :=
  buf.findIdx? (· = c)

def getToken (buf : List Byte) : List Byte :=
  buf.takeWhile (· ≠ space)

/-- `parse_redir_flow`, when it applies. -/
def parseRedirFlow (c : ExecCmd) (arg : List Byte) : Option ExecCmd :=
  match blockContains arg (chr '>') with
  | some 0 => some { c with outFile := arg.drop 1, type := .redir }
  | some 1 => some { c with errFile := arg.drop 2, type := .redir }
  | some _ => some { c with type := .redir }
  | none =>
    match blockContains arg (chr '<') with
    | some _ => some { c with inFile := arg.drop 1, type := .redir }
    | none => none

/-- `parse_environ_var`, when it applies. -/
def parseEnvironVar (c : ExecCmd) (arg : List Byte) : Option ExecCmd :=
  match blockContains arg (chr '=') with
  | some (_ + 1) =>
    if blockContains arg (chr '-') = none then some { c with eargv := c.eargv ++ [arg] } else none
  | _ => none

variable (arr : Arrays) (env : Environ)

/-- What `sprintf` prints for the status. -/
def decimal : List Byte := (toString env.status).toList.map chr

def expandEnvironVar (arg : List Byte) : Option (List Byte) :=
  match arg with
  | [] => some arg
  | b :: envVarName =>
    if b ≠ chr '$' then some arg
    else if envVarName.head? = some (chr '?') then
      if arr.HoldsStatus (decimal env) then some (decimal env) else none
    else some ((env.getenv envVarName).getD [])

/-- One turn of the loop of `parse_exec`. -/
def ExecCmd.addToken (c : ExecCmd) (tok : List Byte) : Option ExecCmd :=
  match parseRedirFlow c tok with
  | some c => some c
  | none =>
    match parseEnvironVar c tok with
    | some c' => if arr.HasCell c.eargv.length then some c' else none
    | none => do
      let tok ← expandEnvironVar arr env tok
      if tok ≠ [] then
        if arr.HasCell c.argv.length then some { c with argv := c.argv ++ [tok] } else none
      else some c

/-- The loop of `parse_exec`: a token, and the space behind it. -/
def addTokens (c : ExecCmd) (buf : List Byte) : Option ExecCmd :=
  match buf with
  | [] => some c
  | b :: rest => do
    let c ← c.addToken arr env (getToken (b :: rest))
    addTokens c ((b :: rest).drop ((getToken (b :: rest)).length + 1))
termination_by buf.length
decreasing_by
  rw [List.length_drop, List.length_cons]
  omega

/-- `parse_exec`, which ends `argv` by a null pointer. -/
def parseExec (bufCmd : List Byte) : Option Cmd := do
  let c ← addTokens arr env (execCmdCreate bufCmd) bufCmd
  if arr.HasCell c.argv.length then some (.exec c) else none

def parseBack (bufCmd : List Byte) : Option Cmd := do
  let c ← parseExec arr env (bufCmd.takeWhile (· ≠ chr '&'))
  backCmdCreate c

/-- `parse_cmd` on a string with `before` in front of it. -/
def parseCmd (before : Byte) (bufCmd : List Byte) : Option Cmd :=
  if bufCmd = [] then some .null
  else match blockContains bufCmd (chr '&') with
    | some idx =>
      if (before :: bufCmd)[idx]? ≠ some (chr '>') then parseBack arr env bufCmd
      else parseExec arr env bufCmd
    | none => parseExec arr env bufCmd

/-! ## Lines -/

/-- The string in front of the first splitter, and the pointer behind it and the
spaces that follow it.  At the end of the string the pointer goes past its
terminator. -/
def splitLine (buf : Ptr) (splitter : Byte) : List Byte × Ptr :=
  let left := buf.bytes.takeWhile fun b => b ≠ splitter ∧ b ≠ 0
  let behind := buf.bytes.drop (left.length + 1)
  (left, ⟨if behind.head? = some space then space else 0, behind.dropWhile (· = space)⟩)

/-- `buf[0] != '\0'`. -/
def Ptr.more (buf : Ptr) : Bool := buf.bytes.head?.any (· ≠ 0)

theorem length_splitLine {buf : Ptr} {splitter : Byte} (h : (splitLine buf splitter).2.more) :
    (splitLine buf splitter).2.bytes.length < buf.bytes.length := by
  have hne : (splitLine buf splitter).2.bytes ≠ [] := by
    intro hnil
    rw [Ptr.more, hnil] at h
    cases h
  have hpos := List.length_pos_of_ne_nil hne
  unfold splitLine at hpos ⊢
  have hle := ((buf.bytes.drop ((buf.bytes.takeWhile fun b => b ≠ splitter ∧ b ≠ 0).length +
    1)).dropWhile_suffix (· = space)).length_le
  rw [List.length_drop] at hle
  dsimp only at hpos ⊢
  omega

def parseLine (buf : Ptr) : Option Cmd := do
  let l ← parseCmd arr env buf.before (splitLine buf (chr '|')).1
  if _h : (splitLine buf (chr '|')).2.more then
    let r ← parseLine (splitLine buf (chr '|')).2
    some (pipeCmdCreate l r)
  else some (pipeCmdCreate l .null)
termination_by buf.bytes.length
decreasing_by exact length_splitLine _h

variable {arr env} {buf rest : Ptr} {s : List Byte} {l r : Cmd}

/-- A redirection names a file, or nothing. -/
theorem parseRedirFlow_cases {c c' : ExecCmd} {tok : List Byte}
    (h : parseRedirFlow c tok = some c') :
    c' = { c with outFile := tok.drop 1, type := .redir } ∨
    c' = { c with errFile := tok.drop 2, type := .redir } ∨
    c' = { c with type := .redir } ∨
    c' = { c with inFile := tok.drop 1, type := .redir } := by
  unfold parseRedirFlow at h
  split at h
  · exact .inl (Option.some.inj h).symm
  · exact .inr (.inl (Option.some.inj h).symm)
  · exact .inr (.inr (.inl (Option.some.inj h).symm))
  · split at h
    · exact .inr (.inr (.inr (Option.some.inj h).symm))
    · cases h

/-- A segment in front of others. -/
theorem parseLine_more (hsplit : splitLine buf (chr '|') = (s, rest)) (hmore : rest.more)
    (hl : parseCmd arr env buf.before s = some l) (hr : parseLine arr env rest = some r) :
    parseLine arr env buf = some (pipeCmdCreate l r) := by
  rw [parseLine]
  simp [hsplit, hmore, hl, hr]

/-- The last segment. -/
theorem parseLine_last (hsplit : splitLine buf (chr '|') = (s, rest)) (hend : ¬ rest.more)
    (hl : parseCmd arr env buf.before s = some l) : parseLine arr env buf = some l := by
  rw [parseLine]
  simp [hsplit, hend, hl, pipeCmdCreate]

end Shell
end Sisop

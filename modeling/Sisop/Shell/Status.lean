import Mathlib.Data.BitVec
import Sisop.Shell.Exec

/-!
# The status of a command

`status` is an `int`.  `waitpid` stores a wait status in it, and
`print_status_info` puts the exit code or the negated signal in its place.  It
does not do so for a pipeline.

`Files.waitStatus` follows a wait status through the processes of a tree.  A
process that makes a pipe waits for its right child into its own copy of `status`
and then exits with 0, so nothing of it gets to the shell.
-/

namespace Sisop
namespace Shell

/-- How a process ends.  The signals are 1 to 64. -/
inductive WaitStatus
  | exited (code : BitVec 8)
  | signaled (sig : Fin 64) (core : Bool)
  deriving DecidableEq, Repr

/-- The `int` that `waitpid` stores. -/
def WaitStatus.raw : WaitStatus → BitVec 32
  | .exited code => code.setWidth 32 <<< 8
  | .signaled sig core => BitVec.ofNat 32 (sig + 1 + if core then 0x80 else 0)

/-- The exit code, or minus the signal number. -/
def WaitStatus.decoded : WaitStatus → Int
  | .exited code => code.toNat
  | .signaled sig _ => -(sig + 1 : Int)

def wtermsig (status : BitVec 32) : BitVec 32 := status &&& 0x7f

def wexitstatus (status : BitVec 32) : BitVec 32 := (status &&& 0xff00) >>> 8

def wstopsig (status : BitVec 32) : BitVec 32 := wexitstatus status

def wifexited (status : BitVec 32) : Bool := wtermsig status = 0

/-- `((signed char) ((status & 0x7f) + 1) >> 1) > 0`. -/
def wifsignaled (status : BitVec 32) : Bool :=
  0 < (((wtermsig status + 1).setWidth 8).sshiftRight 1).toInt

/-- The three branches of `print_status_info`. -/
def decodeStatus (status : BitVec 32) : BitVec 32 :=
  if wifexited status then wexitstatus status
  else if wifsignaled status then -wtermsig status
  else if wtermsig status ≠ 0 then -wstopsig status
  else status

theorem wifexited_exited (code : BitVec 8) : wifexited (WaitStatus.exited code).raw = true := by
  revert code
  decide +kernel

theorem wexitstatus_exited (code : BitVec 8) :
    (wexitstatus (WaitStatus.exited code).raw).toInt = code.toNat := by
  revert code
  decide +kernel

theorem wifexited_signaled (sig : Fin 64) (core : Bool) :
    wifexited (WaitStatus.signaled sig core).raw = false := by
  revert sig core
  decide +kernel

theorem wifsignaled_signaled (sig : Fin 64) (core : Bool) :
    wifsignaled (WaitStatus.signaled sig core).raw = true := by
  revert sig core
  decide +kernel

theorem wtermsig_signaled (sig : Fin 64) (core : Bool) :
    (-wtermsig (WaitStatus.signaled sig core).raw).toInt = -(sig + 1 : Int) := by
  revert sig core
  decide +kernel

theorem decodeStatus_raw (w : WaitStatus) : (decodeStatus w.raw).toInt = w.decoded := by
  unfold decodeStatus
  cases w with
  | exited code =>
    rw [if_pos (wifexited_exited code)]
    exact wexitstatus_exited code
  | signaled sig core =>
    rw [if_neg (by rw [wifexited_signaled]; exact Bool.false_ne_true),
      if_pos (wifsignaled_signaled sig core)]
    exact wtermsig_signaled sig core

theorem decoded_eq_zero {w : WaitStatus} : w.decoded = 0 ↔ w = .exited 0 := by
  cases w with
  | exited code =>
    constructor
    · intro h
      have hzero : code.toNat = 0 := Int.ofNat_eq_zero.mp h
      rw [BitVec.eq_of_toNat_eq (y := 0) hzero]
    · rintro h
      cases h
      rfl
  | signaled sig core =>
    refine iff_of_false ?_ nofun
    change -((sig : Int) + 1) ≠ 0
    omega

/-! ## The processes of a tree -/

/-- `SIGSEGV`, without a core file. -/
def segv : WaitStatus := .signaled 10 false

/-- `w` is how the program ends, and 255 when `execvp` fails. -/
def Outcome.ended (w : WaitStatus) : Outcome → WaitStatus
  | .execvp _ => w
  | .exit code => .exited (BitVec.ofNat 8 code)
  | .killed => segv

variable (k : Files) (programs : Proc → WaitStatus)

/-- The variable `status` of the process that calls `exec_cmd`, and how the
process ends. -/
def Files.waitStatus (parsedPipe : Cmd) (proc : Proc) (fds : Fds) (status : BitVec 32) :
    Cmd → BitVec 32 × WaitStatus
  | .null => (status, segv)
  | .exec c => (status, (k.runExec proc c fds).ended (programs proc))
  | .back _ c => waitStatus parsedPipe proc fds status c
  | .pipe _ rightcmd =>
    let p2 := waitStatus parsedPipe (.p2 :: proc)
      (fds.moveEnd (.readEnd proc) (.writeEnd proc) stdinFileno true) status rightcmd
    (p2.2.raw, if (freeCommand parsedPipe).isSome then .exited 0 else segv)

/-- How the rightmost command ends. -/
def Files.rightmost (fds : Fds) (tree : Cmd) : Option WaitStatus :=
  (k.execCmd [] fds tree).getLast?.map fun s => s.outcome.ended (programs s.proc)

/-! ## The shell -/

/-- What `print_status_info` leaves in `status`. -/
def statusAfter (cmd : Cmd) (status : BitVec 32) : Option (BitVec 32) :=
  (printStatusInfo cmd).map fun printed => if printed.isNone then status else decodeStatus status

/-- `status` when the command is done: a command in the background is not waited
for. -/
def Files.waited (parsed : Cmd) (fds : Fds) (status : BitVec 32) : Option (BitVec 32) :=
  match parsed.type with
  | none => none
  | some .back => some status
  | some type => statusAfter parsed
      (k.waitStatus programs (if type = .pipe then parsed else .null) [] fds status parsed).2.raw

/-- `run_cmd`, with the value it leaves in `status`.  `chdirs` says whether the
`chdir` of a `cd` goes through. -/
def Files.runCmd (getenv : List Byte → Option (List Byte)) (chdirs : Bool) (fds : Fds)
    (status : BitVec 32) (cmd : Ptr) : Option (Ran × BitVec 32) :=
  if cmd.bytes.head?.getD 0 = 0 then some (.prompt, status)
  else if cd cmd.bytes then some (.prompt, if chdirs then 0 else 1)
  else if exitShell cmd.bytes then some (.exit, status)
  else if pwd cmd.bytes then some (.prompt, 0)
  else do
    let parsed ← parseLine sizes ⟨getenv, status.toInt⟩ cmd
    let status ← k.waited programs parsed fds status
    freeCommand parsed
    some (.prompt, status)

variable {k programs} {getenv : List Byte → Option (List Byte)} {chdirs : Bool} {fds : Fds}
  {status : BitVec 32} {line : Ptr} {l r tree : Cmd}

/-- Without the status it is `runCmd`. -/
theorem runCmd_map_fst (k : Files) (programs : Proc → WaitStatus)
    (getenv : List Byte → Option (List Byte)) (chdirs : Bool) (fds : Fds)
    (status : BitVec 32) (line : Ptr) :
    (k.runCmd programs getenv chdirs fds status line).map Prod.fst =
      runCmd ⟨getenv, status.toInt⟩ line := by
  unfold Files.runCmd Shell.runCmd
  split
  · rfl
  split
  · rfl
  split
  · rfl
  split
  · rfl
  · cases hparse : parseLine sizes ⟨getenv, status.toInt⟩ line with
    | none => rfl
    | some parsed =>
      cases parsed with
      | null => rfl
      | exec c =>
        cases htype : c.type <;>
          simp [Files.waited, statusAfter, printStatusInfo, Cmd.scmd, Cmd.type, freeCommand, htype]
      | back scmd c =>
        cases hfree : freeCommand c <;> simp [Files.waited, Cmd.type, freeCommand, hfree]
      | pipe l r =>
        cases hfree : freeCommand (.pipe l r) <;>
          simp [Files.waited, statusAfter, printStatusInfo, Cmd.scmd, Cmd.type, hfree]

/-- The status of a pipeline is that of a process which exits with 0. -/
theorem runCmd_pipe {ran : Ran} {status' : BitVec 32} (h : RunsCommand line.bytes)
    (hparse : parseLine sizes ⟨getenv, status.toInt⟩ line = some (.pipe l r))
    (hrun : k.runCmd programs getenv chdirs fds status line = some (ran, status')) :
    status' = 0 := by
  obtain ⟨hne, hcd, hexit, hpwd⟩ := h
  unfold Files.runCmd at hrun
  have hwaited : k.waited programs (.pipe l r) fds status =
      some (if (freeCommand (.pipe l r)).isSome then WaitStatus.exited 0 else segv).raw := rfl
  rw [if_neg hne, if_neg hcd, if_neg hexit, if_neg hpwd, hparse, Option.bind_eq_bind,
    Option.bind_some, hwaited] at hrun
  cases hfree : freeCommand (.pipe l r) with
  | none =>
    rw [hfree] at hrun
    cases hrun
  | some u =>
    rw [hfree] at hrun
    cases hrun
    rfl

/-- The prompt comes back exactly when the line has no hole. -/
theorem runCmd_prompts {tree : Cmd} (h : RunsCommand line.bytes)
    (hparse : parseLine sizes ⟨getenv, status.toInt⟩ line = some tree) :
    (∃ status', k.runCmd programs getenv chdirs fds status line = some (.prompt, status')) ↔
      NoHole (segments line) := by
  have hfits := (parseLine_isSome line).mp (Option.isSome_of_eq_some hparse)
  rw [← and_iff_left (a := NoHole (segments line)) hfits, ← runCmd_prompts_iff _ h,
    ← runCmd_map_fst k programs getenv chdirs fds status line, Option.map_eq_some_iff]
  constructor
  · rintro ⟨status', hrun⟩
    exact ⟨_, hrun, rfl⟩
  · rintro ⟨⟨ran, status'⟩, hrun, rfl⟩
    exact ⟨status', hrun⟩

/-- `$?` -/
def dollarQuestion : List Byte := [chr '$', chr '?']

/-- `$?` is expanded to the text of the status, when it fits. -/
theorem expandEnvironVar_status (arr : Arrays) (env : Environ) :
    expandEnvironVar arr env dollarQuestion =
      if arr.HoldsStatus (decimal env) then some (decimal env) else none := rfl

/-- The prompt comes back, and `status` and the next `$?` are the exit status of
the rightmost command of the pipeline. -/
def PipelineStatus (k : Files) (programs : Proc → WaitStatus)
    (getenv : List Byte → Option (List Byte)) (chdirs : Bool) (fds : Fds)
    (status : BitVec 32) (line : Ptr) (tree : Cmd) : Prop :=
  ∃ status' w, k.runCmd programs getenv chdirs fds status line = some (.prompt, status') ∧
    k.rightmost programs fds tree = some w ∧ status'.toInt = w.decoded ∧
    expandEnvironVar sizes ⟨getenv, status'.toInt⟩ dollarQuestion =
      some ((toString w.decoded).toList.map chr)

/-- A pipeline leaves the exit status of its rightmost command only when that is
0, which is what every pipeline leaves. -/
theorem pipelineStatus_iff (k : Files) (programs : Proc → WaitStatus)
    (getenv : List Byte → Option (List Byte)) (chdirs : Bool) (fds : Fds)
    (status : BitVec 32) {line : Ptr} {l r : Cmd} (h : RunsCommand line.bytes)
    (hparse : parseLine sizes ⟨getenv, status.toInt⟩ line = some (.pipe l r)) :
    PipelineStatus k programs getenv chdirs fds status line (.pipe l r) ↔
      NoHole (segments line) ∧ k.rightmost programs fds (.pipe l r) = some (.exited 0) := by
  have hprompts := @runCmd_prompts k programs getenv chdirs fds status line _ h hparse
  rw [← hprompts]
  constructor
  · rintro ⟨status', w, hrun, hright, hstatus, -⟩
    obtain rfl := runCmd_pipe h hparse hrun
    have hzero : w.decoded = 0 := hstatus.symm
    rw [decoded_eq_zero.mp hzero] at hright
    exact ⟨⟨0, hrun⟩, hright⟩
  · rintro ⟨⟨status', hrun⟩, hright⟩
    obtain rfl := runCmd_pipe h hparse hrun
    have htext : decimal ⟨getenv, (0 : BitVec 32).toInt⟩ =
        (toString (WaitStatus.exited 0).decoded).toList.map chr := rfl
    refine ⟨0, .exited 0, hrun, hright, rfl, ?_⟩
    rw [expandEnvironVar_status, htext]
    exact if_pos (by decide)

/-- The commands `ls` and `wc`. -/
def ls : ExecCmd :=
  { execCmdCreate [chr 'l', chr 's', space] with argv := [[chr 'l', chr 's']] }

def wc : ExecCmd :=
  { execCmdCreate [chr 'w', chr 'c'] with argv := [[chr 'w', chr 'c']] }

theorem parseExec_words (env : Environ) :
    parseExec sizes env [chr 'l', chr 's', space] = some (.exec ls) ∧
    parseExec sizes env [chr 'w', chr 'c'] = some (.exec wc) := by
  have hls : tokens [chr 'l', chr 's', space] = [[chr 'l', chr 's']] := by decide
  have hwc : tokens [chr 'w', chr 'c'] = [[chr 'w', chr 'c']] := by decide
  rw [parseExec_eq, parseExec_eq, hls, hwc]
  exact ⟨rfl, rfl⟩

theorem parseLine_lsWc (env : Environ) :
    parseLine sizes env lsWc = some (.pipe (.exec ls) (.exec wc)) := by
  have hfirst : splitLine lsWc (chr '|') =
      ([chr 'l', chr 's', space], ⟨space, [chr 'w', chr 'c']⟩) := by decide
  have hsecond : splitLine ⟨space, [chr 'w', chr 'c']⟩ (chr '|') =
      ([chr 'w', chr 'c'], ⟨0, []⟩) := by decide
  obtain ⟨hls, hwc⟩ := parseExec_words env
  have hlast : parseLine sizes env ⟨space, [chr 'w', chr 'c']⟩ = some (.exec wc) :=
    parseLine_last hsecond (by decide) hwc
  exact parseLine_more hfirst (by decide) hls hlast

/-- Every file opens. -/
def allFiles : Files := ⟨fun _ _ => true⟩

/-- Every program exits with `code`. -/
def allExit (code : BitVec 8) (_ : Proc) : WaitStatus := .exited code

theorem pipelineStatus_lsWc :
    PipelineStatus allFiles (allExit 0) (fun _ => none) true terminal 0 lsWc
        (.pipe (.exec ls) (.exec wc)) ↔
      NoHole (segments lsWc) ∧ allFiles.rightmost (allExit 0) terminal
        (.pipe (.exec ls) (.exec wc)) = some (.exited 0) :=
  pipelineStatus_iff allFiles (allExit 0) (fun _ => none) true terminal 0 (by decide)
    (parseLine_lsWc bare)

/-- `ls | wc` where `wc` exits with 1: the shell has the status 0. -/
theorem pipeline_status_lost : RunsCommand lsWc.bytes ∧
    parseLine sizes bare lsWc = some (.pipe (.exec ls) (.exec wc)) ∧
    allFiles.rightmost (allExit 1) terminal (.pipe (.exec ls) (.exec wc)) = some (.exited 1) ∧
    allFiles.runCmd (allExit 1) (fun _ => none) true terminal 0 lsWc = some (.prompt, 0) ∧
    ¬ PipelineStatus allFiles (allExit 1) (fun _ => none) true terminal 0 lsWc
      (.pipe (.exec ls) (.exec wc)) := by
  have hruns : RunsCommand lsWc.bytes := by decide
  have hright : allFiles.rightmost (allExit 1) terminal (.pipe (.exec ls) (.exec wc)) =
      some (.exited 1) := by
    unfold Files.rightmost
    rw [Files.execCmd, List.getLast?_append]
    rfl
  have hhole : NoHole (segments lsWc) := by
    rw [← (parseLine_spec (parseLine_lsWc bare)).2]
    exact ⟨trivial, trivial⟩
  have hparse : parseLine sizes ⟨fun _ => none, (0 : BitVec 32).toInt⟩ lsWc = _ :=
    parseLine_lsWc bare
  obtain ⟨status, hstatus⟩ := (@runCmd_prompts allFiles (allExit 1) (fun _ => none) true terminal 0
    lsWc _ hruns hparse).mpr hhole
  obtain rfl := runCmd_pipe hruns hparse hstatus
  refine ⟨hruns, parseLine_lsWc bare, hright, hstatus, ?_⟩
  rintro ⟨status', w, hrun', hright', hsame, -⟩
  rw [hstatus] at hrun'
  rw [hright] at hright'
  cases hrun'
  cases hright'
  exact absurd hsame (by decide)

end Shell
end Sisop

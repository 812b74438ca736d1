import Sisop.Lib.Descriptors
import Sisop.Shell.RunCmd

/-!
# The processes of a command

`Files.execCmd` is `exec_cmd` with the descriptor table of the process that calls
it.  It gives the stages of the command: the processes that do not fork any
more, from left to right, each with the table it has when it calls `execvp`.

`fork`, `pipe` and `dup2` of an open descriptor do not fail.  Whether the file of
a redirection can be opened is up to `Files.opens`.
-/

namespace Sisop
namespace Shell

open Descriptors

/-- The two processes that a pipe forks. -/
inductive Child
  | p1
  | p2
  deriving DecidableEq, Repr

/-- A process is known by the forks that led to it from the child of the shell,
the last one first. -/
abbrev Proc := List Child

inductive OpenFlags
  | rdonly
  | wronlyCreatTrunc
  deriving DecidableEq, Repr

/-- What a descriptor stands for: something the process had from the start, a
file that it opened, or an end of the pipe that a process made. -/
inductive Desc
  | inherited (n : Nat)
  | file (name : List Byte) (flags : OpenFlags)
  | readEnd (maker : Proc)
  | writeEnd (maker : Proc)
  deriving DecidableEq, Repr

abbrev Fds := Table Desc

def stdinFileno : Nat := 0
def stdoutFileno : Nat := 1
def stderrFileno : Nat := 2

/-- Which redirections find a file that can be opened, by the process and the
descriptor redirected. -/
structure Files where
  opens : Proc → Nat → Bool

/-- How the walk of a process ends. -/
inductive Outcome
  | execvp (fds : Fds)
  | exit (code : Nat)
  | killed
  deriving DecidableEq, Repr

/-- A process that runs a single command.  `fds` is the table it comes with. -/
structure Stage where
  proc : Proc
  cmd : Cmd
  fds : Fds
  outcome : Outcome
  deriving DecidableEq, Repr

variable (k : Files)

/-- `none` is the result -1: `dup2` of a file that could not be opened. -/
def Files.openRedirFd (proc : Proc) (fds : Fds) (file : List Byte) (flags : OpenFlags)
    (fd : Nat) : Option Fds :=
  if k.opens proc fd then
    let opened := fds.openAt ⟨.file file flags, true⟩
    opened.2.dup2 opened.1 fd
  else none

/-- The file name `&1`. -/
def ampOne : List Byte := [chr '&', chr '1']

def Files.redirStdin (proc : Proc) (c : ExecCmd) (fds : Fds) : Option Fds :=
  if c.inFile ≠ [] then k.openRedirFd proc fds c.inFile .rdonly stdinFileno else some fds

def Files.redirStdout (proc : Proc) (c : ExecCmd) (fds : Fds) : Option Fds :=
  if c.outFile ≠ [] then k.openRedirFd proc fds c.outFile .wronlyCreatTrunc stdoutFileno
  else some fds

def Files.redirStderr (proc : Proc) (c : ExecCmd) (fds : Fds) : Option Fds :=
  if c.errFile ≠ [] then
    if c.errFile = ampOne then fds.dup2 1 2
    else k.openRedirFd proc fds c.errFile .wronlyCreatTrunc stderrFileno
  else some fds

/-- The `REDIR` case in front of the `EXEC` case. -/
def Files.redirs (proc : Proc) (c : ExecCmd) (fds : Fds) : Option Fds :=
  if c.type = .redir then do
    let fds ← k.redirStdin proc c fds
    let fds ← k.redirStdout proc c fds
    k.redirStderr proc c fds
  else some fds

/-- `_exit(-1)` when a redirection fails. -/
def Files.runExec (proc : Proc) (c : ExecCmd) (fds : Fds) : Outcome :=
  match k.redirs proc c fds with
  | some fds => .execvp fds
  | none => .exit 255

/-- The process that makes a pipe has two children.  Each of them moves its end
to its standard descriptor and closes the two descriptors of the pipe. -/
def Files.execCmd (proc : Proc) (fds : Fds) : Cmd → List Stage
  | .null => [⟨proc, .null, fds, .killed⟩]
  | .exec c => [⟨proc, .exec c, fds, k.runExec proc c fds⟩]
  | .back _ c => execCmd proc fds c
  | .pipe leftcmd rightcmd =>
    execCmd (.p1 :: proc)
      (fds.moveEnd (.readEnd proc) (.writeEnd proc) stdoutFileno false) leftcmd ++
    execCmd (.p2 :: proc)
      (fds.moveEnd (.readEnd proc) (.writeEnd proc) stdinFileno true) rightcmd

/-! ## Redirections -/

/-- The file that a command has for a descriptor. -/
def ExecCmd.redirFile (c : ExecCmd) (fd : Nat) : List Byte :=
  if fd = stdinFileno then c.inFile
  else if fd = stdoutFileno then c.outFile
  else if fd = stderrFileno then c.errFile
  else []

/-- The command redirects the descriptor. -/
def Cmd.Redirects (cmd : Cmd) (fd : Nat) : Prop :=
  ∃ c, cmd = .exec c ∧ c.type = .redir ∧ c.redirFile fd ≠ []

/-- The command redirects the descriptor to a file that has to be opened. -/
def Cmd.Opens (cmd : Cmd) (fd : Nat) : Prop :=
  ∃ c, cmd = .exec c ∧ c.type = .redir ∧ c.redirFile fd ≠ [] ∧
    (fd = stderrFileno → c.errFile ≠ ampOne)

variable {k} {proc : Proc} {fds fds' : Fds} {c : ExecCmd} {file : List Byte} {flags : OpenFlags}
  {fd i : Nat}

theorem openRedirFd_some (hclean : fds.Clean 3) (hfd : fd < 3)
    (h : k.openRedirFd proc fds file flags fd = some fds') :
    k.opens proc fd ∧ fds'.Clean 3 ∧ ∀ i, i < 3 → i ≠ fd → fds'.get i = fds.get i := by
  unfold Files.openRedirFd at h
  split at h
  · rename_i hopens
    have hlow : 3 ≤ (fds.openAt ⟨.file file flags, true⟩).1 := hclean.le_lowest
    rw [Table.dup2_eq (Table.get_openAt_self fds ⟨.file file flags, true⟩) (by omega)] at h
    cases h
    refine ⟨hopens, (hclean.openAt rfl).set hfd, fun i hi hne => ?_⟩
    rw [Table.get_set_ne _ _ hne, Table.get_openAt_ne _ _ (by omega)]
  · cases h

/-- A redirection that is there when a file is named. -/
theorem redirNamed_some (hclean : fds.Clean 3) (hfd : fd < 3)
    (h : (if file ≠ [] then k.openRedirFd proc fds file flags fd else some fds) = some fds') :
    (file ≠ [] → k.opens proc fd) ∧ fds'.Clean 3 ∧
      ∀ i, i < 3 → (i = fd → file = []) → fds'.get i = fds.get i := by
  split at h
  · rename_i hfile
    obtain ⟨hopens, hclean', hsame⟩ := openRedirFd_some hclean hfd h
    exact ⟨fun _ => hopens, hclean', fun i hi hnone =>
      hsame i hi fun heq => hfile (hnone heq)⟩
  · rename_i hfile
    cases h
    exact ⟨fun hne => absurd hne hfile, hclean, fun i hi hnone => rfl⟩

theorem redirStdin_some (hclean : fds.Clean 3) (h : k.redirStdin proc c fds = some fds') :
    (c.inFile ≠ [] → k.opens proc stdinFileno) ∧ fds'.Clean 3 ∧
      ∀ i, i < 3 → (i = stdinFileno → c.inFile = []) → fds'.get i = fds.get i :=
  redirNamed_some hclean (by decide) h

theorem redirStdout_some (hclean : fds.Clean 3) (h : k.redirStdout proc c fds = some fds') :
    (c.outFile ≠ [] → k.opens proc stdoutFileno) ∧ fds'.Clean 3 ∧
      ∀ i, i < 3 → (i = stdoutFileno → c.outFile = []) → fds'.get i = fds.get i :=
  redirNamed_some hclean (by decide) h

theorem redirStderr_some (hclean : fds.Clean 3) (h : k.redirStderr proc c fds = some fds') :
    (c.errFile ≠ [] → c.errFile ≠ ampOne → k.opens proc stderrFileno) ∧ fds'.Clean 3 ∧
      ∀ i, i < 3 → (i = stderrFileno → c.errFile = []) → fds'.get i = fds.get i := by
  unfold Files.redirStderr at h
  split at h
  · rename_i hfile
    split at h
    · rename_i hamp
      obtain ⟨d, hd⟩ := hclean.kept 1 (by decide)
      rw [Table.dup2_eq hd (by decide)] at h
      cases h
      refine ⟨fun _ hne => absurd hamp hne, hclean.set (by decide), fun i hi hnone => ?_⟩
      exact Table.get_set_ne _ _ fun heq => hfile (hnone heq)
    · rename_i hamp
      obtain ⟨hopens, hclean', hsame⟩ := openRedirFd_some hclean (by decide) h
      exact ⟨fun _ _ => hopens, hclean', fun i hi hnone =>
        hsame i hi fun heq => hfile (hnone heq)⟩
  · rename_i hfile
    cases h
    exact ⟨fun hne => absurd hne hfile, hclean, fun i hi hnone => rfl⟩

/-- A process gets through its redirections only when every file could be opened.
It leaves the descriptors that are not redirected alone. -/
theorem redirs_some (hclean : fds.Clean 3) (h : k.redirs proc c fds = some fds') :
    (∀ fd, (Cmd.exec c).Opens fd → k.opens proc fd) ∧ fds'.Clean 3 ∧
      ∀ i, i < 3 → ¬ (Cmd.exec c).Redirects i → fds'.get i = fds.get i := by
  unfold Files.redirs at h
  split at h
  · rename_i htype
    rw [Option.bind_eq_bind, Option.bind_eq_some_iff] at h
    obtain ⟨fds₁, h₁, h⟩ := h
    rw [Option.bind_eq_some_iff] at h
    obtain ⟨fds₂, h₂, h₃⟩ := h
    obtain ⟨hin, hclean₁, hsame₁⟩ := redirStdin_some hclean h₁
    obtain ⟨hout, hclean₂, hsame₂⟩ := redirStdout_some hclean₁ h₂
    obtain ⟨herr, hclean₃, hsame₃⟩ := redirStderr_some hclean₂ h₃
    refine ⟨fun fd hopens => ?_, hclean₃, fun i hi hnot => ?_⟩
    · obtain ⟨c', heq, -, hfile, hamp⟩ := hopens
      cases heq
      unfold ExecCmd.redirFile at hfile
      split at hfile
      · rename_i hfd
        exact hfd ▸ hin hfile
      · split at hfile
        · rename_i hfd
          exact hfd ▸ hout hfile
        · split at hfile
          · rename_i hfd
            exact hfd ▸ herr hfile (hamp hfd)
          · exact absurd rfl hfile
    · have hfile : c.redirFile i = [] := by
        by_cases hne : c.redirFile i = []
        · exact hne
        · exact absurd ⟨c, rfl, htype, hne⟩ hnot
      have hin : i = stdinFileno → c.inFile = [] := by
        rintro rfl
        exact hfile
      have hout : i = stdoutFileno → c.outFile = [] := by
        rintro rfl
        exact hfile
      have herr : i = stderrFileno → c.errFile = [] := by
        rintro rfl
        exact hfile
      rw [hsame₃ i hi herr, hsame₂ i hi hout, hsame₁ i hi hin]
  · rename_i htype
    cases h
    refine ⟨fun fd hopens => ?_, hclean, fun i hi hnot => rfl⟩
    obtain ⟨c', heq, hredir, -⟩ := hopens
    cases heq
    exact absurd hredir htype

/-! ## Stages -/

/-- What a stage owes to its own redirections. -/
structure Stage.Sound (k : Files) (s : Stage) : Prop where
  clean : ∀ fds, s.outcome = .execvp fds → fds.Clean 3
  opened : ∀ fds, s.outcome = .execvp fds → ∀ fd, s.cmd.Opens fd → k.opens s.proc fd
  same : ∀ fds, s.outcome = .execvp fds → ∀ i, i < 3 → ¬ s.cmd.Redirects i →
    fds.get i = s.fds.get i

theorem runExec_sound (hclean : fds.Clean 3) :
    Stage.Sound k ⟨proc, .exec c, fds, k.runExec proc c fds⟩ := by
  unfold Files.runExec
  split
  · rename_i fds' h
    obtain ⟨hopened, hclean', hsame⟩ := redirs_some hclean h
    constructor
    · intro g hg
      cases hg
      exact hclean'
    · intro g hg
      cases hg
      exact hopened
    · intro g hg
      cases hg
      exact hsame
  · exact ⟨nofun, nofun, nofun⟩

theorem execCmd_sound (hclean : fds.Clean 3) (cmd : Cmd) :
    ∀ s ∈ k.execCmd proc fds cmd, Stage.Sound k s := by
  induction cmd generalizing proc fds with
  | null =>
    intro s hs
    obtain rfl := List.mem_singleton.mp hs
    exact ⟨nofun, nofun, nofun⟩
  | exec c =>
    intro s hs
    obtain rfl := List.mem_singleton.mp hs
    exact runExec_sound hclean
  | back scmd c ih => exact ih hclean
  | pipe leftcmd rightcmd ihl ihr =>
    intro s hs
    rw [Files.execCmd] at hs
    rcases List.mem_append.mp hs with hs | hs
    · exact ihl (hclean.moveEnd (by decide) false) s hs
    · exact ihr (hclean.moveEnd (by decide) true) s hs

/-! ## Pipelines -/

/-- The two stages hold the two ends of one pipe. -/
def Joined (s t : Stage) : Prop :=
  ∃ maker, s.fds.get stdoutFileno = some ⟨.writeEnd maker, false⟩ ∧
    t.fds.get stdinFileno = some ⟨.readEnd maker, false⟩

/-- A run of stages inherits its standard input at the left and its standard
output at the right, and its stages are joined. -/
structure Joint (fds : Fds) (stages : List Stage) : Prop where
  input : ∃ s, stages.head? = some s ∧ s.fds.get stdinFileno = fds.get stdinFileno
  output : ∃ s, stages.getLast? = some s ∧ s.fds.get stdoutFileno = fds.get stdoutFileno
  joined : stages.IsChain Joined

theorem joint_single (proc : Proc) (cmd : Cmd) (fds : Fds) (o : Outcome) :
    Joint fds [⟨proc, cmd, fds, o⟩] :=
  ⟨⟨_, rfl, rfl⟩, ⟨_, rfl, rfl⟩, .singleton _⟩

theorem execCmd_joint (hclean : fds.Clean 3) (cmd : Cmd) :
    Joint fds (k.execCmd proc fds cmd) := by
  induction cmd generalizing proc fds with
  | null => exact joint_single _ _ _ _
  | exec c => exact joint_single _ _ _ _
  | back scmd c ih => exact ih hclean
  | pipe leftcmd rightcmd ihl ihr =>
    have hout : ∀ i, i < 3 →
        (fds.moveEnd (.readEnd proc) (.writeEnd proc) stdoutFileno false).get i =
          if i = stdoutFileno then some ⟨.writeEnd proc, false⟩ else fds.get i :=
      fun i hi => Table.moveEnd_get hclean (by decide) false hi
    have hin : ∀ i, i < 3 →
        (fds.moveEnd (.readEnd proc) (.writeEnd proc) stdinFileno true).get i =
          if i = stdinFileno then some ⟨.readEnd proc, false⟩ else fds.get i :=
      fun i hi => Table.moveEnd_get hclean (by decide) true hi
    obtain ⟨⟨s, hs, hsin⟩, ⟨t, ht, htout⟩, hleft⟩ :=
      @ihl (.p1 :: proc) (fds.moveEnd (.readEnd proc) (.writeEnd proc) stdoutFileno false)
        (hclean.moveEnd (by decide) false)
    obtain ⟨⟨u, hu, huin⟩, ⟨v, hv, hvout⟩, hright⟩ :=
      @ihr (.p2 :: proc) (fds.moveEnd (.readEnd proc) (.writeEnd proc) stdinFileno true)
        (hclean.moveEnd (by decide) true)
    rw [Files.execCmd]
    refine ⟨⟨s, ?_, ?_⟩, ⟨v, ?_, ?_⟩, ?_⟩
    · rw [List.head?_append, hs]
      rfl
    · rw [hsin]
      exact hout _ (by decide)
    · rw [List.getLast?_append, hv]
      rfl
    · rw [hvout]
      exact hin _ (by decide)
    · refine hleft.append hright fun x hx y hy => ?_
      rw [ht] at hx
      rw [hu] at hy
      cases hx
      cases hy
      exact ⟨proc, by rw [htout]; exact hout _ (by decide), by rw [huin]; exact hin _ (by decide)⟩

/-- The single commands of a tree, from left to right. -/
def Cmd.leaves : Cmd → List Cmd
  | .null => [.null]
  | .exec c => [.exec c]
  | .back _ c => c.leaves
  | .pipe leftcmd rightcmd => leftcmd.leaves ++ rightcmd.leaves

theorem execCmd_leaves (cmd : Cmd) : (k.execCmd proc fds cmd).map Stage.cmd = cmd.leaves := by
  induction cmd generalizing proc fds with
  | null => rfl
  | exec c => rfl
  | back scmd c ih => exact ih
  | pipe leftcmd rightcmd ihl ihr =>
    rw [Files.execCmd, List.map_append, ihl, ihr]
    rfl

/-! ## What a program finds open -/

/-- Exactly 0, 1 and 2 are open.  The shell got them over an `execve` itself, so
none of them is close-on-exec. -/
structure Standard (fds : Fds) : Prop where
  open_iff : ∀ i, (fds.get i).isSome ↔ i < 3
  inherited : ∀ i e, fds.get i = some e → e.cloexec = false

theorem Standard.clean (h : Standard fds) : fds.Clean 3 := by
  constructor
  · intro i hi
    obtain ⟨e, he⟩ := Option.isSome_iff_exists.mp ((h.open_iff i).mpr hi)
    exact ⟨e.desc, by rw [he, ← h.inherited i e he]⟩
  · intro i e hi he
    have hlt := (h.open_iff i).mp (Option.isSome_iff_exists.mpr ⟨e, he⟩)
    omega

/-- The standard output that the program of `s` has and the standard input that
the program of `t` has are the two ends of one pipe, unless they are redirected. -/
def Piped (s t : Stage) : Prop :=
  ∃ maker,
    (∀ fds, s.outcome = .execvp fds → ¬ s.cmd.Redirects stdoutFileno →
      fds.exec.get stdoutFileno = some ⟨.writeEnd maker, false⟩) ∧
    (∀ fds, t.outcome = .execvp fds → ¬ t.cmd.Redirects stdinFileno →
      fds.exec.get stdinFileno = some ⟨.readEnd maker, false⟩)

theorem Joined.piped {s t : Stage} (hs : s.Sound k) (ht : t.Sound k) (h : Joined s t) :
    Piped s t := by
  obtain ⟨maker, hout, hin⟩ := h
  refine ⟨maker, fun g hg hnot => ?_, fun g hg hnot => ?_⟩
  · rw [(hs.clean g hg).get_exec (by decide), hs.same g hg _ (by decide) hnot]
    exact hout
  · rw [(ht.clean g hg).get_exec (by decide), ht.same g hg _ (by decide) hnot]
    exact hin

/-- The programs of a command tree, however long its pipelines are: each finds
exactly 0, 1 and 2 open, neighbours are joined by a pipe, and none runs whose
redirections could not all be opened. -/
theorem execCmd_programs (k : Files) (tree : Cmd) {fds : Fds} (h : Standard fds) :
    (k.execCmd [] fds tree).map Stage.cmd = tree.leaves ∧
    (∀ s ∈ k.execCmd [] fds tree, ∀ g, s.outcome = .execvp g →
      ∀ i, (g.exec.get i).isSome ↔ i < 3) ∧
    (k.execCmd [] fds tree).IsChain Piped ∧
    ∀ s ∈ k.execCmd [] fds tree, ∀ g, s.outcome = .execvp g →
      ∀ fd, s.cmd.Opens fd → k.opens s.proc fd := by
  have hsound := @execCmd_sound k [] fds h.clean tree
  refine ⟨execCmd_leaves tree, fun s hs g hg => ((hsound s hs).clean g hg).exec, ?_,
    fun s hs => (hsound s hs).opened⟩
  refine (@execCmd_joint k [] fds h.clean tree).joined.imp_of_mem_imp fun s t hs ht hjoined => ?_
  exact hjoined.piped (hsound s hs) (hsound t ht)

/-- The descriptors of a shell on a terminal. -/
def terminal : Fds :=
  ⟨[some ⟨.inherited 0, false⟩, some ⟨.inherited 1, false⟩, some ⟨.inherited 2, false⟩]⟩

theorem terminal_standard : Standard terminal := by
  constructor
  · intro i
    match i with
    | 0 => decide
    | 1 => decide
    | 2 => decide
    | i + 3 => exact iff_of_false (by simp [terminal, Table.get]) (by omega)
  · intro i e h
    match i with
    | 0 => cases h; rfl
    | 1 => cases h; rfl
    | 2 => cases h; rfl
    | i + 3 => simp [terminal, Table.get] at h

/-- `a <in | b | c` in a directory without `in`: the second and the third program
run, with the second pipe between them. -/
def threeStages : Cmd :=
  .pipe (.exec { execCmdCreate [chr 'a'] with type := .redir, inFile := [chr 'i'] })
    (.pipe (.exec (execCmdCreate [chr 'b'])) (.exec (execCmdCreate [chr 'c'])))

def noInput : Files := ⟨fun _ fd => fd ≠ stdinFileno⟩

theorem threeStages_programs :
    (noInput.execCmd [] terminal threeStages).map Stage.cmd = threeStages.leaves ∧
    (∀ s ∈ noInput.execCmd [] terminal threeStages, ∀ g, s.outcome = .execvp g →
      ∀ i, (g.exec.get i).isSome ↔ i < 3) ∧
    (noInput.execCmd [] terminal threeStages).IsChain Piped ∧
    ∀ s ∈ noInput.execCmd [] terminal threeStages, ∀ g, s.outcome = .execvp g →
      ∀ fd, s.cmd.Opens fd → noInput.opens s.proc fd :=
  execCmd_programs noInput threeStages terminal_standard

example : (noInput.execCmd [] terminal threeStages).map (fun s => match s.outcome with
    | .execvp g => some (g.get 0, g.get 1)
    | _ => none) =
    [none,
      some (some ⟨.readEnd [], false⟩, some ⟨.writeEnd [.p2], false⟩),
      some (some ⟨.readEnd [.p2], false⟩, some ⟨.inherited 1, false⟩)] := by
  decide

end Shell
end Sisop

import Sisop.Lib.Reach
import Sisop.Shell.Status

/-!
# The shell, its children and SIGCHLD

The shell reads lines and runs them, its children terminate when they like, and
`bg_handler` interrupts it wherever a SIGCHLD finds it.  A SIGCHLD that arrives
while one is pending is merged into it.  The main program stands still while the
handler runs, and `SIGCHLD` is blocked meanwhile.

`last` is no variable of the shell.  It is the result of the last foreground
command or builtin that was completed: that of a pipeline is the result of its
rightmost command.
-/

namespace Sisop
namespace Shell

open TransitionSystem

/-- A child that has not been reaped.  `ended` is its wait status when it has
terminated. -/
structure ChildProcess where
  group : Nat
  ended : Option WaitStatus
  deriving DecidableEq, Repr

/-- Where `print_status_info` is: it reads `status` for each test and once more
for the value that it stores. -/
inductive PrintStep
  | testScmd
  | testExited
  | readExited
  | testSignaled
  | readSignaled
  | testStopped
  | readStopped
  | store (v : BitVec 32)
  deriving DecidableEq, Repr

/-- Where the shell is.  At the prompt it reads a line and parses it. -/
inductive Pc
  | prompt
  | grouping (parsed : Cmd)
  | forking (parsed : Cmd)
  | waiting (p : Nat) (parsed : Cmd)
  | waitingAny (parsed : Cmd)
  | printing (step : PrintStep) (parsed : Cmd)
  | freeing (parsed : Cmd)
  | exit
  | killed
  deriving DecidableEq, Repr

/-- Where `bg_handler` is.  It has `child_pid` and `exit_status` when `waitpid`
has reaped a child. -/
inductive HandlerPc
  | idle
  | entered
  | reaped (childPid : Nat) (exitStatus : BitVec 32)
  | returning
  deriving DecidableEq, Repr

structure Jobs where
  pc : Pc
  status : BitVec 32
  group : Nat
  children : Nat → Option ChildProcess
  pending : Bool
  handler : HandlerPc
  last : Int

/-- The process of the shell: its pid and its environment. -/
structure Login where
  pid : Nat
  getenv : List Byte → Option (List Byte)

/-- `NOTBACKPGID`. -/
def notBackPgid : Nat := 1000

inductive Event
  | line (buf : Ptr) (chdirs : Bool)
  | setpgid (ok : Bool)
  | fork (p : Option Nat)
  | wait
  | waitAny (q : Option Nat)
  | print
  | free
  /-- Child `p` ends with `w`; `right` is how its rightmost command ended. -/
  | terminate (p : Nat) (w right : WaitStatus)
  /-- A SIGCHLD that no termination sends: of a child that stops, say. -/
  | sigchld
  | deliver
  | reap (q : Option Nat)
  | store
  | ret

variable (sh : Login)

/-- The builtins and the parser. -/
def Jobs.readLine (s : Jobs) (buf : Ptr) (chdirs : Bool) : Jobs :=
  if buf.bytes.head?.getD 0 = 0 then s
  else if cd buf.bytes then
    { s with status := if chdirs then 0 else 1, last := if chdirs then 0 else 1 }
  else if exitShell buf.bytes then { s with pc := .exit }
  else if pwd buf.bytes then { s with status := 0, last := 0 }
  else match parseLine sizes ⟨sh.getenv, s.status.toInt⟩ buf with
    | none => { s with pc := .killed }
    | some .null => { s with pc := .killed }
    | some parsed => { s with pc := .grouping parsed }

/-- The group that `run_cmd` asks for.  The shell can always have its own; group
1000 is refused unless there is one in its session. -/
def Jobs.setpgid (s : Jobs) (parsed : Cmd) (ok : Bool) : Nat :=
  if parsed.type = some .back then sh.pid
  else if ok then notBackPgid else s.group

def Jobs.setChild (s : Jobs) (p : Nat) (c : Option ChildProcess) : Jobs :=
  { s with children := fun q => if q = p then c else s.children q }

/-- One step of `print_status_info`. -/
def Jobs.printStep (s : Jobs) (parsed : Cmd) : PrintStep → Jobs
  | .testScmd =>
    if parsed.scmd = some [] ∨ parsed.type = some .pipe then { s with pc := .freeing parsed }
    else { s with pc := .printing .testExited parsed }
  | .testExited =>
    { s with pc := .printing (if wifexited s.status then .readExited else .testSignaled) parsed }
  | .readExited => { s with pc := .printing (.store (wexitstatus s.status)) parsed }
  | .testSignaled =>
    { s with pc := .printing (if wifsignaled s.status then .readSignaled else .testStopped) parsed }
  | .readSignaled => { s with pc := .printing (.store (-wtermsig s.status)) parsed }
  | .testStopped =>
    if wtermsig s.status ≠ 0 then { s with pc := .printing .readStopped parsed }
    else { s with pc := .freeing parsed }
  | .readStopped => { s with pc := .printing (.store (-wstopsig s.status)) parsed }
  | .store v => { s with status := v, pc := .freeing parsed }

/-- The main program: `run_cmd` from the prompt on. -/
def Jobs.main (s : Jobs) : Event → Option Jobs
  | .line buf chdirs =>
    match s.pc with
    | .prompt => some (s.readLine sh buf chdirs)
    | _ => none
  | .setpgid ok =>
    match s.pc with
    | .grouping parsed =>
      some { s with group := s.setpgid sh parsed ok, pc := .forking parsed }
    | _ => none
  | .fork (some p) =>
    match s.pc with
    | .forking parsed =>
      if p = 0 ∨ p = sh.pid ∨ s.children p ≠ none then none
      else some { s.setChild p (some ⟨s.group, none⟩) with
        pc := if parsed.type = some .back then .freeing parsed else .waiting p parsed }
    | _ => none
  | .fork none =>
    match s.pc with
    | .forking parsed =>
      some { s with pc := if parsed.type = some .back then .freeing parsed else .waitingAny parsed }
    | _ => none
  | .wait =>
    match s.pc with
    | .waiting p parsed =>
      match s.children p with
      | some ⟨_, some w⟩ =>
        some { s.setChild p none with status := w.raw, pc := .printing .testScmd parsed }
      | some ⟨_, none⟩ => none
      | none => some { s with pc := .printing .testScmd parsed }
    | _ => none
  | .waitAny (some q) =>
    match s.pc with
    | .waitingAny parsed =>
      match s.children q with
      | some ⟨_, some w⟩ =>
        some { s.setChild q none with status := w.raw, pc := .printing .testScmd parsed }
      | _ => none
    | _ => none
  | .print =>
    match s.pc with
    | .printing step parsed => some (s.printStep parsed step)
    | _ => none
  | .free =>
    match s.pc with
    | .freeing parsed =>
      some { s with pc := if (freeCommand parsed).isSome then .prompt else .killed }
    | _ => none
  | _ => none

/-- The result of a foreground command. -/
def result (parsed : Cmd) (w right : WaitStatus) : Int :=
  if parsed.type = some .pipe then right.decoded else w.decoded

/-- The last result when child `p` has ended. -/
def Jobs.lastAfter (s : Jobs) (p : Nat) (w right : WaitStatus) : Int :=
  match s.pc with
  | .waiting q parsed => if q = p then result parsed w right else s.last
  | _ => s.last

/-- Child `p` is a zombie of group `g`. -/
def Jobs.Zombie (s : Jobs) (g p : Nat) : Prop := ∃ w, s.children p = some ⟨g, some w⟩

/-- The children and the handler. -/
def Jobs.async (s : Jobs) : Event → Option Jobs
  | .terminate p w right =>
    match s.children p with
    | some ⟨g, none⟩ =>
      some { s.setChild p (some ⟨g, some w⟩) with
        pending := true
        last := s.lastAfter p w right }
    | _ => none
  | .sigchld => some { s with pending := true }
  | .deliver =>
    if s.pending ∧ s.handler = .idle then some { s with pending := false, handler := .entered }
    else none
  | .reap (some q) =>
    match s.handler, s.children q with
    | .entered, some ⟨g, some w⟩ =>
      if g = s.group then some { s.setChild q none with handler := .reaped q w.raw } else none
    | _, _ => none
  | .store =>
    match s.handler with
    | .reaped _ exitStatus => some { s with status := exitStatus, handler := .returning }
    | _ => none
  | .ret =>
    match s.handler with
    | .returning => some { s with handler := .idle }
    | _ => none
  | _ => none

/-- One step.  `waitpid` of the handler returns without a child only when no
child of the group has terminated, and `waitpid` of any child only when there is
none. -/
inductive Jobs.Step (s : Jobs) : Event → Jobs → Prop
  | main {e : Event} {s' : Jobs} (idle : s.handler = .idle) (h : s.main sh e = some s') :
      Step s e s'
  | async {e : Event} {s' : Jobs} (h : s.async e = some s') : Step s e s'
  | reapNone (entered : s.handler = .entered) (quiet : ∀ q, ¬ s.Zombie s.group q) :
      Step s (.reap none) { s with handler := .returning }
  | waitNone {parsed : Cmd} (idle : s.handler = .idle) (pc : s.pc = .waitingAny parsed)
      (alone : ∀ q, s.children q = none) :
      Step s (.waitAny none) { s with pc := .printing .testScmd parsed }

/-- The shell when it starts. -/
def startJobs (group : Nat) : Jobs :=
  ⟨.prompt, 0, group, fun _ => none, false, .idle, 0⟩

def jobs : TransitionSystem Jobs Event where
  init s := ∃ group, s = startJobs group
  step s e s' := s.Step sh e s'

variable {sh} {s s' : Jobs} {e : Event} {p q g : Nat} {c : Option ChildProcess}

/-! ## What a step can do -/

theorem setChild_zombie (h : (s.setChild p c).Zombie g q) :
    (q = p ∧ ∃ w, c = some ⟨g, some w⟩) ∨ (q ≠ p ∧ s.Zombie g q) := by
  obtain ⟨w, hw⟩ := h
  simp only [Jobs.setChild] at hw
  split at hw
  · rename_i hq
    exact .inl ⟨hq, w, hw⟩
  · rename_i hq
    exact .inr ⟨hq, w, hw⟩

/-- What the main program leaves alone. -/
structure MainFrame (s s' : Jobs) : Prop where
  handler : s'.handler = s.handler
  pending : s'.pending = s.pending
  zombie : ∀ g q, s'.Zombie g q → s.Zombie g q

theorem MainFrame.of_eq (hh : s'.handler = s.handler) (hp : s'.pending = s.pending)
    (hc : s'.children = s.children) : MainFrame s s' :=
  ⟨hh, hp, fun g q ⟨w, hw⟩ => ⟨w, by rw [← hc]; exact hw⟩⟩

/-- What a line does at the prompt. -/
theorem readLine_cases (buf : Ptr) (chdirs : Bool) :
    s.readLine sh buf chdirs = s ∨
    (∃ code : BitVec 8, s.readLine sh buf chdirs =
      { s with status := code.setWidth 32, last := (WaitStatus.exited code).decoded }) ∨
    s.readLine sh buf chdirs = { s with pc := .exit } ∨
    s.readLine sh buf chdirs = { s with pc := .killed } ∨
    ∃ parsed, parseLine sizes ⟨sh.getenv, s.status.toInt⟩ buf = some parsed ∧ parsed ≠ .null ∧
      s.readLine sh buf chdirs = { s with pc := .grouping parsed } := by
  unfold Jobs.readLine
  split
  · exact .inl rfl
  split
  · cases chdirs
    · exact .inr (.inl ⟨1, rfl⟩)
    · exact .inr (.inl ⟨0, rfl⟩)
  split
  · exact .inr (.inr (.inl rfl))
  split
  · exact .inr (.inl ⟨0, rfl⟩)
  split
  · exact .inr (.inr (.inr (.inl rfl)))
  · exact .inr (.inr (.inr (.inl rfl)))
  · rename_i parsed hnull hparse
    exact .inr (.inr (.inr (.inr ⟨parsed, hparse, hnull, rfl⟩)))

/-- What the main program can do. -/
theorem main_cases (h : s.main sh e = some s') :
    (∃ buf chdirs, e = .line buf chdirs ∧ s.pc = .prompt ∧ s' = s.readLine sh buf chdirs) ∨
    (∃ ok parsed, e = .setpgid ok ∧ s.pc = .grouping parsed ∧
      s' = { s with group := s.setpgid sh parsed ok, pc := .forking parsed }) ∨
    (∃ p parsed, e = .fork (some p) ∧ s.pc = .forking parsed ∧ s.children p = none ∧
      s' = { s.setChild p (some ⟨s.group, none⟩) with
        pc := if parsed.type = some .back then .freeing parsed else .waiting p parsed }) ∨
    (∃ parsed, e = .fork none ∧ s.pc = .forking parsed ∧
      s' = { s with
        pc := if parsed.type = some .back then .freeing parsed else .waitingAny parsed }) ∨
    (∃ p parsed g w, e = .wait ∧ s.pc = .waiting p parsed ∧ s.children p = some ⟨g, some w⟩ ∧
      s' = { s.setChild p none with status := w.raw, pc := .printing .testScmd parsed }) ∨
    (∃ p parsed, e = .wait ∧ s.pc = .waiting p parsed ∧ s.children p = none ∧
      s' = { s with pc := .printing .testScmd parsed }) ∨
    (∃ q parsed w, e = .waitAny (some q) ∧ s.pc = .waitingAny parsed ∧
      s' = { s.setChild q none with status := w, pc := .printing .testScmd parsed }) ∨
    (∃ step parsed, e = .print ∧ s.pc = .printing step parsed ∧
      s' = s.printStep parsed step) ∨
    (∃ parsed, e = .free ∧ s.pc = .freeing parsed ∧
      s' = { s with pc := if (freeCommand parsed).isSome then .prompt else .killed }) := by
  unfold Jobs.main at h
  split at h
  · split at h
    · rename_i hpc
      cases h
      exact .inl ⟨_, _, rfl, hpc, rfl⟩
    · cases h
  · split at h
    · rename_i hpc
      cases h
      exact .inr (.inl ⟨_, _, rfl, hpc, rfl⟩)
    · cases h
  · split at h
    · rename_i hpc
      split at h
      · cases h
      · rename_i hfresh
        cases h
        refine .inr (.inr (.inl ⟨_, _, rfl, hpc, ?_, rfl⟩))
        exact Decidable.not_not.mp fun hused => hfresh (.inr (.inr hused))
    · cases h
  · split at h
    · rename_i hpc
      cases h
      exact .inr (.inr (.inr (.inl ⟨_, rfl, hpc, rfl⟩)))
    · cases h
  · split at h
    · rename_i hpc
      split at h
      · rename_i hzombie
        cases h
        exact .inr (.inr (.inr (.inr (.inl ⟨_, _, _, _, rfl, hpc, hzombie, rfl⟩))))
      · cases h
      · rename_i hgone
        cases h
        exact .inr (.inr (.inr (.inr (.inr (.inl ⟨_, _, rfl, hpc, hgone, rfl⟩)))))
    · cases h
  · split at h
    · rename_i hpc
      split at h
      · cases h
        exact .inr (.inr (.inr (.inr (.inr (.inr (.inl ⟨_, _, _, rfl, hpc, rfl⟩))))))
      · cases h
    · cases h
  · split at h
    · rename_i hpc
      cases h
      exact .inr (.inr (.inr (.inr (.inr (.inr (.inr (.inl ⟨_, _, rfl, hpc, rfl⟩)))))))
    · cases h
  · split at h
    · rename_i hpc
      cases h
      exact .inr (.inr (.inr (.inr (.inr (.inr (.inr (.inr ⟨_, rfl, hpc, rfl⟩)))))))
    · cases h
  · cases h

theorem printStep_frame (parsed : Cmd) (step : PrintStep) :
    MainFrame s (s.printStep parsed step) ∧ (s.printStep parsed step).group = s.group := by
  unfold Jobs.printStep
  cases step <;> dsimp only <;> (try split) <;> exact ⟨.of_eq rfl rfl rfl, rfl⟩

theorem setChild_frame (hc : ∀ g w, c ≠ some ⟨g, some w⟩) : MainFrame s (s.setChild p c) := by
  refine ⟨rfl, rfl, fun g q hz => ?_⟩
  obtain ⟨-, w, hw⟩ | ⟨-, hz⟩ := setChild_zombie hz
  · exact absurd hw (hc g w)
  · exact hz

/-- The main program lets `setpgid` alone change the group. -/
theorem main_frame (h : s.main sh e = some s') :
    MainFrame s s' ∧ (s'.group = s.group ∨
      ∃ ok parsed, e = .setpgid ok ∧ s.pc = .grouping parsed ∧
        s'.group = s.setpgid sh parsed ok) := by
  obtain ⟨buf, chdirs, -, -, rfl⟩ | ⟨ok, parsed, rfl, hpc, rfl⟩ | ⟨p, parsed, -, -, -, rfl⟩ |
    ⟨parsed, -, -, rfl⟩ | ⟨p, parsed, g, w, -, -, -, rfl⟩ | ⟨p, parsed, -, -, -, rfl⟩ |
    ⟨q, parsed, w, -, -, rfl⟩ | ⟨step, parsed, -, -, rfl⟩ | ⟨parsed, -, -, rfl⟩ := main_cases h
  · obtain heq | ⟨code, heq⟩ | heq | heq | ⟨parsed, -, -, heq⟩ := @readLine_cases sh s buf chdirs <;>
      rw [heq] <;> exact ⟨.of_eq rfl rfl rfl, .inl rfl⟩
  · exact ⟨.of_eq rfl rfl rfl, .inr ⟨ok, parsed, rfl, hpc, rfl⟩⟩
  · obtain ⟨hh, hp, hz⟩ := @setChild_frame s p (some ⟨s.group, none⟩) nofun
    exact ⟨⟨hh, hp, hz⟩, .inl rfl⟩
  · exact ⟨.of_eq rfl rfl rfl, .inl rfl⟩
  · obtain ⟨hh, hp, hz⟩ := @setChild_frame s p none nofun
    exact ⟨⟨hh, hp, hz⟩, .inl rfl⟩
  · exact ⟨.of_eq rfl rfl rfl, .inl rfl⟩
  · obtain ⟨hh, hp, hz⟩ := @setChild_frame s q none nofun
    exact ⟨⟨hh, hp, hz⟩, .inl rfl⟩
  · obtain ⟨hframe, hgroup⟩ := @printStep_frame s parsed step
    exact ⟨hframe, .inl hgroup⟩
  · exact ⟨.of_eq rfl rfl rfl, .inl rfl⟩

/-- What a child or the handler can do. -/
theorem async_cases (h : s.async e = some s') :
    (∃ p w right g, e = .terminate p w right ∧ s.children p = some ⟨g, none⟩ ∧
      s' = { s.setChild p (some ⟨g, some w⟩) with
        pending := true
        last := s.lastAfter p w right }) ∨
    (e = .sigchld ∧ s' = { s with pending := true }) ∨
    (e = .deliver ∧ s.pending = true ∧ s.handler = .idle ∧
      s' = { s with pending := false, handler := .entered }) ∨
    (∃ q w, e = .reap (some q) ∧ s.handler = .entered ∧
      s.children q = some ⟨s.group, some w⟩ ∧
      s' = { s.setChild q none with handler := .reaped q w.raw }) ∨
    (∃ q exitStatus, e = .store ∧ s.handler = .reaped q exitStatus ∧
      s' = { s with status := exitStatus, handler := .returning }) ∨
    (e = .ret ∧ s.handler = .returning ∧ s' = { s with handler := .idle }) := by
  unfold Jobs.async at h
  split at h
  · split at h
    · rename_i hp
      cases h
      exact .inl ⟨_, _, _, _, rfl, hp, rfl⟩
    · cases h
  · cases h
    exact .inr (.inl ⟨rfl, rfl⟩)
  · split at h
    · rename_i hok
      cases h
      exact .inr (.inr (.inl ⟨rfl, hok.1, hok.2, rfl⟩))
    · cases h
  · split at h
    · rename_i hentered hq
      split at h
      · rename_i hgroup
        cases h
        exact .inr (.inr (.inr (.inl ⟨_, _, rfl, hentered, hgroup ▸ hq, rfl⟩)))
      · cases h
    · cases h
  · split at h
    · rename_i hreaped
      cases h
      exact .inr (.inr (.inr (.inr (.inl ⟨_, _, rfl, hreaped, rfl⟩))))
    · cases h
  · split at h
    · rename_i hret
      cases h
      exact .inr (.inr (.inr (.inr (.inr ⟨rfl, hret, rfl⟩))))
    · cases h
  · cases h

end Shell
end Sisop

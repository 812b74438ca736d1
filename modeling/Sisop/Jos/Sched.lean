import Sisop.Jos.Env

/-!
# The scheduler

`kern/sched.c` in both of its builds, and `env_destroy`, which ends in it when
the environment destroyed is the current one.

The search starts at the slot after the current environment's.  For the last
slot that is `envs[NENV]`, one past the end of the table, which the source reads
before it reduces the index.
-/

namespace Sisop
namespace Jos

def minPriority : Int := 0x100

variable (M : Machine)

/-- Whether the search takes the environment in slot `i`. -/
def schedulable (s : KState) (i : Nat) : Bool :=
  match M.build with
  | .roundRobin => (s.envs i).envStatus = .runnable
  | .priorities => (s.envs i).envStatus = .runnable ∧ (s.envs i).envPriority < minPriority

/-- The search of `sched_yield`: at most one turn around `envs`, stopping at the
first environment taken. -/
def schedScan (s : KState) (start : Nat) : Nat → Nat → Option Nat
  | 0, _ => none
  | fuel + 1, i =>
      if schedulable M s i then some i
      else if (i + 1) % nenv = start then none
      else schedScan s start fuel ((i + 1) % nenv)

/-- `sched_halt`. -/
def schedHalt (s : KState) (c : Nat) : Stop :=
  if (List.range nenv).any fun i => (s.envs i).envStatus = .runnable ∨
      (s.envs i).envStatus = .running ∨ (s.envs i).envStatus = .dying then
    let s := (s.setCurenv c none).lcr3 c M.kernPgdir
    .left (s.setCpu c fun cpu => { cpu with cpuStatus := .halted })
  else .monitor

def countYield (s : KState) : KState :=
  { s with stats := { s.stats with numberOfYields := s.stats.numberOfYields + 1#32 } }

def countSwitch (s : KState) : KState :=
  { s with stats := { s.stats with numberOfSwitches := s.stats.numberOfSwitches + 1#32 } }

/-- With priorities, every tenth switch puts all runnable environments back at
the best one. -/
def schedBoost (s : KState) : KState :=
  match M.build with
  | .roundRobin => s
  | .priorities =>
      if s.stats.numberOfSwitches.srem 10#32 = 0#32 then
        { s with
          stats := { s.stats with numberOfBoosts := s.stats.numberOfBoosts + 1#32 }
          envs := fun i =>
            if i < nenv ∧ (s.envs i).envStatus = .runnable then { s.envs i with envPriority := 0 }
            else s.envs i }
      else s

/-- With priorities, the current environment pays for the switch with one step. -/
def schedAge (s : KState) (c : Nat) : KState :=
  match M.build, s.curenv c with
  | .roundRobin, _ => s
  | .priorities, none => s
  | .priorities, some cur =>
      if (s.envs cur).envPriority < minPriority - 1 then
        s.setEnv cur fun env => { env with envPriority := env.envPriority + 1 }
      else s

/-- Where the search starts: after the current environment. -/
def schedStart (s : KState) (c : Nat) : Nat :=
  match s.curenv c with
  | some cur => envx (s.envs cur).envId + 1
  | none => 0

def schedYield (s : KState) (c : Nat) : Stop :=
  let s := schedBoost M (countYield s)
  let start := schedStart s c
  if nenv ≤ start then .undefined "envs[NENV] read by sched_yield"
  else
    match schedScan M s start nenv start with
    | some next => envRun (countSwitch (schedAge M s c)) c next
    | none =>
        match s.curenv c with
        | some cur =>
            if (s.envs cur).envStatus = .running ∧ (s.envs cur).envCpunum = c then envRun s c cur
            else schedHalt M s c
        | none => schedHalt M s c

/-- `env_destroy`, which returns unless the environment is the current one. -/
def envDestroy (s : KState) (c e : Nat) : Except Stop KState :=
  if (s.envs e).envStatus = .running ∧ s.curenv c ≠ some e then
    .ok (s.setStatus e .dying)
  else do
    let s ← envFree M s c e
    if s.curenv c = some e then .error (schedYield M (s.setCurenv c none) c) else pure s

end Jos
end Sisop

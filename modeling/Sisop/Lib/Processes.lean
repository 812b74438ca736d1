import Mathlib.Logic.Function.Basic
import Mathlib.Data.List.Basic
import Sisop.Lib.Reach

/-!
# Processes and pipes

Processes that run programs over a few system calls.  A program maps the control
state of a process to the call it makes there and to where it goes on.  The
content of a pipe is a queue of whole items, and each pipe has a capacity.

A process holds ends of pipes.  `fork` copies them and `exit` gives them up.  A
`read` of an empty pipe returns end-of-file once no process holds a write end.

A call that would fail (of an end that the process does not hold, a write without
a reader, a wait without a child) never returns here, so a network without stuck
processes is one in which no call fails.
-/

namespace Processes

open TransitionSystem

inductive End
  | readEnd (pipe : Nat)
  | writeEnd (pipe : Nat)
  deriving DecidableEq, Repr

/-- The calls and where the process goes on. -/
inductive Call (α β : Type)
  | close (e : End) (k : α)
  | pipe (k : Nat → α)
  | fork (child k : α)
  | read (pipe : Nat) (k : β → α) (eof : α)
  | write (pipe : Nat) (v : β) (k : α)
  | print (v : β) (k : α)
  | wait (k : α)
  | tau (k : α)
  | exit
  | undefined

/-- `control` is `none` when the process has exited.  `children` are those it has
not waited for. -/
structure Process (α : Type) where
  control : Option α
  ends : List End
  children : List Nat

/-- The processes and the pipes are numbered as they are made. -/
structure Net (α β : Type) where
  count : Nat
  procs : Nat → Process α
  made : Nat
  pipes : Nat → List β
  out : List β

variable {α β : Type}

def Net.setProc (s : Net α β) (i : Nat) (p : Process α) : Net α β :=
  { s with procs := Function.update s.procs i p }

def Net.setPipe (s : Net α β) (k : Nat) (l : List β) : Net α β :=
  { s with pipes := Function.update s.pipes k l }

/-- Some process holds the end. -/
def Net.Held (s : Net α β) (e : End) : Prop := ∃ i, i < s.count ∧ e ∈ (s.procs i).ends

instance (s : Net α β) (e : End) : Decidable (s.Held e) :=
  inferInstanceAs (Decidable (∃ i, i < s.count ∧ _))

def Net.exited (s : Net α β) (i : Nat) : Bool := (s.procs i).control.isNone

/-- What process `i` does at `c`. -/
def Net.call (cap : Nat → Nat) (s : Net α β) (i : Nat) (c : Call α β) : Option (Net α β) :=
  let p := s.procs i
  match c with
  | .close e k =>
    some (s.setProc i { p with control := some k, ends := p.ends.filter (· ≠ e) })
  | .pipe k =>
    some { s.setProc i
        { p with
          control := some (k s.made)
          ends := .readEnd s.made :: .writeEnd s.made :: p.ends } with
      made := s.made + 1 }
  | .fork child k =>
    some { (s.setProc i { p with control := some k, children := s.count :: p.children }).setProc
        s.count ⟨some child, p.ends, []⟩ with
      count := s.count + 1 }
  | .read pipe k eof =>
    if .readEnd pipe ∈ p.ends then
      match s.pipes pipe with
      | v :: rest => some ((s.setProc i { p with control := some (k v) }).setPipe pipe rest)
      | [] =>
        if s.Held (.writeEnd pipe) then none else some (s.setProc i { p with control := some eof })
    else none
  | .write pipe v k =>
    if .writeEnd pipe ∈ p.ends ∧ s.Held (.readEnd pipe) ∧ (s.pipes pipe).length < cap pipe then
      some ((s.setProc i { p with control := some k }).setPipe pipe (s.pipes pipe ++ [v]))
    else none
  | .print v k => some { s.setProc i { p with control := some k } with out := s.out ++ [v] }
  | .wait k =>
    match p.children.find? s.exited with
    | some q => some (s.setProc i { p with control := some k, children := p.children.erase q })
    | none => none
  | .tau k => some (s.setProc i { p with control := some k })
  | .exit => some (s.setProc i { p with control := none, ends := [] })
  | .undefined => none

/-- Process `i` takes a step. -/
def Net.step (prog : α → Call α β) (cap : Nat → Nat) (s : Net α β) (i : Nat) :
    Option (Net α β) :=
  if i < s.count then
    match (s.procs i).control with
    | some a => s.call cap i (prog a)
    | none => none
  else none

/-- One process without descriptors. -/
def Net.start (a : α) : Net α β :=
  ⟨1, fun _ => ⟨some a, [], []⟩, 0, fun _ => [], []⟩

def network (prog : α → Call α β) (cap : Nat → Nat) (a : α) : TransitionSystem (Net α β) Nat where
  init s := s = Net.start a
  step s i s' := s.step prog cap i = some s'

/-- Some process has not exited. -/
def Net.Alive (s : Net α β) : Prop := ∃ i, i < s.count ∧ (s.procs i).control ≠ none

/-- No process can take a step. -/
def Net.Stuck (prog : α → Call α β) (cap : Nat → Nat) (s : Net α β) : Prop :=
  ∀ i, s.step prog cap i = none

/-! ## What a call changes -/

/-- Where a process is after a call: it goes on at `some k` or has exited. -/
inductive Call.Goes : Call α β → Option α → Prop
  | close {e : End} {k : α} : Goes (.close e k) (some k)
  | pipe {k : Nat → α} (m : Nat) : Goes (.pipe k) (some (k m))
  | fork {child k : α} : Goes (.fork child k) (some k)
  | read {pipe : Nat} {k : β → α} {eof : α} (v : β) : Goes (.read pipe k eof) (some (k v))
  | eof {pipe : Nat} {k : β → α} {eof : α} : Goes (.read pipe k eof) (some eof)
  | write {pipe : Nat} {v : β} {k : α} : Goes (.write pipe v k) (some k)
  | print {v : β} {k : α} : Goes (.print v k) (some k)
  | wait {k : α} : Goes (.wait k) (some k)
  | tau {k : α} : Goes (.tau k) (some k)
  | exit : Goes .exit none

/-- What a call prints. -/
def Call.printed : Call α β → List β
  | .print v _ => [v]
  | _ => []

/-- Where the process that a call makes starts. -/
def Call.child : Call α β → Option α
  | .fork child _ => some child
  | _ => none

variable {cap : Nat → Nat} {s s' : Net α β} {i j : Nat} {c : Call α β}

theorem setProc_control {p : Process α} : ((s.setProc i p).procs i).control = p.control := by
  simp [Net.setProc]

/-- The other processes stay as they are. -/
theorem call_other (h : s.call cap i c = some s') (hj : j < s.count) (hne : j ≠ i) :
    s'.procs j = s.procs j := by
  have hset : ∀ p, (s.setProc i p).procs j = s.procs j := fun p => by simp [Net.setProc, hne]
  unfold Net.call at h
  cases c with
  | close e k =>
    cases h
    exact hset _
  | pipe k =>
    cases h
    exact hset _
  | fork child k =>
    cases h
    have hlt : j ≠ s.count := Nat.ne_of_lt hj
    simp [Net.setProc, hlt, hne]
  | read pipe k eof =>
    dsimp only at h
    split at h
    · split at h
      · cases h
        exact hset _
      · split at h
        · cases h
        · cases h
          exact hset _
    · cases h
  | write pipe v k =>
    dsimp only at h
    split at h
    · cases h
      exact hset _
    · cases h
  | print v k =>
    cases h
    exact hset _
  | wait k =>
    dsimp only at h
    split at h
    · cases h
      exact hset _
    · cases h
  | tau k =>
    cases h
    exact hset _
  | exit =>
    cases h
    exact hset _
  | undefined => cases h

theorem call_goes (h : s.call cap i c = some s') (hi : i < s.count) :
    ∃ d, c.Goes d ∧ (s'.procs i).control = d := by
  unfold Net.call at h
  cases c with
  | close e k =>
    cases h
    exact ⟨_, .close, setProc_control⟩
  | pipe k =>
    cases h
    exact ⟨_, .pipe s.made, setProc_control⟩
  | fork child k =>
    cases h
    have hne : i ≠ s.count := Nat.ne_of_lt hi
    refine ⟨_, .fork, ?_⟩
    simp [Net.setProc, Function.update_of_ne hne]
  | read pipe k eof =>
    dsimp only at h
    split at h
    · split at h
      · rename_i v rest hpipe
        cases h
        exact ⟨_, .read v, setProc_control⟩
      · split at h
        · cases h
        · cases h
          exact ⟨_, .eof, setProc_control⟩
    · cases h
  | write pipe v k =>
    dsimp only at h
    split at h
    · cases h
      exact ⟨_, .write, setProc_control⟩
    · cases h
  | print v k =>
    cases h
    exact ⟨_, .print, setProc_control⟩
  | wait k =>
    dsimp only at h
    split at h
    · cases h
      exact ⟨_, .wait, setProc_control⟩
    · cases h
  | tau k =>
    cases h
    exact ⟨_, .tau, setProc_control⟩
  | exit =>
    cases h
    exact ⟨_, .exit, setProc_control⟩
  | undefined => cases h

/-- What has been printed, and how many processes there are. -/
theorem call_counts (h : s.call cap i c = some s') :
    s'.out = s.out ++ c.printed ∧ s'.count = s.count + c.child.toList.length := by
  unfold Net.call at h
  cases c with
  | close e k | pipe k | print v k | fork child k | tau k | exit =>
    cases h
    simp [Call.printed, Call.child, Net.setProc]
  | read pipe k eof =>
    dsimp only at h
    split at h
    · split at h
      · cases h
        simp [Call.printed, Call.child, Net.setProc, Net.setPipe]
      · split at h
        · cases h
        · cases h
          simp [Call.printed, Call.child, Net.setProc]
    · cases h
  | write pipe v k =>
    dsimp only at h
    split at h
    · cases h
      simp [Call.printed, Call.child, Net.setProc, Net.setPipe]
    · cases h
  | wait k =>
    dsimp only at h
    split at h
    · cases h
      simp [Call.printed, Call.child, Net.setProc]
    · cases h
  | undefined => cases h

theorem call_child {d : α} (h : s.call cap i c = some s') (hd : c.child = some d) :
    (s'.procs s.count).control = some d := by
  cases c with
  | fork child k =>
    cases h
    cases hd
    simp [Net.setProc]
  | close e k | pipe k | print v k | read pipe k eof | write pipe v k | wait k | tau k | exit
  | undefined => cases hd

end Processes

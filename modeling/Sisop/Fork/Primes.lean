import Mathlib.Algebra.BigOperators.Group.Finset.Basic
import Mathlib.Algebra.Order.BigOperators.Group.Finset
import Sisop.Lib.Processes
import Sisop.Lib.Sieve

/-!
# The program primes

`main` makes a pipe, forks the first receiver and sends it the numbers from 2 to
`n`.  A receiver prints the first number it reads, makes a pipe, forks the next
receiver and sends it the numbers that the first one does not divide.

`Pc` is where a process is, with the values of the variables that it still needs.
A number stands for one write of `sizeof(int)` bytes.  The numbers sent are at
least 2, so `%` is the one of the natural numbers; the `p++` of `send_numbers`
has no meaning in C at the largest `int`.
-/

namespace Sisop
namespace Fork

open Processes Sieve

inductive Pc
  | main
  | mainFork (current : Nat)
  | mainFather (current : Nat)
  | sendNumbers (current p : Nat)
  | sent (current p : Nat)
  | receiveNumbers (current : Nat)
  | readFirst (current : Nat)
  | noFirst (current : Nat)
  | printf (current p : Nat)
  | nextPipe (current p : Nat)
  | fork (current next p : Nat)
  | child (current next : Nat)
  | father (current next p : Nat)
  | sendPrimes (current next p : Nat)
  | candidate (current next p n : Nat)
  | closeNext (current next : Nat)
  | closeCurrent (current : Nat)
  | wait
  | exit
  deriving DecidableEq, Repr

/-- `INT_MAX`. -/
def intMax : Nat := 2147483647

variable (n : BitVec 32)

def prog : Pc → Call Pc Nat
  | .main => .pipe fun current => .mainFork current
  | .mainFork current => .fork (.receiveNumbers current) (.mainFather current)
  | .mainFather current => .close (.readEnd current) (.sendNumbers current 2)
  | .sendNumbers current p =>
    if (p : Int) ≤ n.toInt then .write current p (.sent current p)
    else .close (.writeEnd current) .wait
  | .sent current p => if p = intMax then .undefined else .tau (.sendNumbers current (p + 1))
  | .receiveNumbers current => .close (.writeEnd current) (.readFirst current)
  | .readFirst current => .read current (fun p => .printf current p) (.noFirst current)
  | .noFirst current => .close (.readEnd current) .exit
  | .printf current p => .print p (.nextPipe current p)
  | .nextPipe current p => .pipe fun next => .fork current next p
  | .fork current next p => .fork (.child current next) (.father current next p)
  | .child current next => .close (.readEnd current) (.receiveNumbers next)
  | .father current next p => .close (.readEnd next) (.sendPrimes current next p)
  | .sendPrimes current next p =>
    .read current (fun n => .candidate current next p n) (.closeNext current next)
  | .candidate current next p n =>
    if n % p ≠ 0 then .write next n (.sendPrimes current next p)
    else .tau (.sendPrimes current next p)
  | .closeNext current next => .close (.writeEnd next) (.closeCurrent current)
  | .closeCurrent current => .close (.readEnd current) .wait
  | .wait => .wait .exit
  | .exit => .exit

abbrev State := Net Pc Nat

/-- The program with the argument `n`. -/
def primes (cap : Nat → Nat) : TransitionSystem State Nat := network (prog n) cap .main

/-- The numbers that `main` sends are those from 2 to this one. -/
def bound : Nat := n.toInt.toNat

theorem le_bound {p : Nat} (hp : 2 ≤ p) : (p : Int) ≤ n.toInt ↔ p ≤ bound n := by
  unfold bound
  omega

/-! ## Streams -/

/-- What a process with a child still sends into its next pipe, when `l` is what it
still gets from its current one. -/
def emits (c : Option Pc) (l : List Nat) : List Nat :=
  match c with
  | some (.mainFather _) => upTo 2 (bound n)
  | some (.sendNumbers _ p) => upTo p (bound n)
  | some (.sent _ p) => upTo (p + 1) (bound n)
  | some (.father _ _ p) | some (.sendPrimes _ _ p) => strain p l
  | some (.candidate _ _ p m) => strain p (m :: l)
  | _ => []

/-- What process `j` still gets from its current pipe. -/
def stream (s : State) : Nat → List Nat
  | 0 => []
  | j + 1 => s.pipes j ++ emits n (s.procs j).control (stream s j)

/-- What the last process of the chain and its descendants still print. -/
def owed (c : Option Pc) (l : List Nat) : List Nat :=
  match c with
  | some .main | some (.mainFork _) => sieve (upTo 2 (bound n))
  | some (.receiveNumbers _) | some (.readFirst _) | some (.child _ _) => sieve l
  | some (.printf _ p) => p :: sieve (strain p l)
  | some (.nextPipe _ p) | some (.fork _ _ p) => sieve (strain p l)
  | _ => []

/-! ## How many steps are left -/

/-- The steps of a receiver that gets `l` numbers and of its descendants, from
its first read on. -/
def work : Nat → Nat
  | 0 => 3
  | l + 1 => work l + 2 * l + 12

/-- The steps of a process at `c` that still gets `l` numbers, with those of the
descendants that it has not forked yet. -/
def cost (c : Option Pc) (l : Nat) : Nat :=
  match c with
  | some .main => 2 * (upTo 2 (bound n)).length + work (upTo 2 (bound n)).length + 7
  | some (.mainFork _) => 2 * (upTo 2 (bound n)).length + work (upTo 2 (bound n)).length + 6
  | some (.mainFather _) => 2 * (upTo 2 (bound n)).length + 4
  | some (.sendNumbers _ p) => 2 * (upTo p (bound n)).length + 3
  | some (.sent _ p) => 2 * (upTo (p + 1) (bound n)).length + 4
  | some (.child _ _) => work l + 2
  | some (.receiveNumbers _) => work l + 1
  | some (.readFirst _) => work l
  | some (.noFirst _) => 2
  | some (.printf _ _) => work l + 2 * l + 11
  | some (.nextPipe _ _) => work l + 2 * l + 10
  | some (.fork _ _ _) => work l + 2 * l + 9
  | some (.father _ _ _) => 2 * l + 6
  | some (.sendPrimes _ _ _) => 2 * l + 5
  | some (.candidate _ _ _ _) => 2 * l + 6
  | some (.closeNext _ _) => 4
  | some (.closeCurrent _) => 3
  | some .wait => 2
  | some .exit => 1
  | none => 0

def left (s : State) : Nat :=
  ∑ j ∈ Finset.range s.count, cost n (s.procs j).control (stream n s j).length

/-! ## Where a process of the chain is -/

/-- Process `j` reads from pipe `j - 1` and writes into pipe `j`. -/
def Pc.Placed (j : Nat) : Pc → Prop
  | .main => j = 0
  | .mainFork current | .mainFather current => j = 0 ∧ current = 0
  | .sendNumbers current p => j = 0 ∧ current = 0 ∧ 2 ≤ p ∧ p ≤ intMax
  | .sent current p => j = 0 ∧ current = 0 ∧ 2 ≤ p ∧ p ≤ bound n
  | .receiveNumbers current | .readFirst current | .noFirst current | .printf current _
  | .nextPipe current _ | .closeCurrent current => j = current + 1
  | .fork current next _ | .father current next _ | .sendPrimes current next _
  | .candidate current next _ _ | .closeNext current next => j = current + 1 ∧ next = j
  | .child current next => j = current + 2 ∧ next = current + 1
  | .wait | .exit => True

/-- The descriptors of a process. -/
def Pc.ends : Pc → List End
  | .main | .wait | .exit => []
  | .mainFork current | .mainFather current | .receiveNumbers current =>
    [.readEnd current, .writeEnd current]
  | .sendNumbers current _ | .sent current _ => [.writeEnd current]
  | .readFirst current | .noFirst current | .printf current _ | .nextPipe current _
  | .closeCurrent current => [.readEnd current]
  | .fork current next _ | .father current next _ | .child current next =>
    [.readEnd next, .writeEnd next, .readEnd current]
  | .sendPrimes current next _ | .candidate current next _ _ | .closeNext current next =>
    [.writeEnd next, .readEnd current]

/-- The last process of the chain has not forked yet, and the others have. -/
inductive Role
  | last
  | father
  | done
  deriving DecidableEq, Repr

def Pc.role : Pc → Role
  | .main | .mainFork _ | .receiveNumbers _ | .readFirst _ | .noFirst _ | .printf _ _
  | .nextPipe _ _ | .fork _ _ _ | .child _ _ => .last
  | .mainFather _ | .sendNumbers _ _ | .sent _ _ | .father _ _ _ | .sendPrimes _ _ _
  | .candidate _ _ _ _ | .closeNext _ _ | .closeCurrent _ | .wait => .father
  | .exit => .done

/-- The process has read to the end of its current pipe. -/
def PastEof : Option Pc → Prop
  | some (.noFirst _) | some (.closeNext _ _) | some (.closeCurrent _) | some .wait
  | some .exit | none => True
  | _ => False

/-- The process has closed its write end. -/
def Closed : Option Pc → Prop
  | some (.closeCurrent _) | some .wait | some .exit | none => True
  | _ => False

/-- The process has waited for its child. -/
def Waited : Option Pc → Prop
  | some .exit | none => True
  | _ => False

/-- The pipe of process `j` has a read end that no child has yet. -/
def HasNext : Option Pc → Prop
  | some (.mainFork _) | some (.fork _ _ _) => True
  | _ => False

instance (c : Option Pc) : Decidable (HasNext c) := by
  unfold HasNext
  split <;> infer_instance

end Fork
end Sisop

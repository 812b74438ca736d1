import Mathlib.Data.Nat.Digits.Defs
import Sisop.Fork.Sieving
import Sisop.Lib.Monitor

/-!
# The output of primes

When the standard output is no terminal, `printf` leaves its text in a buffer of the
process.  `fork` copies the buffer with the rest of the memory, and `exit` writes
what is in it.  So a line is written once by the process that prints it and once
more by every process that was forked while it was in the buffer.

`Stdio` is the record of the buffers and of what has been written, kept beside the
states of a run.  The output is ASCII, so a byte is a `Char`.
-/

namespace Sisop
namespace Fork

open Processes Sieve TransitionSystem

def newLine : Char := '\n'

/-- What `primo %d` stands for. -/
def primoLine (p : Nat) : List Char := "primo ".toList ++ Nat.toDigits 10 p

/-- The lines of some numbers. -/
def text (ps : List Nat) : List Char := ps.flatMap fun p => primoLine p ++ [newLine]

structure Stdio where
  buffer : Nat → List Char
  written : List Char

/-- A buffer holds `bufsiz` bytes, which are at least the 256 of the C standard.  When
it is full and there is more, it is written. -/
def Stdio.printf (bufsiz : Nat) (r : Stdio) (i : Nat) (t : List Char) : Stdio :=
  if (r.buffer i ++ t).length ≤ bufsiz then
    { r with buffer := Function.update r.buffer i (r.buffer i ++ t) }
  else
    ⟨Function.update r.buffer i ((r.buffer i ++ t).drop bufsiz),
      r.written ++ (r.buffer i ++ t).take bufsiz⟩

def Stdio.fork (r : Stdio) (i child : Nat) : Stdio :=
  { r with buffer := Function.update r.buffer child (r.buffer i) }

def Stdio.exit (r : Stdio) (i : Nat) : Stdio :=
  ⟨Function.update r.buffer i [], r.written ++ r.buffer i⟩

/-- A call of process `i` when there are `count` processes. -/
def Stdio.call (bufsiz : Nat) (r : Stdio) (i count : Nat) : Call Pc Nat → Stdio
  | .print p _ => r.printf bufsiz i (text [p])
  | .fork _ _ => r.fork i count
  | .exit => r.exit i
  | _ => r

variable (n : BitVec 32) (cap : Nat → Nat) (bufsiz : Nat)

def observeStdio (s : State) (i : Nat) (_ : State) (r : Stdio) : Stdio :=
  match (s.procs i).control with
  | some c => r.call bufsiz i s.count (prog n c)
  | none => r

/-- The program with its output. -/
def primesBuffered : TransitionSystem (State × Stdio) Nat :=
  (primes n cap).monitored ⟨fun _ => [], []⟩ (observeStdio n bufsiz)

/-- Runs come to their end, and then the line of every prime up to `n` has been
written exactly once. -/
structure WritesOnce : Prop where
  ends : ∃ x, Reach (primesBuffered n cap bufsiz) anyEvent x ∧ ¬ x.1.Alive
  once : ∀ x, Reach (primesBuffered n cap bufsiz) anyEvent x → ¬ x.1.Alive →
    ∀ p : Nat, p.Prime → (p : Int) ≤ n.toInt →
      (x.2.written.splitOn newLine).count (primoLine p) = 1

variable {n cap bufsiz} {s s' : State} {r r' : Stdio} {i j p : Nat} {c d k : Pc}

/-! ## Lines -/

/-- The text is empty or ends in a newline. -/
def Whole (t : List Char) : Prop := t = [] ∨ ∃ t', t = t' ++ [newLine]

theorem text_concat (ps : List Nat) (p : Nat) :
    text (ps ++ [p]) = text ps ++ (primoLine p ++ [newLine]) := by
  unfold text
  rw [List.flatMap_append, List.flatMap_singleton]

theorem text_singleton (p : Nat) : text [p] = primoLine p ++ [newLine] :=
  List.flatMap_singleton _ p

theorem whole_text (ps : List Nat) : Whole (text ps) := by
  induction ps using List.reverseRecOn with
  | nil => exact .inl rfl
  | append_singleton ps p => exact .inr ⟨text ps ++ primoLine p, by
      rw [text_concat, List.append_assoc]⟩

/-- A text that ends in lines ends in a newline. -/
theorem whole_append_text (t : List Char) {ps : List Nat} (h : ps ≠ []) :
    Whole (t ++ text ps) := by
  rcases whole_text ps with hnil | ⟨t', ht⟩
  · have hlast := List.dropLast_append_getLast h
    rw [← hlast, text_concat] at hnil
    have hlen := congrArg List.length hnil
    rw [List.length_append, List.length_append, List.length_singleton, List.length_nil] at hlen
    omega
  · exact .inr ⟨t ++ t', by rw [ht, List.append_assoc]⟩

theorem length_primoLine (h : p ≤ intMax) : (primoLine p).length ≤ 16 := by
  have hdigits : (Nat.toDigits 10 p).length ≤ 10 := by
    refine Nat.toDigits_length 10 p 10 (by decide) ?_
    have hmax : intMax < 10 ^ 10 := by decide
    omega
  have hword : "primo ".toList.length = 6 := by decide
  unfold primoLine
  rw [List.length_append, hword]
  omega

theorem length_text {ps : List Nat} (h : ∀ p ∈ ps, p ≤ intMax) :
    (text ps).length ≤ 17 * ps.length := by
  induction ps with
  | nil => exact Nat.le_refl 0
  | cons p ps ih =>
    have hp := length_primoLine (h p List.mem_cons_self)
    have hps := ih fun q hq => h q (List.mem_cons_of_mem _ hq)
    have hcons : text (p :: ps) = primoLine p ++ [newLine] ++ text ps := List.flatMap_cons
    rw [hcons, List.length_append, List.length_append, List.length_singleton, List.length_cons]
    omega

/-- A line in front of another text. -/
theorem splitOn_line {t : List Char} (h : newLine ∉ primoLine p) :
    (primoLine p ++ newLine :: t).splitOn newLine = primoLine p :: t.splitOn newLine := by
  have hall : ∀ b ∈ primoLine p, (b == newLine) = false := by
    intro b hb
    rw [beq_eq_false_iff_ne]
    rintro rfl
    exact h hb
  rw [List.splitOn_eq_splitOnP, List.splitOn_eq_splitOnP,
    List.splitOnP_append_cons (p := (· == newLine)) _ _ (beq_self_eq_true newLine),
    List.splitOnP_eq_singleton hall]
  rfl

/-- A whole text in front of another. -/
theorem splitOn_whole {x t : List Char} (h : Whole x) (line : List Char) :
    (t.splitOn newLine).count line ≤ ((x ++ t).splitOn newLine).count line := by
  rcases h with rfl | ⟨y, rfl⟩
  · exact Nat.le_refl _
  · rw [List.append_assoc, List.singleton_append,
      @List.splitOn_eq_splitOnP _ _ newLine (y ++ newLine :: t),
      List.splitOnP_append_cons (p := (· == newLine)) _ _ (beq_self_eq_true newLine),
      List.count_append, ← List.splitOn_eq_splitOnP]
    exact Nat.le_add_left _ _

/-! ## What a step does -/

/-- How much of the chain has not printed yet: the last process has not, unless it is
where it makes the next one. -/
def unprinted : Option Pc → Nat
  | some .main | some (.mainFork _) | some (.nextPipe _ _) | some (.fork _ _ _) => 1
  | _ => 2

/-- What process `i` at `c` does to the counts of the network, to its own control and
to the record. -/
inductive Effect (bufsiz : Nat) (s s' : State) (r r' : Stdio) (i : Nat) : Pc → Prop
  | print {current p : Nat} (out : s'.out = s.out ++ [p]) (count : s'.count = s.count)
      (control : (s'.procs i).control = some (.nextPipe current p))
      (stdio : r' = r.printf bufsiz i (text [p])) : Effect bufsiz s s' r r' i (.printf current p)
  | fork {c d k : Pc} (role : c.role = .last) (ready : unprinted (some c) = 1)
      (out : s'.out = s.out) (count : s'.count = s.count + 1)
      (child : (s'.procs s.count).control = some d) (new : unprinted (some d) = 2)
      (control : (s'.procs i).control = some k) (stdio : r' = r.fork i s.count) :
      Effect bufsiz s s' r r' i c
  | exit (out : s'.out = s.out) (count : s'.count = s.count)
      (control : (s'.procs i).control = none) (stdio : r' = r.exit i) :
      Effect bufsiz s s' r r' i .exit
  | quiet {c c' : Pc} (out : s'.out = s.out) (count : s'.count = s.count)
      (control : (s'.procs i).control = some c')
      (same : c.role ≠ .father → unprinted (some c') = unprinted (some c)) (stdio : r' = r) :
      Effect bufsiz s s' r r' i c

theorem prog_print (h : prog n c = .print p k) :
    ∃ current, c = .printf current p ∧ k = .nextPipe current p := by
  cases c with
  | printf current q =>
    cases h
    exact ⟨current, rfl, rfl⟩
  | sendNumbers current q | sent current q | candidate current next q m =>
    rw [prog] at h
    split at h <;> cases h
  | main | mainFork current | mainFather current | receiveNumbers current | readFirst current
  | noFirst current | nextPipe current q | fork current next q | child current next
  | father current next q | sendPrimes current next q | closeNext current next
  | closeCurrent current | wait | exit => cases h

theorem prog_fork (h : prog n c = .fork d k) :
    c.role = .last ∧ unprinted (some c) = 1 ∧ unprinted (some d) = 2 := by
  cases c with
  | mainFork current | fork current next q =>
    cases h
    exact ⟨rfl, rfl, rfl⟩
  | sendNumbers current q | sent current q | candidate current next q m =>
    rw [prog] at h
    split at h <;> cases h
  | main | mainFather current | receiveNumbers current | readFirst current
  | noFirst current | printf current q | nextPipe current q | child current next
  | father current next q | sendPrimes current next q | closeNext current next
  | closeCurrent current | wait | exit => cases h

theorem prog_exit (h : prog n c = .exit) : c = .exit := by
  cases c with
  | exit => rfl
  | sendNumbers current q | sent current q | candidate current next q m =>
    rw [prog] at h
    split at h <;> cases h
  | main | mainFork current | mainFather current | receiveNumbers current | readFirst current
  | noFirst current | printf current q | nextPipe current q | fork current next q
  | child current next | father current next q | sendPrimes current next q
  | closeNext current next | closeCurrent current | wait => cases h

/-- The last process of the chain goes on without having printed. -/
theorem goes_unprinted {c' : Pc} (h : (prog n c).Goes (some c'))
    (hprinted : (prog n c).printed = []) (hchild : (prog n c).child = none)
    (hrole : c.role ≠ .father) :
    unprinted (some c') = unprinted (some c) := by
  cases c with
  | main | receiveNumbers current | readFirst current | noFirst current | nextPipe current q
  | child current next =>
    cases h <;> rfl
  | mainFork current | fork current next q => cases hchild
  | printf current q => cases hprinted
  | mainFather current | sendNumbers current q | sent current q | father current next q
  | sendPrimes current next q | candidate current next q m | closeNext current next
  | closeCurrent current | wait => exact absurd rfl hrole
  | exit => cases h

theorem step_effect (h : s.step (prog n) cap i = some s') (r : Stdio) :
    ∃ c, i < s.count ∧ (s.procs i).control = some c ∧
      (∀ j, j < s.count → j ≠ i → (s'.procs j).control = (s.procs j).control) ∧
      Effect bufsiz s s' r (observeStdio n bufsiz s i s' r) i c := by
  unfold Net.step at h
  split at h
  · rename_i hi
    split at h
    · rename_i c hc
      refine ⟨c, hi, hc, fun j hj hne => by rw [call_other h hj hne], ?_⟩
      obtain ⟨o, hgoes, hcontrol⟩ := call_goes h hi
      obtain ⟨hout, hcount⟩ := call_counts h
      have hstdio : observeStdio n bufsiz s i s' r = r.call bufsiz i s.count (prog n c) := by
        rw [observeStdio, hc]
      rw [hstdio]
      have hquiet : (prog n c).printed = [] → (prog n c).child = none → o.isSome →
          r.call bufsiz i s.count (prog n c) = r →
          Effect bufsiz s s' r (r.call bufsiz i s.count (prog n c)) i c := by
        intro hprinted hchild hsome hsame
        obtain ⟨c', rfl⟩ := Option.isSome_iff_exists.mp hsome
        rw [hprinted, List.append_nil] at hout
        rw [hchild] at hcount
        exact .quiet hout hcount hcontrol (goes_unprinted hgoes hprinted hchild) hsame
      cases hcall : prog n c with
      | print p k =>
        obtain ⟨current, rfl, rfl⟩ := prog_print hcall
        rw [hcall] at hout hcount hgoes
        cases hgoes
        exact .print hout hcount hcontrol rfl
      | fork d k =>
        obtain ⟨hrole, hready, hnew⟩ := prog_fork hcall
        have hd := call_child (d := d) h (by rw [hcall]; rfl)
        rw [hcall] at hout hcount hgoes
        cases hgoes
        exact .fork hrole hready (by rw [hout]; exact List.append_nil _) hcount hd hnew hcontrol rfl
      | exit =>
        obtain rfl := prog_exit hcall
        rw [hcall] at hout hcount hgoes
        cases hgoes
        exact .exit (by rw [hout]; exact List.append_nil _) hcount hcontrol rfl
      | close e k | pipe k | read q k eof | write q v k | wait k | tau k =>
        rw [hcall] at hquiet hgoes
        refine hquiet rfl rfl ?_ rfl
        cases hgoes <;> rfl
      | undefined =>
        rw [hcall] at h
        cases h
    · cases h
  · cases h

/-! ## The buffers of the first processes -/

/-- The process is the last of the chain. -/
theorem last_of_role (hs : Inv n s) (hi : i < s.count) (hc : (s.procs i).control = some c)
    (hrole : c.role = .last) : i + 1 = s.count :=
  (hs.proc i hi).last (by rw [hc]; exact hrole)

/-- How many numbers have been printed follows from where the last process is.  The
first three receivers have the lines in their buffers that were printed up to them. -/
structure Copies (s : State) (r : Stdio) : Prop where
  printed : s.out.length + unprinted (s.procs (s.count - 1)).control = s.count
  root : r.buffer 0 = []
  copy : ∀ j, 0 < j → j ≤ 3 → j < s.count → (s.procs j).control ≠ none →
    r.buffer j = text (s.out.take j)

theorem printf_other (bufsiz : Nat) (r : Stdio) (t : List Char) (h : j ≠ i) :
    (r.printf bufsiz i t).buffer j = r.buffer j := by
  unfold Stdio.printf
  split <;> exact Function.update_of_ne h ..

theorem fork_child (r : Stdio) (i child : Nat) : (r.fork i child).buffer child = r.buffer i := by
  simp [Stdio.fork]

theorem fork_other {child : Nat} (r : Stdio) (i : Nat) (h : j ≠ child) :
    (r.fork i child).buffer j = r.buffer j := by
  simp [Stdio.fork, h]

theorem exit_self (r : Stdio) (i : Nat) : (r.exit i).buffer i = [] := by
  simp [Stdio.exit]

theorem exit_other (r : Stdio) (h : j ≠ i) : (r.exit i).buffer j = r.buffer j := by
  simp [Stdio.exit, h]

/-- The lines of the first three receivers fit. -/
theorem printf_fits (hbuf : r.buffer i = text s.out) (hsize : 256 ≤ bufsiz)
    (hlen : s.out.length ≤ 2) (hprimes : ∀ q ∈ s.out ++ [p], q ≤ intMax) :
    (r.printf bufsiz i (text [p])).buffer i = text (s.out ++ [p]) ∧
      (r.printf bufsiz i (text [p])).written = r.written := by
  have hall : r.buffer i ++ text [p] = text (s.out ++ [p]) := by
    rw [hbuf, text_concat, text_singleton]
  have htext := length_text hprimes
  rw [List.length_append, List.length_singleton] at htext
  unfold Stdio.printf
  rw [hall, if_pos (by omega)]
  exact ⟨Function.update_self .., rfl⟩

theorem le_max_of_printed (hs : Inv n s) : ∀ q ∈ s.out, q ≤ intMax := by
  intro q hq
  have hmem := (printed_initial hs).subset hq
  have hle := (mem_upTo.mp (List.mem_filter.mp hmem).1).2
  exact Nat.le_trans hle bound_le

/-- The first number is printed by the first receiver. -/
theorem pos_of_printf {current : Nat} (hs : Inv n s) (hi : i < s.count)
    (hc : (s.procs i).control = some (.printf current p)) : 0 < i := by
  have hplaced : i = current + 1 := (hs.proc i hi).placed _ hc
  omega

/-- The last process is where it prints when it has not printed. -/
theorem Copies.length_of_last (h : Copies s r) (hi : i + 1 = s.count)
    (hc : (s.procs i).control = some c) : s.out.length + unprinted (some c) = i + 1 := by
  have hlast : s.count - 1 = i := by omega
  have hprinted := h.printed
  rw [hlast, hc] at hprinted
  rw [hi]
  exact hprinted

theorem copies_step (hs : Inv n s) (hs' : Inv n s') (hsize : 256 ≤ bufsiz) (hi : i < s.count)
    (hc : (s.procs i).control = some c)
    (hother : ∀ j, j < s.count → j ≠ i → (s'.procs j).control = (s.procs j).control)
    (heffect : Effect bufsiz s s' r r' i c) (h : Copies s r) : Copies s' r' := by
  cases heffect with
  | @print current p out count control stdio =>
    have hlast := last_of_role hs hi hc rfl
    have hpos := pos_of_printf hs hi hc
    have hlen := h.length_of_last hlast hc
    have hunprinted : unprinted (some (.printf current p)) = 2 := rfl
    have hmax := le_max_of_printed hs'
    rw [out] at hmax
    refine ⟨?_, ?_, fun j hj hthree hlt halive => ?_⟩
    · have hsame : s'.count - 1 = i := by omega
      rw [hsame, control, out, count, List.length_append, List.length_singleton]
      have hafter : unprinted (some (.nextPipe current p)) = 1 := rfl
      omega
    · rw [stdio, printf_other _ _ _ (by omega)]
      exact h.root
    · rw [count] at hlt
      by_cases heq : j = i
      · subst heq
        have htake : s.out.take j = s.out := List.take_of_length_le (by omega)
        have hbuf : r.buffer j = text s.out := by
          rw [h.copy j hj hthree hlt (by rw [hc]; nofun), htake]
        rw [stdio, out, (printf_fits hbuf hsize (by omega) hmax).1,
          List.take_of_length_le (by rw [List.length_append, List.length_singleton]; omega)]
      · rw [stdio, printf_other _ _ _ heq, out, List.take_append_of_le_length (by omega)]
        rw [hother j hlt heq] at halive
        exact h.copy j hj hthree hlt halive
  | @fork _ d k role ready out count child new control stdio =>
    have hlast := last_of_role hs hi hc role
    have hlen := h.length_of_last hlast hc
    refine ⟨?_, ?_, fun j hj hthree hlt halive => ?_⟩
    · have hsame : s'.count - 1 = s.count := by omega
      rw [hsame, child, new, out, count]
      omega
    · have hne : 0 ≠ s.count := by omega
      rw [stdio, fork_other r i hne]
      exact h.root
    · rw [count] at hlt
      rw [stdio, out]
      by_cases heq : j = s.count
      · subst heq
        have htake : s.out.take s.count = s.out := List.take_of_length_le (by omega)
        rw [fork_child, htake]
        by_cases hroot : i = 0
        · have hnil : s.out = [] := List.length_eq_zero_iff.mp (by omega)
          rw [hroot, h.root, hnil]
          rfl
        · have hbuf := h.copy i (by omega) (by omega) hi (by rw [hc]; nofun)
          rw [hbuf, List.take_of_length_le (by omega)]
      · have hold : j < s.count := by omega
        rw [fork_other r i heq]
        refine h.copy j hj hthree hold ?_
        by_cases hji : j = i
        · rw [hji, hc]
          nofun
        · rw [← hother j hold hji]
          exact halive
  | exit out count control stdio =>
    refine ⟨?_, ?_, fun j hj hthree hlt halive => ?_⟩
    · rw [count, out]
      have hprinted := h.printed
      by_cases heq : s.count - 1 = i
      · rw [heq, control]
        rw [heq, hc] at hprinted
        exact hprinted
      · rw [hother _ (by omega) heq]
        exact hprinted
    · rw [stdio]
      by_cases heq : i = 0
      · rw [heq, exit_self]
      · rw [exit_other r (Ne.symm heq)]
        exact h.root
    · rw [count] at hlt
      have hne : j ≠ i := by
        rintro rfl
        exact halive control
      rw [hother j hlt hne] at halive
      rw [stdio, exit_other r hne, out]
      exact h.copy j hj hthree hlt halive
  | @quiet _ c' out count control same stdio =>
    refine ⟨?_, by rw [stdio]; exact h.root, fun j hj hthree hlt halive => ?_⟩
    · rw [count, out]
      have hprinted := h.printed
      by_cases heq : s.count - 1 = i
      · rw [heq, hc] at hprinted
        rw [heq, control]
        rw [same fun hrole => ?_]
        · exact hprinted
        · have hlt := (hs.proc i hi).father (by rw [hc]; exact hrole)
          omega
      · rw [hother _ (by omega) heq]
        exact hprinted
    · rw [count] at hlt
      rw [stdio, out]
      refine h.copy j hj hthree hlt ?_
      by_cases hji : j = i
      · rw [hji, hc]
        nofun
      · rw [← hother j hlt hji]
        exact halive

/-! ## What the first processes write -/

/-- The second receiver writes behind a whole text, and the first one behind it. -/
structure Doubles (s : State) (r : Stdio) : Prop where
  whole : (2 < s.count → (s.procs 2).control ≠ none) →
    (3 < s.count → (s.procs 3).control = none) → Whole r.written
  second : 2 < s.count → (s.procs 2).control = none → (s.procs 1).control ≠ none →
    ∃ x, Whole x ∧ r.written = x ++ text (s.out.take 2)
  first : 1 < s.count → (s.procs 1).control = none →
    ∃ x, Whole x ∧ r.written = x ++ text (s.out.take 2) ++ text (s.out.take 1)

/-- While the last process is there, all are. -/
theorem all_alive (hs : Inv n s) (hlast : i + 1 = s.count) (halive : (s.procs i).control ≠ none)
    (hj : j < s.count) : (s.procs j).control ≠ none := by
  intro hnone
  exact halive (exited_behind hs hnone (by omega) (by omega))

/-- With all processes there, only a whole text has been written. -/
theorem doubles_of_alive (halive : ∀ j, j < s.count → (s.procs j).control ≠ none)
    (hwhole : ¬ 3 < s.count → Whole r.written) : Doubles s r where
  whole := fun _ hthree => hwhole fun hlt => halive 3 hlt (hthree hlt)
  second := fun hlt hnone => absurd hnone (halive 2 hlt)
  first := fun hlt hnone => absurd hnone (halive 1 hlt)

/-- From 2 on the first receiver has a child when it exits. -/
theorem second_of_exit (hs : Inv n s) (hn : 2 ≤ bound n) (h : Copies s r)
    (hlt : 1 < s.count) (hc : (s.procs 1).control = some .exit) : 2 < s.count := by
  refine Nat.lt_of_not_le fun hle => ?_
  have hcount : 1 + 1 = s.count := by omega
  have hlen := h.length_of_last hcount hc
  have hunprinted : unprinted (some .exit) = 2 := rfl
  have hnil : s.out = [] := List.length_eq_zero_iff.mp (by omega)
  have hout := hs.out 1 hcount
  have htwo : 2 ∈ primesUpTo (bound n) := by
    refine List.mem_filter.mpr ⟨mem_upTo.mpr ⟨by omega, hn⟩, ?_⟩
    exact decide_eq_true Nat.prime_two
  rw [hnil, hc, List.nil_append] at hout
  rw [← hout] at htwo
  exact absurd htwo List.not_mem_nil

theorem doubles_exit (hs : Inv n s) (hn : 2 ≤ bound n) (hi : i < s.count)
    (hc : (s.procs i).control = some .exit)
    (hother : ∀ j, j < s.count → j ≠ i → (s'.procs j).control = (s.procs j).control)
    (hout : s'.out = s.out) (hcount : s'.count = s.count) (hcontrol : (s'.procs i).control = none)
    (hcopies : Copies s r) (h : Doubles s r) : Doubles s' (r.exit i) := by
  have hwritten : (r.exit i).written = r.written ++ r.buffer i := rfl
  have hgone : ∀ j, j ≤ i → (s.procs j).control ≠ none := by
    intro j hj hnone
    have hexited := exited_behind hs hnone hj hi
    rw [hc] at hexited
    cases hexited
  have hnext : i + 1 < s.count → (s.procs (i + 1)).control = none := fun hlt =>
    hs.waited i hlt (by rw [hc]; trivial)
  have halive : (s.procs i).control ≠ none := by
    rw [hc]
    nofun
  have hcases : i = 0 ∨ i = 1 ∨ i = 2 ∨ i = 3 ∨ 3 < i := by omega
  rcases hcases with rfl | rfl | rfl | rfl | hlarge
  · rw [hcopies.root, List.append_nil] at hwritten
    refine ⟨fun htwo hthree => ?_, fun hlt hnone hone => ?_, fun hlt hnone => ?_⟩
    · rw [hcount] at htwo hthree
      rw [hwritten]
      refine h.whole (fun hlt => ?_) fun hlt => ?_
      · rw [← hother 2 hlt (by decide)]
        exact htwo hlt
      · rw [← hother 3 hlt (by decide)]
        exact hthree hlt
    · rw [hcount] at hlt
      rw [hother 2 hlt (by decide)] at hnone
      rw [hother 1 (by omega) (by decide)] at hone
      rw [hwritten, hout]
      exact h.second hlt hnone hone
    · rw [hcount] at hlt
      rw [hother 1 hlt (by decide)] at hnone
      rw [hwritten, hout]
      exact h.first hlt hnone
  · have hmore := second_of_exit hs hn hcopies hi hc
    have hsecond := hnext hmore
    refine ⟨fun htwo _ => ?_, fun _ _ hone => absurd hcontrol hone, fun _ _ => ?_⟩
    · refine absurd ?_ (htwo (by rw [hcount]; exact hmore))
      rw [hother 2 hmore (by decide)]
      exact hsecond
    · obtain ⟨x, hx, heq⟩ := h.second hmore hsecond halive
      refine ⟨x, hx, ?_⟩
      rw [hwritten, heq, hout, hcopies.copy 1 (by decide) (by decide) hi halive]
  · refine ⟨fun htwo _ => absurd hcontrol (htwo (by rw [hcount]; exact hi)), fun _ _ _ => ?_,
      fun hlt hnone => ?_⟩
    · refine ⟨r.written, h.whole (fun _ => halive) hnext, ?_⟩
      rw [hwritten, hout, hcopies.copy 2 (by decide) (by decide) hi halive]
    · rw [hother 1 (by omega) (by decide)] at hnone
      exact absurd hnone (hgone 1 (by decide))
  · have hne : s.out.take 3 ≠ [] := by
      intro hnil
      have hprinted := hcopies.printed
      have hle : unprinted (s.procs (s.count - 1)).control ≤ 2 := by
        unfold unprinted
        split <;> decide
      have hzero : s.out.length = 0 := by
        have hlen := congrArg List.length hnil
        rw [List.length_take, List.length_nil] at hlen
        omega
      omega
    refine ⟨fun _ _ => ?_, fun _ hnone _ => ?_, fun _ hnone => ?_⟩
    · rw [hwritten, hcopies.copy 3 (by decide) (by decide) hi halive]
      exact whole_append_text _ hne
    · rw [hother 2 (by omega) (by decide)] at hnone
      exact absurd hnone (hgone 2 (by decide))
    · rw [hother 1 (by omega) (by decide)] at hnone
      exact absurd hnone (hgone 1 (by decide))
  · refine ⟨fun _ hthree => ?_, fun _ hnone _ => ?_, fun _ hnone => ?_⟩
    · have hnone := hthree (by omega)
      rw [hother 3 (by omega) (by omega)] at hnone
      exact absurd hnone (hgone 3 (by omega))
    · rw [hother 2 (by omega) (by omega)] at hnone
      exact absurd hnone (hgone 2 (by omega))
    · rw [hother 1 (by omega) (by omega)] at hnone
      exact absurd hnone (hgone 1 (by omega))

theorem doubles_step (hs : Inv n s) (hs' : Inv n s') (hn : 2 ≤ bound n) (hsize : 256 ≤ bufsiz)
    (hi : i < s.count) (hc : (s.procs i).control = some c)
    (hother : ∀ j, j < s.count → j ≠ i → (s'.procs j).control = (s.procs j).control)
    (heffect : Effect bufsiz s s' r r' i c) (hcopies : Copies s r) (h : Doubles s r) :
    Doubles s' r' := by
  cases heffect with
  | @print current p out count control stdio =>
    have hlast := last_of_role hs hi hc rfl
    have hall := fun {j} => @all_alive n s i j hs hlast (by rw [hc]; nofun)
    have hmax := le_max_of_printed hs'
    rw [out] at hmax
    refine doubles_of_alive (fun j hj => ?_) fun hthree => ?_
    · rw [count] at hj
      by_cases heq : j = i
      · rw [heq, control]
        nofun
      · rw [hother j hj heq]
        exact hall hj
    · have hlen := hcopies.length_of_last hlast hc
      have hunprinted : unprinted (some (.printf current p)) = 2 := rfl
      have hbuf := hcopies.copy i (pos_of_printf hs hi hc) (by omega) hi (by rw [hc]; nofun)
      rw [List.take_of_length_le (by omega)] at hbuf
      rw [stdio, (printf_fits hbuf hsize (by omega) hmax).2]
      exact h.whole (fun hlt => hall hlt) fun hlt => by omega
  | @fork _ d k role ready out count child new control stdio =>
    have hlast := last_of_role hs hi hc role
    have hall := fun {j} => @all_alive n s i j hs hlast (by rw [hc]; nofun)
    refine doubles_of_alive (fun j hj => ?_) fun hthree => ?_
    · rw [count] at hj
      by_cases heq : j = i
      · rw [heq, control]
        nofun
      · by_cases hnew : j = s.count
        · rw [hnew, child]
          nofun
        · have hold : j < s.count := by omega
          rw [hother j hold heq]
          exact hall hold
    · rw [stdio]
      exact h.whole (fun hlt => hall hlt) fun hlt => by omega
  | exit out count control stdio =>
    rw [stdio]
    exact doubles_exit hs hn hi hc hother out count control hcopies h
  | @quiet _ c' out count control same stdio =>
    have hiff : ∀ j, j < s.count → ((s'.procs j).control = none ↔ (s.procs j).control = none) := by
      intro j hj
      by_cases heq : j = i
      · rw [heq, control, hc]
        exact iff_of_false nofun nofun
      · rw [hother j hj heq]
    rw [stdio]
    refine ⟨fun htwo hthree => ?_, fun hlt hnone hone => ?_, fun hlt hnone => ?_⟩
    · rw [count] at htwo hthree
      exact h.whole (fun hlt hnone => htwo hlt ((hiff 2 hlt).mpr hnone))
        fun hlt => (hiff 3 hlt).mp (hthree hlt)
    · rw [count] at hlt
      rw [out]
      exact h.second hlt ((hiff 2 hlt).mp hnone)
        fun hgone => hone ((hiff 1 (by omega)).mpr hgone)
    · rw [count] at hlt
      rw [out]
      exact h.first hlt ((hiff 1 hlt).mp hnone)

/-! ## Runs -/

/-- What a run of the program with its output keeps. -/
structure BufferedInv (n : BitVec 32) (x : State × Stdio) : Prop where
  chain : Inv n x.1
  copies : Copies x.1 x.2
  doubles : Doubles x.1 x.2

theorem bufferedInv_start : BufferedInv n (Net.start .main, ⟨fun _ => [], []⟩) := by
  refine ⟨inv_start, ⟨rfl, rfl, fun j hj _ hlt => ?_⟩, ⟨fun _ _ => .inl rfl, fun hlt => ?_,
    fun hlt => ?_⟩⟩
  · have hone : j < 1 := hlt
    omega
  · have hone : 2 < 1 := hlt
    omega
  · have hone : 1 < 1 := hlt
    omega

theorem bufferedInv_step {x y : State × Stdio} (hn : 2 ≤ bound n) (hsize : 256 ≤ bufsiz)
    (h : BufferedInv n x) (hstep : (primesBuffered n cap bufsiz).step x i y) : BufferedInv n y := by
  obtain ⟨hnet, hrecord⟩ := hstep
  obtain ⟨c, hi, hc, hother, heffect⟩ := @step_effect n cap bufsiz x.1 y.1 i hnet x.2
  have hchain : Inv n y.1 := (onward_step h.chain hnet).inv
  rw [← hrecord] at heffect
  exact ⟨hchain, copies_step h.chain hchain hsize hi hc hother heffect h.copies,
    doubles_step h.chain hchain hn hsize hi hc hother heffect h.copies h.doubles⟩

theorem bufferedInv_of_reach {x : State × Stdio} (hn : 2 ≤ bound n) (hsize : 256 ≤ bufsiz)
    (h : Reach (primesBuffered n cap bufsiz) anyEvent x) : BufferedInv n x := by
  refine h.invariant ?_ fun x i y hx _ hstep => bufferedInv_step hn hsize hx hstep
  rintro ⟨s, r⟩ ⟨hs, hr⟩
  have hs' : s = Net.start .main := hs
  have hr' : r = ⟨fun _ => [], []⟩ := hr
  rw [hs', hr']
  exact bufferedInv_start

/-- Every run of the program has its output. -/
theorem exists_buffered_end (hcap : ∀ k, 0 < cap k) (hmax : bound n < intMax) :
    ∃ x, Reach (primesBuffered n cap bufsiz) anyEvent x ∧ ¬ x.1.Alive := by
  obtain ⟨t, ht, hstuck⟩ := Reach.exists_stuck (left n) (fun s i s' => less_of_reach)
    (.init rfl : Reach (primes n cap) anyEvent (Net.start .main))
  obtain ⟨r, hr⟩ : ∃ r, Reach (primesBuffered n cap bufsiz) anyEvent (t, r) := ht.monitor
  refine ⟨(t, r), hr, not_alive_of_stuck (inv_of_reach ht) hmax hcap fun i => ?_⟩
  cases hstep : t.step (prog n) cap i with
  | none => rfl
  | some t' => exact absurd hstep (hstuck i t')

theorem primesUpTo_two {m : Nat} (h : 2 ≤ m) : ∃ ps, primesUpTo m = 2 :: ps := by
  rw [← sieve_upTo, upTo_of_le h, sieve_cons]
  exact ⟨_, rfl⟩

/-- The line of the first prime is written by the second receiver and by the first
one. -/
theorem written_twice (hn : 2 ≤ bound n) (hsize : 256 ≤ bufsiz) {x : State × Stdio}
    (h : Reach (primesBuffered n cap bufsiz) anyEvent x) (hend : ¬ x.1.Alive) :
    2 ≤ (x.2.written.splitOn newLine).count (primoLine 2) := by
  obtain ⟨hs, hcopies, hdoubles⟩ := bufferedInv_of_reach hn hsize h
  have hpos := hs.pos
  have hexited : ∀ j, j < x.1.count → (x.1.procs j).control = none := by
    intro j hj
    by_contra hne
    exact hend ⟨j, hj, hne⟩
  have hcount : 1 < x.1.count := by
    have hprinted := hcopies.printed
    rw [hexited (x.1.count - 1) (by omega)] at hprinted
    have hunprinted : unprinted none = 2 := rfl
    omega
  obtain ⟨ps, hps⟩ := primesUpTo_two hn
  obtain ⟨y, hy, hwritten⟩ := hdoubles.first hcount (hexited 1 hcount)
  have hout : x.1.out = 2 :: ps := (printed_all hs hend).trans hps
  have htext : text (x.1.out.take 2) ++ text (x.1.out.take 1) =
      primoLine 2 ++ newLine :: (text (ps.take 1) ++ (primoLine 2 ++ newLine :: [])) := by
    have hcons : text (2 :: ps.take 1) = primoLine 2 ++ [newLine] ++ text (ps.take 1) :=
      List.flatMap_cons
    rw [hout, List.take_succ_cons, List.take_succ_cons, List.take_zero, hcons, text_singleton,
      List.append_assoc, List.append_assoc]
    rfl
  have hline : newLine ∉ primoLine 2 := by decide
  have hlast : ((primoLine 2 ++ newLine :: []).splitOn newLine).count (primoLine 2) ≤
      ((text (ps.take 1) ++ (primoLine 2 ++ newLine :: [])).splitOn newLine).count (primoLine 2) :=
    splitOn_whole (whole_text _) _
  rw [splitOn_line hline, List.count_cons_self] at hlast
  rw [hwritten, List.append_assoc, htext]
  refine Nat.le_trans ?_ (splitOn_whole hy _)
  rw [splitOn_line hline, List.count_cons_self]
  omega

/-- The lines are written once each only when there are none. -/
theorem writesOnce_iff (n : BitVec 32) (hcap : ∀ k, 0 < cap k) (hsize : 256 ≤ bufsiz) :
    WritesOnce n cap bufsiz ↔ n.toInt < 2 := by
  constructor
  · intro h
    by_contra hge
    have hn : 2 ≤ bound n := by
      unfold bound
      omega
    obtain ⟨x, hx, hend⟩ := h.ends
    have htwice := written_twice hn hsize hx hend
    have honce := h.once x hx hend 2 Nat.prime_two (by omega)
    omega
  · intro hn
    have hmax : bound n < intMax := by
      have hint : intMax = 2147483647 := rfl
      unfold bound
      omega
    refine ⟨exists_buffered_end hcap hmax, fun x _ _ p hp hle => ?_⟩
    have htwo := hp.two_le
    omega

/-- 30, with pipes that hold one number and a buffer of 4096 bytes. -/
theorem writesOnce_thirty : WritesOnce 30 (fun _ => 1) 4096 ↔ (30 : BitVec 32).toInt < 2 :=
  writesOnce_iff 30 (fun _ => Nat.one_pos) (by decide)

/-- 2 is written twice. -/
theorem two_written_twice : ¬ WritesOnce 2 (fun _ => 1) 4096 := by
  intro h
  obtain ⟨x, hx, hend⟩ := h.ends
  have htwice := written_twice (by decide) (by decide) hx hend
  have honce := h.once x hx hend 2 Nat.prime_two (by decide)
  omega

end Fork
end Sisop

import Mathlib.Logic.Relation
import Sisop.Lib.CString
import Sisop.Jos.Env

/-!
# Formatting in the kernel

`vprintfmt` of `lib/printfmt.c`, one turn at a time, so that every byte of a string
argument it reads is a byte of some turn.  The directives for numbers and error
codes print nothing that is read through a pointer, and are left out.

`*p` is a byte at an address, or a page fault.
-/

namespace Sisop
namespace Jos

/-- `padc`, `width`, `precision` and `altflag`. -/
structure Fmt where
  padc : Char
  width : Int
  precision : Int
  altflag : Bool

def Fmt.init : Fmt := { padc := ' ', width := -1, precision := -1, altflag := false }

def processPrecision (f : Fmt) (precision : Int) : Fmt :=
  if f.width < 0 then { f with width := precision, precision := -1 }
  else { f with precision := precision }

/-- The flags of a directive up to its letter, with the rest of the format and of the
arguments.  `num` is the number being read, once its first digit has been. -/
def escape : List Char → List Word → Fmt → Option Int → Option (Char × Fmt × List Char × List Word)
  | [], _, _, _ => none
  | ch :: fmt, args, f, num =>
      if ch.isDigit ∧ (num.isSome ∨ ch ≠ '0') then
        escape fmt args f (some (num.getD 0 * 10 + (ch.toNat - 48 : Nat)))
      else
        let f := num.elim f (processPrecision f)
        match ch, args with
        | '-', args => escape fmt args { f with padc := '-' } none
        | '0', args => escape fmt args { f with padc := '0' } none
        | '*', precision :: args => escape fmt args (processPrecision f precision.toInt) none
        | '.', args => escape fmt args { f with width := max f.width 0 } none
        | '#', args => escape fmt args { f with altflag := true } none
        | 'l', args => escape fmt args f none
        | ch, args => some (ch, f, fmt, args)

/-- What the formatter is doing: copying the format, measuring the string at `p` with
`strnlen`, or printing it from its `k`-th byte. -/
inductive Job
  | text
  | measure (p : Word) (f : Fmt) (n size : Nat)
  | print (p : Word) (f : Fmt) (k : Nat)

structure Printing where
  job : Job
  fmt : List Char
  args : List Word
  out : List (BitVec 8)

inductive Turn
  | next (st : Printing)
  | done (out : List (BitVec 8))
  | fault
  | other (directive : Char)

def asciiByte (c : Char) : BitVec 8 := BitVec.ofNat 8 c.toNat

/-- The string printed for a null pointer. -/
def nullString : List (BitVec 8) := "(null)".toList.map asciiByte

variable (load : Word → Option (BitVec 8))

/-- The `k`-th byte of the string `%s` prints for the pointer `p`. -/
def strByte (p : Word) (k : Nat) : Option (BitVec 8) :=
  if p = 0#32 then some (nullString.getD k 0#8) else load (p + BitVec.ofNat 32 k)

/-- The address a turn reads through the pointer it was given. -/
def Job.reads : Job → Option Word
  | .text => none
  | .measure p _ n size => if p = 0#32 ∨ size = 0 then none else some (p + BitVec.ofNat 32 n)
  | .print p _ k => if p = 0#32 then none else some (p + BitVec.ofNat 32 k)

/-- The padding before the string, once `strnlen` has found its length. -/
def Printing.pad (st : Printing) (p : Word) (f : Fmt) (n : Nat) : Printing :=
  let width := f.width - n
  { st with
    job := .print p { f with width := min width 0 } 0
    out := st.out ++ List.replicate width.toNat (asciiByte f.padc) }

def vprintfmtTurn (st : Printing) : Turn :=
  match st.job with
  | .text =>
      match st.fmt with
      | [] => .done st.out
      | ch :: fmt =>
          if ch ≠ '%' then .next { st with fmt := fmt, out := st.out ++ [asciiByte ch] }
          else
            match escape fmt st.args .init none with
            | some ('c', _, fmt, ch :: args) =>
                .next { st with fmt := fmt, args := args, out := st.out ++ [ch.truncate 8] }
            | some ('s', f, fmt, p :: args) =>
                let job := if 0 < f.width ∧ f.padc ≠ '-' then
                    .measure p f 0 (BitVec.ofInt 32 f.precision).toNat
                  else .print p f 0
                .next { st with job := job, fmt := fmt, args := args }
            | some ('%', _, fmt, args) =>
                .next { st with fmt := fmt, args := args, out := st.out ++ [asciiByte '%'] }
            | some (ch, _, _, _) => .other ch
            | none => .other '%'
  | .measure p f n size =>
      if size = 0 then .next (st.pad p f n)
      else
        match strByte load p n with
        | none => .fault
        | some ch =>
            if ch = 0#8 then .next (st.pad p f n)
            else .next { st with job := .measure p f (n + 1) (size - 1) }
  | .print p f k =>
      match strByte load p k with
      | none => .fault
      | some ch =>
          if ch ≠ 0#8 ∧ (f.precision < 0 ∨ 0 ≤ f.precision - 1) then
            let precision := if f.precision < 0 then f.precision else f.precision - 1
            let shown := if f.altflag ∧ (ch < 0x20#8 ∨ 0x7E#8 < ch) then asciiByte '?' else ch
            .next { st with
              job := .print p { f with precision := precision, width := f.width - 1 } (k + 1)
              out := st.out ++ [shown] }
          else
            .next { st with
              job := .text, out := st.out ++ List.replicate f.width.toNat (asciiByte ' ') }

/-- The turns of `vprintfmt` from one state to another. -/
def Formats : Printing → Printing → Prop :=
  Relation.ReflTransGen fun st st' => vprintfmtTurn load st = .next st'

/-- `cprintf(fmt, args)` at its start. -/
def cprintf (fmt : String) (args : List Word) : Printing := ⟨.text, fmt.toList, args, []⟩

/-- The string goes to the console. -/
def Prints (st : Printing) (out : List (BitVec 8)) : Prop :=
  ∃ st', Formats load st st' ∧ vprintfmtTurn load st' = .done out

/-! ## `cprintf("%.*s", len, s)` -/

/-- The loop of `%s` at its `k`-th byte. -/
def cputsAt (s len : Word) (k : Nat) (out : List (BitVec 8)) : Printing :=
  { job := .print s
      { padc := ' '
        width := -k
        precision := if len.toInt < 0 then len.toInt else len.toInt - k
        altflag := false } k
    fmt := []
    args := []
    out := out }

/-- The precision lets the `k`-th byte be printed: it is signed. -/
def Lets (len : Word) (k : Nat) : Prop := len.toInt < 0 ∨ (k : Int) < len.toInt

/-- The loop gets to its `k`-th byte. -/
def GetsTo (s len : Word) (k : Nat) : Prop :=
  ∀ j, j < k → Lets len j ∧ ∃ ch, strByte load s j = some ch ∧ ch ≠ 0#8

/-- The first `k` bytes of the string. -/
def firstBytes (s : Word) (k : Nat) : List (BitVec 8) :=
  CString.memread (fun i => (strByte load s i).getD 0#8) 0 k

variable {load} {s len : Word} {k : Nat} {out : List (BitVec 8)} {st : Printing}

theorem GetsTo.mono {j : Nat} (h : GetsTo load s len k) (hj : j ≤ k) : GetsTo load s len j :=
  fun i hi => h i (Nat.lt_of_lt_of_le hi hj)

theorem firstBytes_succ :
    firstBytes load s (k + 1) = firstBytes load s k ++ [(strByte load s k).getD 0#8] := by
  simp [firstBytes, CString.memread, List.range_succ]

theorem cputs_start :
    vprintfmtTurn load (cprintf "%.*s" [len, s]) = .next (cputsAt s len 0 []) := by
  have hescape : escape ['.', '*', 's'] [len, s] .init none =
      some ('s', { padc := ' ', width := 0, precision := len.toInt, altflag := false }, [], [s]) :=
    rfl
  have hfmt : "%.*s".toList = ['%', '.', '*', 's'] := rfl
  simp [vprintfmtTurn, cprintf, hfmt, hescape, cputsAt]

/-- The loop goes on behind a byte that is printed. -/
theorem cputs_next {ch : BitVec 8} (hlets : Lets len k) (hch : strByte load s k = some ch)
    (hne : ch ≠ 0#8) :
    vprintfmtTurn load (cputsAt s len k out) = .next (cputsAt s len (k + 1) (out ++ [ch])) := by
  unfold vprintfmtTurn cputsAt
  dsimp only
  rw [hch]
  dsimp only
  unfold Lets at hlets
  by_cases hneg : len.toInt < 0
  · rw [if_pos hneg, if_pos ⟨hne, .inl hneg⟩, if_pos hneg]
    simp
    omega
  · have hk := hlets.resolve_left hneg
    rw [if_neg hneg, if_pos ⟨hne, .inr (by omega)⟩, if_neg (by omega)]
    simp
    omega

/-- The loop stops at a zero, and at the precision. -/
theorem cputs_stop {ch : BitVec 8} (hch : strByte load s k = some ch)
    (hstop : ch = 0#8 ∨ ¬ Lets len k) (hk : GetsTo load s len k) :
    vprintfmtTurn load (cputsAt s len k out) = .next ⟨.text, [], [], out⟩ := by
  have hle : ¬ len.toInt < 0 → (k : Int) ≤ len.toInt := by
    intro hpos
    cases k with
    | zero => exact Int.not_lt.mp hpos
    | succ k =>
        have hlast := (hk k (Nat.lt_succ_self k)).1.resolve_left hpos
        omega
  have hno : ¬ (ch ≠ 0#8 ∧ ((if len.toInt < 0 then len.toInt else len.toInt - k) < 0 ∨
      0 ≤ (if len.toInt < 0 then len.toInt else len.toInt - k) - 1)) := by
    rintro ⟨hne, hprec⟩
    refine hstop.resolve_left hne ?_
    unfold Lets
    by_cases hneg : len.toInt < 0
    · exact .inl hneg
    · have := hle hneg
      rw [if_neg hneg] at hprec
      omega
  have hwidth : (-(k : Int)).toNat = 0 := by omega
  unfold vprintfmtTurn cputsAt
  dsimp only
  rw [hch]
  dsimp only
  rw [if_neg hno, hwidth, List.replicate_zero, List.append_nil]

theorem cputs_fault (hch : strByte load s k = none) :
    vprintfmtTurn load (cputsAt s len k out) = .fault := by
  unfold vprintfmtTurn cputsAt
  dsimp only
  rw [hch]

/-- The states of the call: the start, the bytes of the string in order, and the end. -/
inductive CputsState (load : Word → Option (BitVec 8)) (s len : Word) : Printing → Prop
  | start : CputsState load s len (cprintf "%.*s" [len, s])
  | byte (k : Nat) (h : GetsTo load s len k) :
      CputsState load s len (cputsAt s len k (firstBytes load s k))
  | finished (k : Nat) (h : GetsTo load s len k) (ch : BitVec 8) (hch : strByte load s k = some ch)
      (hstop : ch = 0#8 ∨ ¬ Lets len k) :
      CputsState load s len ⟨.text, [], [], firstBytes load s k⟩

theorem CputsState.next {st' : Printing} (h : CputsState load s len st)
    (hst : vprintfmtTurn load st = .next st') : CputsState load s len st' := by
  cases h with
  | start =>
      rw [cputs_start] at hst
      cases hst
      exact .byte 0 fun j hj => absurd hj (Nat.not_lt_zero j)
  | byte k hk =>
      cases hch : strByte load s k with
      | none =>
          rw [cputs_fault hch] at hst
          cases hst
      | some ch =>
          by_cases hgo : Lets len k ∧ ch ≠ 0#8
          · rw [cputs_next hgo.1 hch hgo.2] at hst
            cases hst
            have hbytes : firstBytes load s k ++ [ch] = firstBytes load s (k + 1) := by
              rw [firstBytes_succ, hch]
              rfl
            rw [hbytes]
            refine .byte (k + 1) fun j hj => ?_
            by_cases hjk : j < k
            · exact hk j hjk
            · obtain rfl : j = k := by omega
              exact ⟨hgo.1, ch, hch, hgo.2⟩
          · have hstop : ch = 0#8 ∨ ¬ Lets len k := by
              by_cases hz : ch = 0#8
              · exact .inl hz
              · exact .inr fun hl => hgo ⟨hl, hz⟩
            rw [cputs_stop hch hstop hk] at hst
            cases hst
            exact .finished k hk ch hch hstop
  | finished k hk ch hch hstop =>
      unfold vprintfmtTurn at hst
      cases hst

/-- Every byte before which nothing stops the loop is read. -/
theorem formats_getsTo (h : GetsTo load s len k) :
    Formats load (cprintf "%.*s" [len, s]) (cputsAt s len k (firstBytes load s k)) := by
  induction k with
  | zero => exact .single cputs_start
  | succ k ih =>
      obtain ⟨hlets, ch, hch, hne⟩ := h k (Nat.lt_succ_self k)
      have hbytes : firstBytes load s (k + 1) = firstBytes load s k ++ [ch] := by
        rw [firstBytes_succ, hch]
        rfl
      rw [hbytes]
      exact .tail (ih (h.mono (Nat.le_succ k))) (cputs_next hlets hch hne)

/-- The states of the call are reached, and no others are. -/
theorem formats_cputs_iff :
    Formats load (cprintf "%.*s" [len, s]) st ↔ CputsState load s len st := by
  constructor
  · intro h
    induction h with
    | refl => exact .start
    | tail _ hst ih => exact ih.next hst
  · intro h
    cases h with
    | start => exact .refl
    | byte k hk => exact formats_getsTo hk
    | finished k hk ch hch hstop => exact .tail (formats_getsTo hk) (cputs_stop hch hstop hk)

/-- The call prints the bytes in front of the one that stops it. -/
theorem prints_cputs_iff : Prints load (cprintf "%.*s" [len, s]) out ↔
    ∃ k ch, GetsTo load s len k ∧ strByte load s k = some ch ∧ (ch = 0#8 ∨ ¬ Lets len k) ∧
      out = firstBytes load s k := by
  constructor
  · rintro ⟨st, hst, hdone⟩
    cases formats_cputs_iff.mp hst with
    | start =>
        rw [cputs_start] at hdone
        cases hdone
    | byte k hk =>
        cases hch : strByte load s k with
        | none =>
            rw [cputs_fault hch] at hdone
            cases hdone
        | some ch =>
            by_cases hgo : Lets len k ∧ ch ≠ 0#8
            · rw [cputs_next hgo.1 hch hgo.2] at hdone
              cases hdone
            · rw [cputs_stop hch (by tauto) hk] at hdone
              cases hdone
    | finished k hk ch hch hstop =>
        unfold vprintfmtTurn at hdone
        cases hdone
        exact ⟨k, ch, hk, hch, hstop, rfl⟩
  · rintro ⟨k, ch, hk, hch, hstop, rfl⟩
    exact ⟨_, formats_cputs_iff.mpr (.finished k hk ch hch hstop), rfl⟩

end Jos
end Sisop

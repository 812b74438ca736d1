import Mathlib.Algebra.Group.Int.Defs
import Mathlib.Algebra.Group.Nat.Defs
import Mathlib.Data.Int.Basic
import Mathlib.Data.List.TakeWhile
import Mathlib.Logic.Function.Basic
import Sisop.Lib.Groups

/-!
# The program xargs

`process_input` reads the lines of the standard input, puts each behind the command
in `buffer`, and executes the command when there are `NARGS` of them, and once more
at the end when some are left.  The same array serves for every group.

`fork` and `execvp` do not fail, and the command leaves the standard input alone.
Every line is an array of its own, so that a cell of `buffer` is the string it points
to.  The length of a line goes through an `int`.  An access outside of an array is
`none`.
-/

namespace Sisop
namespace Xargs

open Groups

abbrev Byte := BitVec 8

/-- `END_STRING` and `NEW_LINE`. -/
def endString : Byte := 0
def newLine : Byte := 10

/-- `EOF`. -/
def eof : Int := -1

/-- What is left of a length in an `int`. -/
def intOf (n : Nat) : Int := (BitVec.ofNat 32 n).toInt

/-- `getline`: the bytes up to the next newline, which is one of them, or up to the
end of the input, and what is left of it. -/
def getline (input : List Byte) : Option (List Byte × List Byte) :=
  if input = [] then none
  else
    let behind := input.dropWhile (· ≠ newLine)
    some (input.takeWhile (· ≠ newLine) ++ behind.take 1, behind.drop 1)

/-- The string in the line when `line[len - 1]`, if it is a newline, has become its
end. -/
def cutNewLine (line : List Byte) (len : Int) : Option (List Byte) :=
  if 1 ≤ len then
    let last := (len - 1).toNat
    let line := if (line)[last]? = some newLine then line.set last endString else line
    some (line.takeWhile (· ≠ endString))
  else none

structure State where
  buffer : Nat → Option (List Byte)
  numArgs : Nat
  executed : List (List (List Byte))

variable (nargs : Nat)

/-- `buffer[i] = cell`. -/
def State.setCell (s : State) (i : Nat) (cell : Option (List Byte)) : Option State :=
  if i < nargs + 2 then some { s with buffer := Function.update s.buffer i cell } else none

/-- The arguments that `execvp` finds from `buffer[i]` on, up to the null pointer. -/
def argumentVector (buffer : Nat → Option (List Byte)) (i : Nat) : Option (List (List Byte)) :=
  if i < nargs + 2 then
    match buffer i with
    | none => some []
    | some arg => (argumentVector buffer (i + 1)).map (arg :: ·)
  else none
termination_by nargs + 2 - i

/-- `execute_command`. -/
def State.executeCommand (s : State) : Option State :=
  (argumentVector nargs s.buffer 0).map fun argv => { s with executed := s.executed ++ [argv] }

/-- The turn of the loop that a line has. -/
def State.processLine (s : State) (line : List Byte) : Option State := do
  let s ← s.setCell nargs (s.numArgs + 1) (some line)
  let s := { s with numArgs := s.numArgs + 1 }
  if s.numArgs = nargs then
    let s ← s.executeCommand nargs
    some { s with numArgs := 0 }
  else some s

/-- The arguments that are left behind the loop. -/
def State.processRest (s : State) : Option State :=
  if 0 < s.numArgs then do
    let s ← s.setCell nargs (s.numArgs + 1) none
    s.executeCommand nargs
  else some s

theorem getline_lt {input line rest : List Byte} (h : getline input = some (line, rest)) :
    rest.length < input.length := by
  unfold getline at h
  split at h
  · cases h
  · rename_i hne
    cases h
    have hle := (input.dropWhile_suffix (· ≠ newLine)).length_le
    have hpos := List.length_pos_of_ne_nil hne
    rw [List.length_drop]
    omega

def processInput (s : State) (input : List Byte) : Option State :=
  match _h : getline input with
  | none => s.processRest nargs
  | some (line, rest) =>
    if intOf line.length = eof then s.processRest nargs
    else do
      let line ← cutNewLine line (intOf line.length)
      let s ← s.processLine nargs line
      processInput s rest
termination_by input.length
decreasing_by exact getline_lt _h

/-- `main`: the argument vectors that are executed. -/
def xargs (command : List Byte) (input : List Byte) : Option (List (List (List Byte))) :=
  (processInput nargs ⟨fun i => if i = 0 then some command else none, 0, []⟩ input).map
    State.executed

/-! ## One group -/

variable {nargs} {s s' : State} {command line last : List Byte}
  {args pending ended : List (List Byte)} {buffer : Nat → Option (List Byte)} {i len : Nat}

/-- The lines of a group lie behind the command.  The cells behind them may still
have lines of the group before, up to the last one. -/
structure Pending (nargs : Nat) (command : List Byte) (s : State) (pending : List (List Byte)) :
    Prop where
  count : s.numArgs = pending.length
  room : pending.length < nargs
  head : s.buffer 0 = some command
  cell : ∀ i (h : i < pending.length), s.buffer (i + 1) = some pending[i]
  last : s.buffer (nargs + 1) = none

theorem argumentVector_eq (hcell : ∀ k (h : k < args.length), buffer (i + k) = some args[k])
    (hend : buffer (i + args.length) = none) (hin : i + args.length < nargs + 2) :
    argumentVector nargs buffer i = some args := by
  induction args generalizing i with
  | nil =>
    have hi : i < nargs + 2 := hin
    have hnull : buffer i = none := hend
    rw [argumentVector, if_pos hi, hnull]
  | cons arg args ih =>
    rw [List.length_cons] at hin hend
    have hfirst : buffer i = some arg := hcell 0 (Nat.succ_pos _)
    have hrest : argumentVector nargs buffer (i + 1) = some args := by
      refine ih (fun k hk => ?_) (by rw [← hend]; congr 1; omega) (by omega)
      have hk' := hcell (k + 1) (Nat.succ_lt_succ hk)
      rwa [← Nat.add_assoc, Nat.add_right_comm] at hk'
    rw [argumentVector, if_pos (by omega), hfirst]
    dsimp only
    rw [hrest]
    rfl

/-- The command is executed on the lines that lie behind it when a null pointer ends
them. -/
theorem executeCommand_eq (hhead : s.buffer 0 = some command)
    (hcell : ∀ i (h : i < args.length), s.buffer (i + 1) = some args[i])
    (hend : s.buffer (args.length + 1) = none) (hroom : args.length ≤ nargs) :
    s.executeCommand nargs = some { s with executed := s.executed ++ [command :: args] } := by
  have hargv : argumentVector nargs s.buffer 0 = some (command :: args) := by
    refine argumentVector_eq (fun k hk => ?_) ?_ ?_
    · cases k with
      | zero => exact hhead
      | succ k =>
        rw [Nat.zero_add]
        exact hcell k (Nat.lt_of_succ_lt_succ hk)
    · rw [Nat.zero_add]
      exact hend
    · rw [List.length_cons]
      omega
  rw [State.executeCommand, hargv]
  rfl

/-- The cells of a group to which a line has been added. -/
theorem Pending.store (h : Pending nargs command s pending) (line : List Byte) :
    Function.update s.buffer (pending.length + 1) (some line) 0 = some command ∧
    (∀ i (hi : i < (pending ++ [line]).length),
      Function.update s.buffer (pending.length + 1) (some line) (i + 1) =
        some (pending ++ [line])[i]) ∧
    Function.update s.buffer (pending.length + 1) (some line) (nargs + 1) = none := by
  have hroom := h.room
  refine ⟨?_, fun i hi => ?_, ?_⟩
  · rw [Function.update_of_ne (by omega)]
    exact h.head
  · rw [List.length_append, List.length_singleton] at hi
    by_cases heq : i = pending.length
    · subst heq
      rw [Function.update_self, List.getElem_concat_length rfl]
    · have hlt : i < pending.length := by omega
      rw [Function.update_of_ne (by omega), h.cell i hlt, List.getElem_append_left hlt]
  · rw [Function.update_of_ne (by omega)]
    exact h.last

theorem processLine_more (h : Pending nargs command s pending) (hmore : pending.length + 1 < nargs)
    (line : List Byte) : ∃ s', s.processLine nargs line = some s' ∧
      Pending nargs command s' (pending ++ [line]) ∧ s'.executed = s.executed := by
  obtain ⟨hhead, hcell, hlast⟩ := h.store line
  have hlen : (pending ++ [line]).length = pending.length + 1 := by simp
  unfold State.processLine State.setCell
  rw [h.count, if_pos (by omega), Option.bind_eq_bind, Option.bind_some]
  dsimp only
  rw [if_neg (by omega)]
  exact ⟨_, rfl, ⟨hlen.symm, by omega, hhead, hcell, hlast⟩, rfl⟩

theorem processLine_full (h : Pending nargs command s pending) (hfull : pending.length + 1 = nargs)
    (line : List Byte) : ∃ s', s.processLine nargs line = some s' ∧
      Pending nargs command s' [] ∧
      s'.executed = s.executed ++ [command :: (pending ++ [line])] := by
  obtain ⟨hhead, hcell, hlast⟩ := h.store line
  have hlen : (pending ++ [line]).length = nargs := by
    rw [List.length_append, List.length_singleton]
    exact hfull
  let s₁ : State := ⟨Function.update s.buffer (pending.length + 1) (some line),
    pending.length + 1, s.executed⟩
  have hrun : s₁.executeCommand nargs =
      some { s₁ with executed := s.executed ++ [command :: (pending ++ [line])] } := by
    refine executeCommand_eq hhead hcell ?_ (Nat.le_of_eq hlen)
    rw [hlen]
    exact hlast
  unfold State.processLine State.setCell
  rw [h.count, if_pos (by omega), Option.bind_eq_bind, Option.bind_some]
  dsimp only
  rw [if_pos hfull]
  refine ⟨_, congrArg (fun o => o.bind fun s => some { s with numArgs := 0 }) hrun, ?_, rfl⟩
  refine ⟨rfl, by rw [List.length_nil]; omega, hhead, fun i hi => ?_, hlast⟩
  exact absurd hi (Nat.not_lt_zero _)

theorem processRest_eq (h : Pending nargs command s pending) :
    (s.processRest nargs).map State.executed =
      some (s.executed ++ (groups nargs pending).map (command :: ·)) := by
  have hroom := h.room
  unfold State.processRest
  by_cases hnil : pending = []
  · have hzero : ¬ 0 < s.numArgs := by
      rw [h.count, hnil]
      exact Nat.lt_irrefl _
    rw [if_neg hzero, hnil, groups_nil, List.map_nil, List.append_nil]
    rfl
  · have hpos := List.length_pos_of_ne_nil hnil
    let s₁ : State := ⟨Function.update s.buffer (pending.length + 1) none, pending.length,
      s.executed⟩
    have hsame : ∀ i, i ≠ pending.length + 1 → s₁.buffer i = s.buffer i :=
      fun i hi => Function.update_of_ne hi none s.buffer
    have hrun : s₁.executeCommand nargs =
        some { s₁ with executed := s.executed ++ [command :: pending] } := by
      refine executeCommand_eq ?_ (fun i hi => ?_) (Function.update_self ..) (Nat.le_of_lt hroom)
      · rw [hsame 0 (by omega)]
        exact h.head
      · rw [hsame (i + 1) (by omega)]
        exact h.cell i hi
    unfold State.setCell
    rw [h.count, if_pos hpos, if_pos (by omega), Option.bind_eq_bind, Option.bind_some,
      groups_short hnil (Nat.le_of_lt hroom)]
    exact congrArg (Option.map State.executed) hrun

/-! ## All the groups -/

/-- The arguments that the loop takes from the input. -/
def taken (input : List Byte) : Option (List (List Byte)) :=
  match _h : getline input with
  | none => some []
  | some (line, rest) =>
    if intOf line.length = eof then some []
    else (cutNewLine line (intOf line.length)).bind fun arg => (taken rest).map (arg :: ·)
termination_by input.length
decreasing_by exact getline_lt _h

/-- The loop executes the command on what it takes, group by group. -/
theorem processInput_eq (input : List Byte) (h : Pending nargs command s pending) :
    (processInput nargs s input).map State.executed = (taken input).map fun args =>
      s.executed ++ (groups nargs (pending ++ args)).map (command :: ·) := by
  induction hn : input.length using Nat.strong_induction_on generalizing input s pending with
  | _ n ih =>
    have hend : (s.processRest nargs).map State.executed = (some []).map fun args =>
        s.executed ++ (groups nargs (pending ++ args)).map (command :: ·) := by
      rw [Option.map_some, List.append_nil]
      exact processRest_eq h
    rw [processInput, taken]
    cases hget : getline input with
    | none => exact hend
    | some p =>
      obtain ⟨line, rest⟩ := p
      have hlt := getline_lt hget
      dsimp only
      by_cases heof : intOf line.length = eof
      · rw [if_pos heof, if_pos heof]
        exact hend
      · rw [if_neg heof, if_neg heof, Option.bind_eq_bind]
        cases hcut : cutNewLine line (intOf line.length) with
        | none => rfl
        | some arg =>
          rw [Option.bind_some, Option.bind_some, Option.map_map]
          have hroom := h.room
          rcases Nat.lt_or_ge (pending.length + 1) nargs with hmore | hfull
          · obtain ⟨s', hline, hpending, hsame⟩ := processLine_more h hmore arg
            rw [hline, Option.bind_eq_bind, Option.bind_some,
              ih rest.length (hn ▸ hlt) rest hpending rfl, hsame]
            refine congrArg (fun f => (taken rest).map f) (funext fun args => ?_)
            rw [Function.comp_apply, List.append_assoc, List.singleton_append]
          · have hlen : pending.length + 1 = nargs := by omega
            obtain ⟨s', hline, hpending, hmore⟩ := processLine_full h hlen arg
            rw [hline, Option.bind_eq_bind, Option.bind_some,
              ih rest.length (hn ▸ hlt) rest hpending rfl, hmore]
            refine congrArg (fun f => (taken rest).map f) (funext fun args => ?_)
            have hgroup : (pending ++ [arg]).length = nargs := by
              rw [List.length_append, List.length_singleton]
              exact hlen
            rw [Function.comp_apply, List.nil_append, List.append_cons pending arg args,
              groups_full (by omega) hgroup, List.map_cons, List.append_assoc,
              List.singleton_append]

theorem xargs_eq (hn : 0 < nargs) (command input : List Byte) :
    xargs nargs command input = (taken input).map fun args =>
      (groups nargs args).map (command :: ·) := by
  have hstart : Pending nargs command
      ⟨fun i => if i = 0 then some command else none, 0, []⟩ [] := by
    have hlast : (if nargs + 1 = 0 then some command else none) = none :=
      if_neg (Nat.succ_ne_zero nargs)
    exact ⟨rfl, hn, rfl, fun i hi => absurd hi (Nat.not_lt_zero _), hlast⟩
  exact processInput_eq input hstart

/-! ## The lines of an input -/

/-- The bytes of an input: lines that end in a newline, and one without, if it is
not empty. -/
def text (ended : List (List Byte)) (last : List Byte) : List Byte :=
  ended.flatMap (· ++ [newLine]) ++ last

/-- Its lines. -/
def lines (ended : List (List Byte)) (last : List Byte) : List (List Byte) :=
  ended ++ if last = [] then [] else [last]

/-- The command is executed on the groups of `nargs` lines, in their order, and on
what remains. -/
def ExecutesGroups (nargs : Nat) (command : List Byte) (ended : List (List Byte))
    (last : List Byte) : Prop :=
  xargs nargs command (text ended last) =
    some ((groups nargs (lines ended last)).map (command :: ·))

/-- The lengths of the lines, newlines included, fit in an `int`.  For a line without
a newline it is enough that what is left of the length is positive. -/
def LengthsFit (ended : List (List Byte)) (last : List Byte) : Prop :=
  (∀ line ∈ ended, line.length + 1 < 2 ^ 31) ∧
    (last ≠ [] → 0 < last.length % 2 ^ 32 ∧ last.length % 2 ^ 32 < 2 ^ 31)

theorem intOf_eq (len : Nat) :
    intOf len = if len % 2 ^ 32 < 2 ^ 31 then ((len % 2 ^ 32 : Nat) : Int)
      else ((len % 2 ^ 32 : Nat) : Int) - 2 ^ 32 := by
  unfold intOf
  rw [BitVec.toInt_eq_toNat_cond, BitVec.toNat_ofNat]
  split
  · rw [if_pos (by omega)]
  · rw [if_neg (by omega)]
    rfl

theorem getline_ended (hline : newLine ∉ line) (rest : List Byte) :
    getline (line ++ newLine :: rest) = some (line ++ [newLine], rest) := by
  have hall : ∀ b ∈ line, decide (b ≠ newLine) = true := by
    intro b hb
    exact decide_eq_true fun heq => hline (heq ▸ hb)
  have hne : line ++ newLine :: rest ≠ [] :=
    List.append_ne_nil_of_right_ne_nil _ (List.cons_ne_nil _ _)
  unfold getline
  rw [if_neg hne, List.takeWhile_append_of_pos hall, List.takeWhile_cons_of_neg (by decide),
    List.dropWhile_append_of_pos hall, List.dropWhile_cons_of_neg (by decide), List.append_nil]
  rfl

theorem getline_last (hline : newLine ∉ last) (hne : last ≠ []) :
    getline last = some (last, []) := by
  have hall : ∀ b ∈ last, decide (b ≠ newLine) = true := by
    intro b hb
    exact decide_eq_true fun heq => hline (heq ▸ hb)
  unfold getline
  rw [if_neg hne, List.takeWhile_eq_self_iff.mpr hall, List.dropWhile_eq_nil_iff.mpr hall]
  simp

/-! ## What is taken of a line -/

theorem takeWhile_string (hline : endString ∉ line) : line.takeWhile (· ≠ endString) = line := by
  rw [List.takeWhile_eq_self_iff]
  intro b hb
  exact decide_eq_true fun heq => hline (heq ▸ hb)

theorem cutNewLine_end (hline : endString ∉ line) :
    cutNewLine (line ++ [newLine]) ((line.length + 1 : Nat) : Int) = some line := by
  have hlast : (((line.length + 1 : Nat) : Int) - 1).toNat = line.length := by omega
  have hall : ∀ b ∈ line, decide (b ≠ endString) = true := by
    intro b hb
    exact decide_eq_true fun heq => hline (heq ▸ hb)
  unfold cutNewLine
  rw [if_pos (by omega), hlast]
  dsimp only
  rw [if_pos List.getElem?_concat_length, List.set_append_right _ _ (Nat.le_refl _), Nat.sub_self,
    List.set_cons_zero, List.takeWhile_append_of_pos hall, List.takeWhile_cons_of_neg (by decide),
    List.append_nil]

/-- A newline that the length does not lead to stays. -/
theorem cutNewLine_kept {len : Int} (hlen : 1 ≤ len)
    (hbyte : (line)[(len - 1).toNat]? ≠ some newLine) (hline : endString ∉ line) :
    cutNewLine line len = some line := by
  unfold cutNewLine
  rw [if_pos hlen]
  dsimp only
  rw [if_neg hbyte, takeWhile_string hline]

theorem getElem?_ne (hline : newLine ∉ line) (i : Nat) : (line)[i]? ≠ some newLine :=
  fun h => hline (List.mem_of_getElem? h)

theorem taken_nil : taken [] = some [] := by
  rw [taken]
  rfl

theorem taken_step {input rest : List Byte} (hget : getline input = some (line, rest)) :
    taken input = if intOf line.length = eof then some []
      else (cutNewLine line (intOf line.length)).bind fun arg => (taken rest).map (arg :: ·) := by
  rw [taken, hget]

/-- A line that ends in a newline is taken when its length fits. -/
theorem taken_ended (hline : newLine ∉ line) (hstring : endString ∉ line) (rest : List Byte) :
    taken (line ++ newLine :: rest) = some (line :: args) ↔
      line.length + 1 < 2 ^ 31 ∧ taken rest = some args := by
  have hlen : (line ++ [newLine]).length = line.length + 1 := by simp
  rw [taken_step (getline_ended hline rest), hlen, intOf_eq]
  by_cases hfits : line.length + 1 < 2 ^ 31
  · have hmod : (line.length + 1) % 2 ^ 32 = line.length + 1 := Nat.mod_eq_of_lt (by omega)
    rw [hmod, if_pos hfits, if_neg (by unfold eof; omega), cutNewLine_end hstring, Option.bind_some]
    constructor
    · intro h
      obtain ⟨args', htaken, heq⟩ := Option.map_eq_some_iff.mp h
      cases heq
      exact ⟨hfits, htaken⟩
    · rintro ⟨-, htaken⟩
      rw [htaken]
      rfl
  · refine iff_of_false ?_ fun h => hfits h.1
    have hstring' : endString ∉ line ++ [newLine] := by
      intro hmem
      rcases List.mem_append.mp hmem with hin | hin
      · exact hstring hin
      · exact absurd (List.mem_singleton.mp hin) (by decide)
    rw [← intOf_eq]
    by_cases heof : intOf (line.length + 1) = eof
    · rw [if_pos heof]
      intro h
      cases h
    · rw [if_neg heof]
      by_cases hpos : 1 ≤ intOf (line.length + 1)
      · have hinside : (intOf (line.length + 1) - 1).toNat < line.length := by
          rw [intOf_eq] at hpos ⊢
          split at hpos
          · rw [if_pos (by assumption)]
            omega
          · omega
        have hbyte : (line ++ [newLine])[(intOf (line.length + 1) - 1).toNat]? ≠ some newLine := by
          rw [List.getElem?_append_left hinside]
          exact getElem?_ne hline _
        rw [cutNewLine_kept hpos hbyte hstring', Option.bind_some]
        intro h
        obtain ⟨args', -, heq⟩ := Option.map_eq_some_iff.mp h
        have hlong := congrArg List.length (List.cons.inj heq).1
        omega
      · have hnone : cutNewLine (line ++ [newLine]) (intOf (line.length + 1)) = none :=
          if_neg hpos
        rw [hnone]
        intro h
        cases h

/-- A line without a newline needs no cut. -/
theorem taken_last (hline : newLine ∉ last) (hstring : endString ∉ last) (hne : last ≠ []) :
    taken last = some [last] ↔ 0 < last.length % 2 ^ 32 ∧ last.length % 2 ^ 32 < 2 ^ 31 := by
  rw [taken_step (getline_last hline hne)]
  by_cases hpos : 1 ≤ intOf last.length
  · rw [if_neg (by unfold eof; omega), cutNewLine_kept hpos (getElem?_ne hline _) hstring,
      Option.bind_some, taken_nil]
    refine iff_of_true rfl ?_
    rw [intOf_eq] at hpos
    split at hpos
    · exact ⟨by omega, by assumption⟩
    · omega
  · refine iff_of_false ?_ ?_
    · split
      · intro h
        cases h
      · have hnone : cutNewLine last (intOf last.length) = none := if_neg hpos
        rw [hnone]
        intro h
        cases h
    · rintro ⟨hlow, hhigh⟩
      rw [intOf_eq, if_pos hhigh] at hpos
      omega

theorem text_cons (line : List Byte) (ended : List (List Byte)) (last : List Byte) :
    text (line :: ended) last = line ++ newLine :: text ended last := by
  unfold text
  rw [List.flatMap_cons, List.append_assoc, List.append_assoc]
  rfl

/-- The lines are taken exactly when their lengths fit. -/
theorem taken_text (hlines : ∀ line ∈ lines ended last, newLine ∉ line ∧ endString ∉ line) :
    taken (text ended last) = some (lines ended last) ↔ LengthsFit ended last := by
  induction ended with
  | nil =>
    by_cases hnil : last = []
    · subst hnil
      refine iff_of_true taken_nil ⟨fun line hline => ?_, fun hne => absurd rfl hne⟩
      exact absurd hline List.not_mem_nil
    · have hself : lines [] last = [last] := if_neg hnil
      rw [hself] at hlines ⊢
      obtain ⟨hline, hstring⟩ := hlines last List.mem_cons_self
      have htext : text [] last = last := rfl
      rw [htext, taken_last hline hstring hnil]
      constructor
      · intro hfits
        exact ⟨fun line hline => absurd hline List.not_mem_nil, fun _ => hfits⟩
      · intro hfits
        exact hfits.2 hnil
  | cons line ended ih =>
    have hself : lines (line :: ended) last = line :: lines ended last := rfl
    rw [hself] at hlines ⊢
    obtain ⟨hline, hstring⟩ := hlines line List.mem_cons_self
    have hrest := ih fun line' hline' => hlines line' (List.mem_cons_of_mem _ hline')
    rw [text_cons, taken_ended hline hstring, hrest]
    constructor
    · rintro ⟨hfits, hended, hlast⟩
      exact ⟨List.forall_mem_cons.mpr ⟨hfits, hended⟩, hlast⟩
    · rintro ⟨hall, hlast⟩
      obtain ⟨hfits, hended⟩ := List.forall_mem_cons.mp hall
      exact ⟨hfits, hended, hlast⟩

theorem executesGroups_taken (hn : 0 < nargs) : ExecutesGroups nargs command ended last ↔
    taken (text ended last) = some (lines ended last) := by
  have hcons : Function.Injective fun args : List (List Byte) => command :: args :=
    fun a b h => (List.cons.inj h).2
  unfold ExecutesGroups
  rw [xargs_eq hn]
  constructor
  · intro h
    obtain ⟨args, htaken, heq⟩ := Option.map_eq_some_iff.mp h
    rw [htaken, groups_injective hn (List.map_injective_iff.mpr hcons heq)]
  · intro h
    rw [h]
    rfl

/-- The command is executed on the groups of the lines exactly when their lengths fit. -/
theorem executesGroups_iff (command : List Byte) (hn : 0 < nargs)
    (hlines : ∀ line ∈ lines ended last, newLine ∉ line ∧ endString ∉ line) :
    ExecutesGroups nargs command ended last ↔ LengthsFit ended last :=
  (executesGroups_taken hn).trans (taken_text hlines)

/-- The lines `a`, `b` and `c`, two at a time: a full group and a short one. -/
theorem executesGroups_three : ExecutesGroups 2 [101] [[97], [98]] [99] ↔
    LengthsFit [[97], [98]] [99] :=
  executesGroups_iff [101] (by decide) (by decide)

/-- A line of `2 ^ 32 - 1` bytes with its newline. -/
def longLine : List Byte := List.replicate (2 ^ 32 - 2) 97

/-- The length of a line that ends the loop like the end of the input. -/
theorem longLine_lost : (∀ line ∈ lines [longLine] [], newLine ∉ line ∧ endString ∉ line) ∧
    ¬ ExecutesGroups 4 [101] [longLine] [] := by
  have hbyte : ∀ b : Byte, b ≠ 97 → b ∉ longLine := by
    intro b hb hmem
    exact hb (List.eq_of_mem_replicate hmem)
  have hline : newLine ∉ longLine := hbyte _ (by decide)
  constructor
  · intro line hmem
    rw [List.mem_singleton.mp hmem]
    exact ⟨hline, hbyte _ (by decide)⟩
  · rw [executesGroups_taken (by decide), text_cons]
    have hlen : (longLine ++ [newLine]).length = 2 ^ 32 - 1 := by
      rw [List.length_append, longLine, List.length_replicate]
      rfl
    have heof : intOf (2 ^ 32 - 1) = eof := by decide
    rw [taken_step (getline_ended hline _), hlen, if_pos heof]
    intro h
    cases h

end Xargs
end Sisop

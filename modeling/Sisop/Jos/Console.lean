import Mathlib.Data.BitVec
import Sisop.Lib.RingBuffer
import Sisop.Lib.Reach

/-!
# What is typed

The input side of `kern/console.c`.  A `Poll` is what one call of `kbd_proc_data` or
`serial_proc_data` finds in the registers of its device, so that a list of them is any behaviour
of the device until it has nothing left.

The scan codes are read twice.  The code keeps the keys that are held, those that are locked and
the escape byte in one word and changes its bits byte by byte; `keyEvents` cuts the bytes into
keys that are pressed or released, and `heldAt` and `lockedAt` say what of them matters.
-/

namespace Sisop
namespace Jos

open TransitionSystem

abbrev Key := BitVec 8

def consbufsize : Nat := 512

/-! ## The keyboard's tables -/

def shiftBit : BitVec 32 := 1#32
def ctlBit : BitVec 32 := 2#32
def altBit : BitVec 32 := 4#32
def capslock : BitVec 32 := 8#32
def numlock : BitVec 32 := 16#32
def scrolllock : BitVec 32 := 32#32
def e0esc : BitVec 32 := 64#32

def shiftcode (data : Key) : BitVec 32 :=
  if data = 0x1D#8 ∨ data = 0x9D#8 then ctlBit
  else if data = 0x2A#8 ∨ data = 0x36#8 then shiftBit
  else if data = 0x38#8 ∨ data = 0xB8#8 then altBit
  else 0#32

def togglecode (data : Key) : BitVec 32 :=
  if data = 0x3A#8 then capslock
  else if data = 0x45#8 then numlock
  else if data = 0x46#8 then scrolllock
  else 0#32

def chr (c : Char) : Key := BitVec.ofNat 8 c.toNat

/-- An array that lists its first entries and names some of the others. -/
def keyTable (listed : List Key) (named : List (Key × Key)) (data : Key) : Key :=
  if data.toNat < listed.length then listed.getD data.toNat 0#8 else (named.lookup data).getD 0#8

def no : Key := 0#8

/-- The entries of the grey keys from `KEY_UP` on, which the three tables share. -/
def greyKeys : List (Key × Key) :=
  [(0xC8#8, 0xE2#8), (0xC9#8, 0xE6#8), (0xCB#8, 0xE4#8), (0xCD#8, 0xE5#8), (0xCF#8, 0xE1#8),
    (0xD0#8, 0xE3#8), (0xD1#8, 0xE7#8), (0xD2#8, 0xE8#8), (0xD3#8, 0xE9#8)]

/-- From the space key on, `normalmap` and `shiftmap` are one. -/
def spaceRow : List Key :=
  [no, chr ' '] ++ List.replicate 13 no ++ "789-456+1230.".toList.map chr ++ List.replicate 4 no

def normalmap : Key → Key :=
  keyTable ([no, 0x1B#8] ++ "1234567890-=\x08\tqwertyuiop[]\n".toList.map chr ++ [no] ++
    "asdfghjkl;'`".toList.map chr ++ [no] ++ "\\zxcvbnm,./".toList.map chr ++ [no, chr '*'] ++ spaceRow)
    ([(0xC7#8, 0xE0#8), (0x9C#8, chr '\n'), (0xB5#8, chr '/')] ++ greyKeys)

def shiftmap : Key → Key :=
  keyTable ([no, 0x1B#8] ++ "!@#$%^&*()_+\x08\tQWERTYUIOP\x7b\x7d\n".toList.map chr ++ [no] ++
    "ASDFGHJKL:\"~".toList.map chr ++ [no] ++ "|ZXCVBNM<>?".toList.map chr ++ [no, chr '*'] ++ spaceRow)
    ([(0xC7#8, 0xE0#8), (0x9C#8, chr '\n'), (0xB5#8, chr '/')] ++ greyKeys)

/-- `C(x)`. -/
def ctlOf (c : Char) : Key := chr c - chr '@'

/-- Its entry of `KEY_HOME` is at 0x97, unlike the others'. -/
def ctlmap : Key → Key :=
  keyTable (List.replicate 16 no ++ "QWERTYUIOP".toList.map ctlOf ++ [no, no, chr '\r', no] ++
    "ASDFGHJKL".toList.map ctlOf ++ List.replicate 4 no ++ "\\ZXCVBNM".toList.map ctlOf ++
    [no, no, ctlOf '/', no, no])
    ([(0x97#8, 0xE0#8), (0xB5#8, ctlOf '/')] ++ greyKeys)

def keyDel : Key := 0xE9#8

/-- `charcode[shift & (CTL | SHIFT)][data]`. -/
def charcode (shift : BitVec 32) (data : Key) : Key :=
  if shift &&& ctlBit ≠ 0#32 then ctlmap data
  else if shift &&& shiftBit ≠ 0#32 then shiftmap data
  else normalmap data

/-! ## The devices -/

/-- The status register of a device, and its data register. -/
structure Poll where
  stat : BitVec 8
  data : Key

/-- `reboot` is set by a write to port 0x92. -/
structure Input where
  cons : RingBuffer consbufsize Key
  shift : BitVec 32
  serialExists : Bool
  reboot : Bool

/-- Whether there is a byte, and not one of the mouse. -/
def Poll.ready (p : Poll) : Bool := p.stat &&& 0x01#8 ≠ 0#8 ∧ p.stat &&& 0x20#8 = 0#8

/-- Letters are exchanged for those of the other case. -/
def swapCase (c : Key) : Key :=
  if chr 'a' ≤ c ∧ c ≤ chr 'z' then c + (chr 'A' - chr 'a')
  else if chr 'A' ≤ c ∧ c ≤ chr 'Z' then c + (chr 'a' - chr 'A')
  else c

/-- What `kbd_proc_data` does with a byte it has read. -/
def kbdData (s : Input) (data : Key) : Key × Input :=
  if data = 0xE0#8 then (0#8, { s with shift := s.shift ||| e0esc })
  else if data &&& 0x80#8 ≠ 0#8 then
    let data := if s.shift &&& e0esc ≠ 0#32 then data else data &&& 0x7F#8
    (0#8, { s with shift := s.shift &&& ~~~(shiftcode data ||| e0esc) })
  else
    let code := if s.shift &&& e0esc ≠ 0#32 then data ||| 0x80#8 else data
    let shift := if s.shift &&& e0esc ≠ 0#32 then s.shift &&& ~~~e0esc else s.shift
    let shift := (shift ||| shiftcode code) ^^^ togglecode code
    let c := charcode shift code
    let c := if shift &&& capslock ≠ 0#32 then swapCase c else c
    let reboot := ~~~shift &&& (ctlBit ||| altBit) = 0#32 ∧ c = keyDel
    (c, { s with shift, reboot := s.reboot || reboot })

/-- None is -1. -/
def kbdProcData (s : Input) (p : Poll) : Option Key × Input :=
  if p.ready then
    let (c, s) := kbdData s p.data
    (some c, s)
  else (none, s)

def serialProcData (s : Input) (p : Poll) : Option Key × Input :=
  if p.stat &&& 0x01#8 = 0#8 then (none, s) else (some p.data, s)

/-- The loop of `cons_intr`, and the characters it puts into the buffer. -/
def consIntr (proc : Input → Poll → Option Key × Input) : Input → List Poll → Input × List Key
  | s, [] => (s, [])
  | s, p :: ps =>
      match proc s p with
      | (none, s) => (s, [])
      | (some c, s) =>
          if c = 0#8 then consIntr proc s ps
          else
            let (s, cs) := consIntr proc { s with cons := s.cons.put c } ps
            (s, c :: cs)

def kbdIntr (s : Input) (ps : List Poll) : Input × List Key := consIntr kbdProcData s ps

def serialIntr (s : Input) (ps : List Poll) : Input × List Key :=
  if s.serialExists then consIntr serialProcData s ps else (s, [])

/-- `cons_getc` once it has polled both devices: 0 when there is no character. -/
def consGetc (s : Input) : Key × Input :=
  match s.cons.get with
  | none => (0#8, s)
  | some (c, cons) => (c, { s with cons })

/-! ## Runs -/

/-- `written` and `taken` are all characters put into the buffer and all those `cons_getc`
returned, and `scanned` the bytes of the keyboard that were read. -/
structure ConsState where
  input : Input
  written : List Key
  taken : List Key
  scanned : List Key

inductive ConsEvent
  | kbd (ps : List Poll)
  | serial (ps : List Poll)
  | getc

/-- The bytes `kbd_intr` reads. -/
def scannedOf (ps : List Poll) : List Key := (ps.takeWhile Poll.ready).map Poll.data

/-- `cons_getc` calls the two interrupt routines first, which are events of their own. -/
def consNext (s : ConsState) : ConsEvent → ConsState
  | .kbd ps =>
      let (input, cs) := kbdIntr s.input ps
      { s with input, written := s.written ++ cs,
               scanned := s.scanned ++ scannedOf ps }
  | .serial ps =>
      let (input, cs) := serialIntr s.input ps
      { s with input, written := s.written ++ cs }
  | .getc =>
      let (c, input) := consGetc s.input
      { s with input, taken := if c = 0#8 then s.taken else s.taken ++ [c] }

def consSystem : TransitionSystem ConsState ConsEvent where
  init s := s.input.cons.rpos = 0 ∧ s.input.cons.wpos = 0 ∧ s.input.shift = 0#32 ∧
    s.written = [] ∧ s.taken = [] ∧ s.scanned = []
  step s ev s' := consNext s ev = s'

/-! ## The buffer -/

section

variable {proc : Input → Poll → Option Key × Input} {s : Input} {p : Poll} {ps : List Poll}
  {written taken : List Key}

theorem kbdData_cons (s : Input) (data : Key) : (kbdData s data).2.cons = s.cons := by
  unfold kbdData
  split
  · rfl
  · split <;> rfl

theorem kbdProcData_cons (s : Input) (p : Poll) : (kbdProcData s p).2.cons = s.cons := by
  unfold kbdProcData
  split
  · exact kbdData_cons s p.data
  · rfl

theorem serialProcData_cons (s : Input) (p : Poll) : (serialProcData s p).2.cons = s.cons := by
  unfold serialProcData
  split <;> rfl

theorem consIntr_none {s' : Input} (h : proc s p = (none, s')) :
    consIntr proc s (p :: ps) = (s', []) := by
  rw [consIntr, h]

theorem consIntr_zero {s' : Input} (h : proc s p = (some 0#8, s')) :
    consIntr proc s (p :: ps) = consIntr proc s' ps := by
  rw [consIntr, h]
  exact if_pos rfl

theorem consIntr_some {s' : Input} {c : Key} (h : proc s p = (some c, s')) (hc : c ≠ 0#8) :
    consIntr proc s (p :: ps) =
      ((consIntr proc { s' with cons := s'.cons.put c } ps).1,
        c :: (consIntr proc { s' with cons := s'.cons.put c } ps).2) := by
  rw [consIntr, h]
  exact if_neg hc

/-- The characters of the loop go into the buffer one behind the other, and none is 0. -/
theorem consIntr_history (ps : List Poll) (hproc : ∀ s p, (proc s p).2.cons = s.cons)
    (h : s.cons.History written taken) :
    (consIntr proc s ps).1.cons.History (written ++ (consIntr proc s ps).2) taken ∧
      0#8 ∉ (consIntr proc s ps).2 := by
  induction ps generalizing s written with
  | nil =>
      refine ⟨?_, List.not_mem_nil⟩
      rw [consIntr, List.append_nil]
      exact h
  | cons p ps ih =>
      have hcons := hproc s p
      obtain ⟨c, s', hp⟩ : ∃ c s', proc s p = (c, s') := ⟨_, _, rfl⟩
      rw [hp] at hcons
      have h' : s'.cons.History written taken := hcons ▸ h
      cases c with
      | none =>
          rw [consIntr_none hp, List.append_nil]
          exact ⟨h', List.not_mem_nil⟩
      | some c =>
          by_cases hc : c = 0#8
          · subst hc
            rw [consIntr_zero hp]
            exact ih h'
          · rw [consIntr_some hp hc]
            have hput : ({ s' with cons := s'.cons.put c } : Input).cons.History (written ++ [c]) taken :=
              h'.put c
            obtain ⟨hrest, hzero⟩ := ih hput
            refine ⟨?_, fun hmem => ?_⟩
            · rw [List.append_assoc, List.singleton_append] at hrest
              exact hrest
            · rcases List.mem_cons.mp hmem with heq | hmem
              · exact hc heq.symm
              · exact hzero hmem

end

section

variable {s s' : ConsState} {ev : ConsEvent}

structure BufferInv (s : ConsState) : Prop where
  history : s.input.cons.History s.written s.taken
  nonzero : 0#8 ∉ s.written

theorem BufferInv.intr {proc : Input → Poll → Option Key × Input} {ps : List Poll} {scanned : List Key}
    (h : BufferInv s) (hproc : ∀ s p, (proc s p).2.cons = s.cons) :
    BufferInv { s with
      input := (consIntr proc s.input ps).1
      written := s.written ++ (consIntr proc s.input ps).2
      scanned } := by
  obtain ⟨hist, hzero⟩ := consIntr_history ps hproc h.history
  refine ⟨hist, fun hmem => ?_⟩
  rcases List.mem_append.mp hmem with hmem | hmem
  · exact h.nonzero hmem
  · exact hzero hmem

/-- No character that waits is 0. -/
theorem BufferInv.get_ne_zero (h : BufferInv s) {c : Key} {cons : RingBuffer consbufsize Key}
    (hg : s.input.cons.get = some (c, cons)) : c ≠ 0#8 := by
  rintro rfl
  obtain ⟨kept, heq, -⟩ := h.history.kept
  refine h.nonzero ?_
  rw [heq, h.history.valid.unread_get hg]
  exact List.mem_append_right _ List.mem_cons_self

theorem BufferInv.next (h : BufferInv s) (ev : ConsEvent) : BufferInv (consNext s ev) := by
  cases ev with
  | kbd ps => exact h.intr kbdProcData_cons
  | serial ps =>
      show BufferInv { s with input := (serialIntr s.input ps).1,
                              written := s.written ++ (serialIntr s.input ps).2 }
      by_cases hserial : s.input.serialExists = true
      · rw [serialIntr, if_pos hserial]
        exact h.intr serialProcData_cons
      · rw [serialIntr, if_neg hserial, List.append_nil]
        exact h
  | getc =>
      unfold consNext consGetc
      cases hg : s.input.cons.get with
      | none => exact h
      | some x =>
          obtain ⟨c, cons⟩ := x
          refine ⟨?_, h.nonzero⟩
          show cons.History s.written (if c = 0#8 then s.taken else s.taken ++ [c])
          rw [if_neg (h.get_ne_zero hg)]
          exact h.history.get hg

theorem BufferInv.initial (h : consSystem.init s) : BufferInv s := by
  obtain ⟨hr, hw, -, hwritten, htaken, -⟩ := h
  have hcount : s.input.cons.count = 0 := by
    unfold RingBuffer.count
    rw [hr, hw]
    rfl
  refine ⟨⟨⟨by rw [hr]; decide, by rw [hw]; decide⟩, [], ?_, ?_⟩, ?_⟩
  · rw [hwritten, List.nil_append, eq_comm, ← List.length_eq_zero_iff, RingBuffer.length_unread]
    exact hcount
  · rw [htaken]
    exact .nil
  · rw [hwritten]
    exact List.not_mem_nil

/-- A call of `cons_getc` returns the oldest character that waits, and 0 only when none does. -/
theorem BufferInv.getc (h : BufferInv s) :
    (consGetc s.input).1 = s.input.cons.unread.headD 0#8 ∧
      ((consGetc s.input).1 = 0#8 ↔ s.input.cons.unread = []) := by
  unfold consGetc
  cases hg : s.input.cons.get with
  | none =>
      have hnone := (RingBuffer.get_eq_none h.history.valid).mp hg
      rw [hnone]
      exact ⟨rfl, iff_of_true rfl rfl⟩
  | some x =>
      obtain ⟨c, cons⟩ := x
      rw [h.history.valid.unread_get hg]
      exact ⟨rfl, iff_of_false (h.get_ne_zero hg) (List.cons_ne_nil _ _)⟩

end

/-! ## The keys -/

/-- A key that is pressed or released.  The codes behind an escape byte have their high bit set. -/
structure KeyEvent where
  code : Key
  pressed : Bool

def keyEvent (escaped : Bool) (data : Key) : KeyEvent :=
  if data &&& 0x80#8 ≠ 0#8 then ⟨if escaped then data else data &&& 0x7F#8, false⟩
  else ⟨if escaped then data ||| 0x80#8 else data, true⟩

/-- The bytes of a keyboard, cut into keys. -/
def keyEvents : Bool → List Key → List KeyEvent
  | _, [] => []
  | escaped, data :: rest =>
      if data = 0xE0#8 then keyEvents true rest else keyEvent escaped data :: keyEvents false rest

/-- Whether an escape byte waits for its key. -/
def escapedAfter : Bool → List Key → Bool
  | escaped, [] => escaped
  | _, data :: rest => escapedAfter (data == 0xE0#8) rest

/-- Whether the last key of modifier `i` was pressed. -/
def heldAt (i : Nat) (es : List KeyEvent) : Bool :=
  match (es.filter fun e => (shiftcode e.code).getLsbD i).getLast? with
  | none => false
  | some e => e.pressed

/-- Whether lock `i` was pressed an odd number of times. -/
def lockedAt (i : Nat) (es : List KeyEvent) : Bool :=
  (es.countP fun e => e.pressed && (togglecode e.code).getLsbD i) % 2 == 1

/-- What `shift` says of the bytes so far: which modifiers are held, which locks are set, and
whether the last byte was an escape. -/
structure ShiftReads (shift : BitVec 32) (escaped : Bool) (es : List KeyEvent) : Prop where
  held : ∀ i, i < 3 → shift.getLsbD i = heldAt i es
  locked : ∀ i, 3 ≤ i → i < 6 → shift.getLsbD i = lockedAt i es
  escape : shift.getLsbD 6 = escaped

section

variable {i : Nat} {es : List KeyEvent} {e : KeyEvent} {s : Input} {shift : BitVec 32}
  {escaped : Bool} {data : Key}

theorem heldAt_append : heldAt i (es ++ [e]) =
    if (shiftcode e.code).getLsbD i then e.pressed else heldAt i es := by
  have hone : [e].filter (fun e => (shiftcode e.code).getLsbD i) =
      if (shiftcode e.code).getLsbD i then [e] else [] := List.filter_cons
  unfold heldAt
  rw [List.filter_append, hone]
  by_cases hcode : (shiftcode e.code).getLsbD i = true
  · rw [if_pos hcode, if_pos hcode, List.getLast?_concat]
  · rw [if_neg hcode, if_neg hcode, List.append_nil]

theorem lockedAt_append : lockedAt i (es ++ [e]) =
    (lockedAt i es ^^ (e.pressed && (togglecode e.code).getLsbD i)) := by
  unfold lockedAt
  rw [List.countP_append, List.countP_singleton]
  cases e.pressed && (togglecode e.code).getLsbD i with
  | true =>
      rw [if_pos rfl, Bool.xor_true]
      rcases Nat.mod_two_eq_zero_or_one (es.countP fun e => e.pressed && (togglecode e.code).getLsbD i)
        with h | h <;> rw [Nat.add_mod, h] <;> rfl
  | false =>
      rw [if_neg Bool.false_ne_true, Bool.xor_false]
      rfl

theorem e0esc_getLsbD (hi : i < 6) : e0esc.getLsbD i = false := by
  have hall : ∀ i, i < 6 → e0esc.getLsbD i = false := by decide
  exact hall i hi

theorem togglecode_getLsbD (data : Key) (hi : i < 3) : (togglecode data).getLsbD i = false := by
  have hall : ∀ i, i < 3 → capslock.getLsbD i = false ∧ numlock.getLsbD i = false ∧
    scrolllock.getLsbD i = false := by decide
  obtain ⟨hcaps, hnum, hscroll⟩ := hall i hi
  unfold togglecode
  split
  · exact hcaps
  · split
    · exact hnum
    · split
      · exact hscroll
      · exact BitVec.getLsbD_zero

theorem shiftcode_getLsbD (data : Key) (hi : 3 ≤ i) (hi' : i < 7) :
    (shiftcode data).getLsbD i = false := by
  have hall : ∀ i, i < 7 → 3 ≤ i → ctlBit.getLsbD i = false ∧ shiftBit.getLsbD i = false ∧
    altBit.getLsbD i = false := by decide
  obtain ⟨hctl, hshift, halt⟩ := hall i hi' hi
  unfold shiftcode
  split
  · exact hctl
  · split
    · exact hshift
    · split
      · exact halt
      · exact BitVec.getLsbD_zero

theorem togglecode_escape (data : Key) : (togglecode data).getLsbD 6 = false := by
  unfold togglecode
  split
  · rfl
  · split
    · rfl
    · split <;> rfl

theorem and_e0esc : shift &&& e0esc ≠ 0#32 ↔ shift.getLsbD 6 = true := by
  constructor
  · intro hne
    by_contra hf
    refine hne (BitVec.eq_of_getLsbD_eq fun i hi => ?_)
    rw [BitVec.getLsbD_and, BitVec.getLsbD_zero]
    by_cases hi6 : i = 6
    · rw [hi6, Bool.eq_false_iff.mpr hf]
      rfl
    · have hall : ∀ i, i < 32 → i ≠ 6 → e0esc.getLsbD i = false := by decide
      rw [hall i hi hi6, Bool.and_false]
  · intro ht hz
    have hbit : (shift &&& e0esc).getLsbD 6 = false := by
      rw [hz]
      exact BitVec.getLsbD_zero
    rw [BitVec.getLsbD_and, ht] at hbit
    cases hbit

/-- A press sets the bits of its modifier and changes those of its lock. -/
theorem ShiftReads.press (h : ShiftReads shift escaped es) (code : Key) {shift' : BitVec 32}
    (hlow : ∀ i, i < 6 → shift'.getLsbD i = shift.getLsbD i) (hesc : shift'.getLsbD 6 = false) :
    ShiftReads ((shift' ||| shiftcode code) ^^^ togglecode code) false (es ++ [⟨code, true⟩]) := by
  refine ⟨fun i hi => ?_, fun i hi hi' => ?_, ?_⟩
  · rw [BitVec.getLsbD_xor, BitVec.getLsbD_or, hlow i (by omega), h.held i hi,
      togglecode_getLsbD code hi, Bool.xor_false, heldAt_append]
    cases (shiftcode code).getLsbD i with
    | true => exact Bool.or_true _
    | false => exact Bool.or_false _
  · rw [BitVec.getLsbD_xor, BitVec.getLsbD_or, hlow i hi', h.locked i hi hi',
      shiftcode_getLsbD code hi (by omega), Bool.or_false, lockedAt_append, Bool.true_and]
  · rw [BitVec.getLsbD_xor, BitVec.getLsbD_or, hesc, shiftcode_getLsbD code (by omega) (by omega),
      togglecode_escape]
    rfl

/-- A release clears the bits of its modifier. -/
theorem ShiftReads.release (h : ShiftReads shift escaped es) (code : Key) :
    ShiftReads (shift &&& ~~~(shiftcode code ||| e0esc)) false (es ++ [⟨code, false⟩]) := by
  have hbit : ∀ i, i < 32 → (shift &&& ~~~(shiftcode code ||| e0esc)).getLsbD i =
      (shift.getLsbD i && !((shiftcode code).getLsbD i || e0esc.getLsbD i)) := fun i hi => by
    rw [BitVec.getLsbD_and, BitVec.getLsbD_not, BitVec.getLsbD_or, decide_eq_true hi, Bool.true_and]
  refine ⟨fun i hi => ?_, fun i hi hi' => ?_, ?_⟩
  · rw [hbit i (by omega), h.held i hi, e0esc_getLsbD (by omega), Bool.or_false, heldAt_append]
    cases (shiftcode code).getLsbD i with
    | true => exact Bool.and_false _
    | false => exact Bool.and_true _
  · rw [hbit i (by omega), h.locked i hi hi', shiftcode_getLsbD code hi (by omega),
      e0esc_getLsbD hi', lockedAt_append]
    rw [Bool.false_and, Bool.xor_false]
    exact Bool.and_true _
  · rw [hbit 6 (by omega), shiftcode_getLsbD code (by omega) (by omega)]
    exact Bool.and_false _

/-- What one byte does to `shift`. -/
theorem ShiftReads.byte (h : ShiftReads s.shift escaped es) (data : Key) :
    ShiftReads (kbdData s data).2.shift (data == 0xE0#8)
      (es ++ if data = 0xE0#8 then [] else [keyEvent escaped data]) := by
  have hesc : (s.shift &&& e0esc ≠ 0#32) ↔ escaped = true := and_e0esc.trans (by rw [h.escape])
  unfold kbdData keyEvent
  by_cases he0 : data = 0xE0#8
  · rw [if_pos he0, if_pos he0, List.append_nil, beq_iff_eq.mpr he0]
    refine ⟨fun i hi => ?_, fun i hi hi' => ?_, ?_⟩
    · rw [BitVec.getLsbD_or, e0esc_getLsbD (by omega), Bool.or_false]
      exact h.held i hi
    · rw [BitVec.getLsbD_or, e0esc_getLsbD hi', Bool.or_false]
      exact h.locked i hi hi'
    · rw [BitVec.getLsbD_or]
      exact Bool.or_true _
  rw [if_neg he0, if_neg he0, beq_eq_false_iff_ne.mpr he0]
  by_cases hhigh : data &&& 0x80#8 ≠ 0#8
  · rw [if_pos hhigh, if_pos hhigh]
    dsimp only
    rw [ite_congr (propext hesc) (fun _ => rfl) fun _ => rfl]
    exact h.release _
  · rw [if_neg hhigh, if_neg hhigh]
    dsimp only
    cases escaped with
    | true =>
        rw [if_pos (hesc.mpr rfl), if_pos (hesc.mpr rfl)]
        refine h.press _ (fun i hi => ?_) ?_
        · rw [BitVec.getLsbD_and, BitVec.getLsbD_not, e0esc_getLsbD hi, decide_eq_true (by omega)]
          exact Bool.and_true _
        · rw [BitVec.getLsbD_and]
          exact Bool.and_false _
    | false =>
        have hn : ¬ s.shift &&& e0esc ≠ 0#32 := fun hx => Bool.false_ne_true (hesc.mp hx)
        rw [if_neg hn, if_neg hn]
        exact h.press _ (fun i hi => rfl) h.escape

theorem keyEvents_append (l l' : List Key) : keyEvents escaped (l ++ l') =
    keyEvents escaped l ++ keyEvents (escapedAfter escaped l) l' := by
  induction l generalizing escaped with
  | nil => rfl
  | cons data rest ih =>
      rw [List.cons_append, keyEvents, keyEvents, escapedAfter]
      by_cases he0 : data = 0xE0#8
      · rw [if_pos he0, if_pos he0, beq_iff_eq.mpr he0]
        exact ih
      · rw [if_neg he0, if_neg he0, beq_eq_false_iff_ne.mpr he0, List.cons_append, ih]

theorem escapedAfter_append (l l' : List Key) : escapedAfter escaped (l ++ l') =
    escapedAfter (escapedAfter escaped l) l' := by
  induction l generalizing escaped with
  | nil => rfl
  | cons data rest ih => exact ih

theorem consIntr_shift {ps : List Poll} (h : ShiftReads s.shift escaped es) :
    ShiftReads (consIntr kbdProcData s ps).1.shift (escapedAfter escaped (scannedOf ps))
      (es ++ keyEvents escaped (scannedOf ps)) := by
  unfold scannedOf
  induction ps generalizing s escaped es with
  | nil =>
      show ShiftReads s.shift escaped (es ++ [])
      rw [List.append_nil]
      exact h
  | cons p ps ih =>
      cases hready : p.ready with
      | false =>
          have hp : kbdProcData s p = (none, s) := by
            rw [kbdProcData, hready]
            rfl
          rw [consIntr_none hp, List.takeWhile_cons_of_neg (by rw [hready]; exact Bool.false_ne_true)]
          show ShiftReads s.shift escaped (es ++ [])
          rw [List.append_nil]
          exact h
      | true =>
          have hbyte := h.byte p.data
          have hp : kbdProcData s p = (some (kbdData s p.data).1, (kbdData s p.data).2) := by
            rw [kbdProcData, hready]
            rfl
          have hevents : keyEvents escaped (p.data :: (ps.takeWhile Poll.ready).map Poll.data) =
              (if p.data = 0xE0#8 then [] else [keyEvent escaped p.data]) ++
                keyEvents (p.data == 0xE0#8) ((ps.takeWhile Poll.ready).map Poll.data) := by
            rw [keyEvents]
            by_cases he0 : p.data = 0xE0#8
            · rw [if_pos he0, if_pos he0, beq_iff_eq.mpr he0, List.nil_append]
            · rw [if_neg he0, if_neg he0, beq_eq_false_iff_ne.mpr he0, List.singleton_append]
          rw [List.takeWhile_cons_of_pos hready, List.map_cons, hevents, ← List.append_assoc]
          by_cases hc : (kbdData s p.data).1 = 0#8
          · rw [hc] at hp
            rw [consIntr_zero hp]
            exact ih hbyte
          · rw [consIntr_some hp hc]
            exact ih hbyte

end

theorem consIntr_serial_shift (s : Input) (ps : List Poll) :
    (consIntr serialProcData s ps).1.shift = s.shift := by
  induction ps generalizing s with
  | nil => rfl
  | cons p ps ih =>
      by_cases hready : p.stat &&& 0x01#8 = 0#8
      · rw [consIntr_none (by rw [serialProcData, if_pos hready])]
      · have hp : serialProcData s p = (some p.data, s) := by rw [serialProcData, if_neg hready]
        by_cases hc : p.data = 0#8
        · rw [hc] at hp
          rw [consIntr_zero hp]
          exact ih s
        · rw [consIntr_some hp hc]
          exact ih _

/-- Whatever the bytes of the keyboard and whenever they are read, `shift` holds which modifier
was pressed last and not released, which lock is set, and whether an escape byte came last. -/
theorem keyboard_shift {s : ConsState} (h : Reach consSystem anyEvent s) :
    ShiftReads s.input.shift (escapedAfter false s.scanned) (keyEvents false s.scanned) := by
  refine h.invariant (P := fun s => ShiftReads s.input.shift (escapedAfter false s.scanned)
    (keyEvents false s.scanned)) (fun s hi => ?_) fun s ev s' hi _ hs => ?_
  · obtain ⟨-, -, hshift, -, -, hscanned⟩ := hi
    rw [hshift, hscanned]
    exact ⟨fun i _ => BitVec.getLsbD_zero, fun i _ _ => BitVec.getLsbD_zero, BitVec.getLsbD_zero⟩
  · cases hs
    cases ev with
    | kbd ps =>
        show ShiftReads (consIntr kbdProcData s.input ps).1.shift
          (escapedAfter false (s.scanned ++ scannedOf ps)) (keyEvents false (s.scanned ++ scannedOf ps))
        rw [escapedAfter_append, keyEvents_append]
        exact consIntr_shift hi
    | serial ps =>
        show ShiftReads (serialIntr s.input ps).1.shift _ _
        unfold serialIntr
        split
        · rw [consIntr_serial_shift]
          exact hi
        · exact hi
    | getc =>
        unfold consNext consGetc
        cases s.input.cons.get with
        | none => exact hi
        | some x => exact hi

/-! ## A run -/

def emptyConsole : ConsState where
  input := { cons := ⟨fun _ => 0#8, 0, 0⟩, shift := 0#32, serialExists := true, reboot := false }
  written := []
  taken := []
  scanned := []

theorem emptyConsole_init : consSystem.init emptyConsole := ⟨rfl, rfl, rfl, rfl, rfl, rfl⟩

/-- The right control key is pressed, then C, and Q comes in by the serial line. -/
def controlC : List ConsEvent :=
  [.kbd [⟨1#8, 0xE0#8⟩, ⟨1#8, 0x1D#8⟩, ⟨1#8, 0x2E#8⟩, ⟨0#8, 0#8⟩], .serial [⟨1#8, chr 'Q'⟩], .getc]

theorem consNext_reach {s : ConsState} (h : Reach consSystem anyEvent s) (es : List ConsEvent) :
    Reach consSystem anyEvent (es.foldl consNext s) := by
  induction es generalizing s with
  | nil => exact h
  | cons e es ih => exact ih (h.step trivial rfl)

theorem controlC_reach : Reach consSystem anyEvent (controlC.foldl consNext emptyConsole) :=
  consNext_reach (.init emptyConsole_init) controlC

theorem keyboard_shift_controlC : ShiftReads (controlC.foldl consNext emptyConsole).input.shift false
    [⟨0x9D#8, true⟩, ⟨0x2E#8, true⟩] :=
  keyboard_shift controlC_reach

end Jos
end Sisop

import Mathlib.Data.BitVec
import Mathlib.Logic.Function.Basic

/-!
# What is shown

The output side of `kern/console.c`.  The display is an array of 25 rows of 80 cells and a
position in it.  `Paper` is what it stands for: rows without end, of which the last 25 are in
sight.  A character goes where the cursor is, which only ever takes the display one row
further down.

A write behind the end of `crt_buf` has no meaning here, so that `cgaPutc` may be none.
-/

namespace Sisop
namespace Jos

abbrev Cell := BitVec 16

def crtCols : Nat := 80
def crtSize : Nat := 25 * crtCols

/-- A space, black on white. -/
def blank : Cell := 0x0720#16

/-- `cursor` is the position in the registers of the 6845, and `serial` and `lpt` are the bytes
sent to the two ports. -/
structure Display where
  crtBuf : Nat → Cell
  crtPos : Nat
  cursor : Nat
  serial : List (BitVec 8)
  lpt : List (BitVec 8)

namespace Display

/-- `crt_buf[i] = c`. -/
def setCell (s : Display) (i : Nat) (c : Cell) : Option Display :=
  if i < crtSize then some { s with crtBuf := Function.update s.crtBuf i c } else none

/-- `crt_pos = pos`, which has 16 bits. -/
def setPos (s : Display) (pos : Nat) : Display := { s with crtPos := pos % 2 ^ 16 }

/-- The end of `cga_putc`: a row is dropped when the position has left the array. -/
def scroll (s : Display) : Display :=
  if crtSize ≤ s.crtPos then
    { s with
      crtBuf := fun i => if i < crtSize - crtCols then s.crtBuf (i + crtCols)
        else if i < crtSize then blank else s.crtBuf i
      crtPos := s.crtPos - crtCols }
  else s

end Display

/-- The attribute of a character that has none is black on white. -/
def withAttribute (c : BitVec 32) : BitVec 32 := if c &&& ~~~0xFF#32 = 0#32 then c ||| 0x0700#32 else c

/-- `cga_putc`, where `space` is its call of `cons_putc(' ')`. -/
def cgaPutc (space : Display → Option Display) (s : Display) (c : BitVec 32) : Option Display := do
  let c := withAttribute c
  let s ←
    if c &&& 0xFF#32 = 8#32 then
      if 0 < s.crtPos then
        (s.setPos (s.crtPos - 1)).setCell (s.crtPos - 1) (((c &&& ~~~0xFF#32) ||| 32#32).setWidth 16)
      else some s
    else if c &&& 0xFF#32 = 10#32 then
      let s := s.setPos (s.crtPos + crtCols)
      some (s.setPos (s.crtPos - s.crtPos % crtCols))
    else if c &&& 0xFF#32 = 13#32 then some (s.setPos (s.crtPos - s.crtPos % crtCols))
    else if c &&& 0xFF#32 = 9#32 then do
      let s ← space s
      let s ← space s
      let s ← space s
      let s ← space s
      space s
    else (s.setPos (s.crtPos + 1)).setCell s.crtPos (c.setWidth 16)
  let s := s.scroll
  some { s with cursor := s.crtPos }

/-- `cons_putc`, which calls itself for the spaces of a tab. -/
def consPutcDeep : Nat → Display → BitVec 32 → Option Display
  | 0, _, _ => none
  | depth + 1, s, c =>
      cgaPutc (fun s => consPutcDeep depth s 32#32)
        { s with serial := s.serial ++ [c.setWidth 8], lpt := s.lpt ++ [c.setWidth 8] } c

def consPutc : Display → BitVec 32 → Option Display := consPutcDeep 2

def cputchar : Display → BitVec 32 → Option Display := consPutc

/-! ## The roll of paper -/

/-- Rows without end; `top` is the first one in sight, and `cursor` counts from the first of
all. -/
structure Paper where
  cells : Nat → Cell
  cursor : Nat
  top : Nat

namespace Paper

/-- The paper moves on until the row of the cursor is in sight. -/
def turn (p : Paper) : Paper := { p with top := max p.top (p.cursor / crtCols + 1 - 25) }

/-- A character other than a tab. -/
def type (p : Paper) (c : BitVec 32) : Paper :=
  let c := withAttribute c
  turn
    (if c &&& 0xFF#32 = 8#32 then
      if p.top * crtCols < p.cursor then
        { p with
          cells := Function.update p.cells (p.cursor - 1) (((c &&& ~~~0xFF#32) ||| 32#32).setWidth 16)
          cursor := p.cursor - 1 }
      else p
    else if c &&& 0xFF#32 = 10#32 then { p with cursor := (p.cursor / crtCols + 1) * crtCols }
    else if c &&& 0xFF#32 = 13#32 then { p with cursor := p.cursor / crtCols * crtCols }
    else { p with cells := Function.update p.cells p.cursor (c.setWidth 16), cursor := p.cursor + 1 })

/-- A tab is five spaces. -/
def put (p : Paper) (c : BitVec 32) : Paper :=
  if withAttribute c &&& 0xFF#32 = 9#32 then (List.replicate 5 32#32).foldl type p else p.type c

end Paper

/-- The display shows the last 25 rows of the paper, and nothing is on it behind them. -/
structure Displays (s : Display) (p : Paper) : Prop where
  cells : ∀ i, i < crtSize → s.crtBuf i = p.cells (p.top * crtCols + i)
  pos : p.top * crtCols + s.crtPos = p.cursor
  inside : s.crtPos < crtSize
  behind : ∀ j, p.top * crtCols + crtSize ≤ j → p.cells j = blank

section

variable {s s' : Display} {p : Paper} {c : BitVec 32} {space : Display → Option Display}

/-- The same before the paper is turned: the cursor may have left the last row in sight. -/
structure Loose (s : Display) (p : Paper) : Prop where
  cells : ∀ i, i < crtSize → s.crtBuf i = p.cells (p.top * crtCols + i)
  pos : p.top * crtCols + s.crtPos = p.cursor
  inside : s.crtPos ≤ crtSize
  behind : ∀ j, p.top * crtCols + crtSize ≤ j → p.cells j = blank

theorem Loose.scroll (h : Loose s p) : Displays s.scroll p.turn := by
  obtain ⟨hcells, hpos, hinside, hbehind⟩ := h
  unfold Display.scroll Paper.turn
  unfold crtSize crtCols at *
  by_cases hlast : 25 * 80 ≤ s.crtPos
  · have htop : max p.top (p.cursor / 80 + 1 - 25) = p.top + 1 := by omega
    rw [if_pos hlast, htop]
    refine ⟨fun i (hi : i < 25 * 80) => ?_, ?_, ?_, fun j hj => hbehind j ?_⟩
    · show (if i < 25 * 80 - 80 then s.crtBuf (i + 80) else if i < 25 * 80 then blank else s.crtBuf i) =
        p.cells ((p.top + 1) * 80 + i)
      by_cases hrow : i < 25 * 80 - 80
      · rw [if_pos hrow, hcells _ (by omega)]
        exact congrArg p.cells (by omega)
      · rw [if_neg hrow, if_pos hi, hbehind _ (by omega)]
    · show (p.top + 1) * 80 + (s.crtPos - 80) = p.cursor
      omega
    · show s.crtPos - 80 < 25 * 80
      omega
    · have hj' : (p.top + 1) * 80 + 25 * 80 ≤ j := hj
      omega
  · have htop : max p.top (p.cursor / 80 + 1 - 25) = p.top := by omega
    rw [if_neg hlast, htop]
    exact ⟨hcells, hpos, Nat.lt_of_not_le hlast, hbehind⟩

theorem Displays.loose (h : Displays s p) : Loose s p :=
  ⟨h.cells, h.pos, Nat.le_of_lt h.inside, h.behind⟩

/-- The position moves within the rows in sight. -/
theorem Displays.setPos (h : Displays s p) (pos cursor : Nat) (hpos : p.top * crtCols + pos = cursor)
    (hinside : pos ≤ crtSize) : Loose (s.setPos pos) { p with cursor } := by
  have hmod : pos % 2 ^ 16 = pos := Nat.mod_eq_of_lt (by unfold crtSize crtCols at hinside; omega)
  refine ⟨h.cells, ?_, ?_, h.behind⟩
  · show p.top * crtCols + pos % 2 ^ 16 = cursor
    rw [hmod]
    exact hpos
  · show pos % 2 ^ 16 ≤ crtSize
    rw [hmod]
    exact hinside

/-- A cell in sight is written. -/
theorem Loose.setCell (h : Loose s p) {i : Nat} (hi : i < crtSize) (v : Cell) :
    ∃ s', s.setCell i v = some s' ∧
      Loose s' { p with cells := Function.update p.cells (p.top * crtCols + i) v } ∧
      s'.serial = s.serial ∧ s'.lpt = s.lpt := by
  refine ⟨_, if_pos hi, ⟨fun k hk => ?_, h.pos, h.inside, fun j hj => ?_⟩, rfl, rfl⟩
  · show Function.update s.crtBuf i v k =
      Function.update p.cells (p.top * crtCols + i) v (p.top * crtCols + k)
    by_cases hk' : k = i
    · rw [hk', Function.update_self, Function.update_self]
    · rw [Function.update_of_ne hk', Function.update_of_ne (by omega)]
      exact h.cells k hk
  · show Function.update p.cells (p.top * crtCols + i) v j = blank
    have hj' : p.top * crtCols + crtSize ≤ j := hj
    rw [Function.update_of_ne (by omega)]
    exact h.behind j hj'

/-- What is left of `cga_putc` behind the switch. -/
theorem cgaPutc_rest (h : Loose s p) : ∃ s', (do
    let s := s.scroll
    some { s with cursor := s.crtPos }) = some s' ∧ Displays s' p.turn ∧ s'.cursor = s'.crtPos ∧
      s'.serial = s.serial ∧ s'.lpt = s.lpt := by
  have hshows := h.scroll
  refine ⟨_, rfl, ⟨hshows.cells, hshows.pos, hshows.inside, hshows.behind⟩, rfl, ?_, ?_⟩
  · show s.scroll.serial = _
    unfold Display.scroll
    split <;> rfl
  · show s.scroll.lpt = _
    unfold Display.scroll
    split <;> rfl

/-- A character other than a tab, on the display and on the paper. -/
theorem cgaPutc_type (h : Displays s p) (htab : withAttribute c &&& 0xFF#32 ≠ 9#32) :
    ∃ s', cgaPutc space s c = some s' ∧ Displays s' (p.type c) ∧ s'.cursor = s'.crtPos ∧
      s'.serial = s.serial ∧ s'.lpt = s.lpt := by
  have hin := h.inside
  have hpos := h.pos
  have hrow : p.cursor / crtCols = p.top + s.crtPos / crtCols := by
    rw [← hpos]
    unfold crtCols
    omega
  unfold cgaPutc Paper.type
  dsimp only
  by_cases hback : withAttribute c &&& 0xFF#32 = 8#32
  · rw [if_pos hback, if_pos hback]
    by_cases h0 : 0 < s.crtPos
    · rw [if_pos h0, if_pos (by omega)]
      have hmove := h.setPos (s.crtPos - 1) (p.cursor - 1) (by omega) (by omega)
      obtain ⟨s₁, hs₁, hloose, hser, hlpt⟩ := hmove.setCell (i := s.crtPos - 1) (by omega)
        (((withAttribute c &&& ~~~0xFF#32) ||| 32#32).setWidth 16)
      rw [hs₁]
      obtain ⟨s', hs', hshows, hcursor, hser', hlpt'⟩ := cgaPutc_rest hloose
      have hat : p.top * crtCols + (s.crtPos - 1) = p.cursor - 1 := by omega
      rw [show Paper.top { p with cursor := p.cursor - 1 } = p.top from rfl, hat] at hshows
      exact ⟨s', hs', hshows, hcursor, hser'.trans hser, hlpt'.trans hlpt⟩
    · rw [if_neg h0, if_neg (by omega)]
      exact cgaPutc_rest h.loose
  rw [if_neg hback, if_neg hback]
  by_cases hnl : withAttribute c &&& 0xFF#32 = 10#32
  · rw [if_pos hnl, if_pos hnl]
    have hdown : (s.setPos (s.crtPos + crtCols)).crtPos = s.crtPos + crtCols :=
      Nat.mod_eq_of_lt (by unfold crtSize crtCols at *; omega)
    rw [hdown]
    have hmove := h.setPos (s.crtPos + crtCols - (s.crtPos + crtCols) % crtCols)
      ((p.cursor / crtCols + 1) * crtCols) (by rw [hrow]; unfold crtCols at *; omega)
      (by unfold crtSize crtCols at *; omega)
    exact cgaPutc_rest hmove
  rw [if_neg hnl, if_neg hnl]
  by_cases hcr : withAttribute c &&& 0xFF#32 = 13#32
  · rw [if_pos hcr, if_pos hcr]
    have hmove := h.setPos (s.crtPos - s.crtPos % crtCols)
      (p.cursor / crtCols * crtCols) (by rw [hrow]; unfold crtCols at *; omega) (by omega)
    exact cgaPutc_rest hmove
  · rw [if_neg hcr, if_neg hcr, if_neg htab]
    have hmove := h.setPos (s.crtPos + 1) (p.cursor + 1) (by omega) (by omega)
    obtain ⟨s₁, hs₁, hloose, hser, hlpt⟩ := hmove.setCell (i := s.crtPos) hin
      ((withAttribute c).setWidth 16)
    rw [hs₁]
    obtain ⟨s', hs', hshows, hcursor, hser', hlpt'⟩ := cgaPutc_rest hloose
    rw [show Paper.top { p with cursor := p.cursor + 1 } = p.top from rfl, hpos] at hshows
    exact ⟨s', hs', hshows, hcursor, hser'.trans hser, hlpt'.trans hlpt⟩

/-- A paper whose cursor is in sight does not turn. -/
theorem Displays.turn_eq (h : Displays s p) : p.turn = p := by
  have hin := h.inside
  have hpos := h.pos
  have htop : max p.top (p.cursor / crtCols + 1 - 25) = p.top := by
    unfold crtSize crtCols at *
    omega
  unfold Paper.turn
  rw [htop]

/-! ## Characters -/

/-- What a character is for the two ports; a tab is sent, and so are its spaces. -/
def sent (c : BitVec 32) : List (BitVec 8) :=
  c.setWidth 8 :: if withAttribute c &&& 0xFF#32 = 9#32 then List.replicate 5 32#8 else []

/-- The display with the bytes that are on their way to the ports. -/
structure Sends (s s' : Display) (bytes : List (BitVec 8)) : Prop where
  serial : s'.serial = s.serial ++ bytes
  lpt : s'.lpt = s.lpt ++ bytes

theorem Sends.trans {s s₁ s' : Display} {l l' : List (BitVec 8)} (h : Sends s s₁ l)
    (h' : Sends s₁ s' l') : Sends s s' (l ++ l') := by
  refine ⟨?_, ?_⟩
  · rw [h'.serial, h.serial, List.append_assoc]
  · rw [h'.lpt, h.lpt, List.append_assoc]

theorem consPutcDeep_type (depth : Nat) (h : Displays s p) (htab : withAttribute c &&& 0xFF#32 ≠ 9#32) :
    ∃ s', consPutcDeep (depth + 1) s c = some s' ∧ Displays s' (p.type c) ∧ s'.cursor = s'.crtPos ∧
      Sends s s' [c.setWidth 8] := by
  have hsent : Displays { s with serial := s.serial ++ [c.setWidth 8], lpt := s.lpt ++ [c.setWidth 8] } p :=
    ⟨h.cells, h.pos, h.inside, h.behind⟩
  obtain ⟨s', hs', hshows, hcursor, hserial, hlpt⟩ := cgaPutc_type hsent htab
  exact ⟨s', hs', hshows, hcursor, hserial, hlpt⟩

/-- `n` calls of `cons_putc(' ')`. -/
theorem consPutcDeep_spaces (depth n : Nat) (h : Displays s p) :
    ∃ s', (List.replicate n 32#32).foldlM (consPutcDeep (depth + 1)) s = some s' ∧
      Displays s' ((List.replicate n 32#32).foldl Paper.type p) ∧
      Sends s s' (List.replicate n 32#8) := by
  induction n generalizing s p with
  | zero => exact ⟨s, rfl, h, (List.append_nil _).symm, (List.append_nil _).symm⟩
  | succ n ih =>
      obtain ⟨s₁, hs₁, hshows, -, hsends⟩ := consPutcDeep_type depth (c := 32#32) h (by decide)
      obtain ⟨s', hs', hshows', hsends'⟩ := ih hshows
      refine ⟨s', ?_, hshows', hsends.trans hsends'⟩
      rw [List.replicate_succ, List.foldlM_cons, hs₁]
      exact hs'

/-- A character, on the display and on the paper; the spaces of a tab call nothing deeper. -/
theorem consPutcDeep_put (depth : Nat) (h : Displays s p) (c : BitVec 32) :
    ∃ s', consPutcDeep (depth + 2) s c = some s' ∧ Displays s' (p.put c) ∧ s'.cursor = s'.crtPos ∧
      Sends s s' (sent c) := by
  unfold Paper.put sent
  by_cases htab : withAttribute c &&& 0xFF#32 = 9#32
  · rw [if_pos htab, if_pos htab]
    have hsent : Displays { s with
        serial := s.serial ++ [c.setWidth 8], lpt := s.lpt ++ [c.setWidth 8] } p :=
      ⟨h.cells, h.pos, h.inside, h.behind⟩
    obtain ⟨s₁, hs₁, hshows, hsends⟩ := consPutcDeep_spaces depth 5 hsent
    obtain ⟨s', hs', hshows', hcursor, hserial, hlpt⟩ := cgaPutc_rest hshows.loose
    refine ⟨s', ?_, hshows.turn_eq ▸ hshows', hcursor, ?_, ?_⟩
    · rw [consPutcDeep, cgaPutc]
      dsimp only
      rw [if_neg (by rw [htab]; decide), if_neg (by rw [htab]; decide), if_neg (by rw [htab]; decide),
        if_pos htab]
      have hall := congrArg (fun o => o >>= fun s : Display =>
        some { s.scroll with cursor := s.scroll.crtPos }) hs₁
      simp only [List.replicate, List.foldlM_cons, List.foldlM_nil, bind_pure, bind_assoc] at hall
      exact hall.trans hs'
    · rw [hserial, hsends.serial, List.append_assoc, List.singleton_append]
    · rw [hlpt, hsends.lpt, List.append_assoc, List.singleton_append]
  · rw [if_neg htab, if_neg htab]
    exact consPutcDeep_type _ h htab

/-- The paper a display starts with. -/
def Display.paper (s : Display) : Paper :=
  { cells := fun i => if i < crtSize then s.crtBuf i else blank, cursor := s.crtPos, top := 0 }

theorem Display.shows_paper (h : s.crtPos < crtSize) : Displays s s.paper := by
  refine ⟨fun i hi => ?_, ?_, h, fun j hj => ?_⟩
  · show s.crtBuf i = if 0 * crtCols + i < crtSize then s.crtBuf (0 * crtCols + i) else blank
    rw [Nat.zero_mul, Nat.zero_add, if_pos hi]
  · show 0 * crtCols + s.crtPos = s.crtPos
    omega
  · have hj' : 0 * crtCols + crtSize ≤ j := hj
    exact if_neg (by omega)

/-- The first character puts the cursor of the 6845 in its place. -/
theorem Displays.puts (h : Displays s p) (cs : List (BitVec 32)) :
    ∃ s', cs.foldlM cputchar s = some s' ∧ Displays s' (cs.foldl Paper.put p) ∧
      (s.cursor = s.crtPos ∨ cs ≠ [] → s'.cursor = s'.crtPos) ∧ Sends s s' (cs.flatMap sent) := by
  induction cs generalizing s p with
  | nil =>
      exact ⟨s, rfl, h, fun hx => hx.resolve_right fun hne => hne rfl, (List.append_nil _).symm,
        (List.append_nil _).symm⟩
  | cons c cs ih =>
      obtain ⟨s₁, hs₁, hshows, hcursor, hsends⟩ := consPutcDeep_put 0 h c
      obtain ⟨s', hs', hshows', hcursor', hsends'⟩ := ih hshows
      refine ⟨s', ?_, hshows', fun _ => hcursor' (.inl hcursor), hsends.trans hsends'⟩
      rw [List.foldlM_cons, show cputchar s c = some s₁ from hs₁]
      exact hs'

/-- Whatever is printed, no write leaves `crt_buf`, and the display shows the last 25 rows of
what is on the paper, with the cursor where it is there.  The ports get every character.

`cga_init` takes the position from the 6845 as it is, and it has to be one of a cell. -/
theorem display_paper (h : s.crtPos < crtSize) (cs : List (BitVec 32)) :
    ∃ s', cs.foldlM cputchar s = some s' ∧ Displays s' (cs.foldl Paper.put s.paper) ∧
      (s.cursor = s.crtPos ∨ cs ≠ [] → s'.cursor = s'.crtPos) ∧
      s'.serial = s.serial ++ cs.flatMap sent ∧ s'.lpt = s.lpt ++ cs.flatMap sent := by
  obtain ⟨s', hs', hshows, hcursor, hsends⟩ := (Display.shows_paper h).puts cs
  exact ⟨s', hs', hshows, hcursor, hsends.serial, hsends.lpt⟩

end

/-- A display with the cursor in its last cell. -/
def fullDisplay : Display where
  crtBuf := fun _ => 0x0741#16
  crtPos := crtSize - 1
  cursor := crtSize - 1
  serial := []
  lpt := []

/-- A letter in the last cell takes the display a row down. -/
theorem display_paper_full : ∃ s', [66#32].foldlM cputchar fullDisplay = some s' ∧
    Displays s' (fullDisplay.paper.put 66#32) ∧ s'.cursor = s'.crtPos ∧
    (fullDisplay.paper.put 66#32).top = 1 := by
  obtain ⟨s', hs', hshows, hcursor, -⟩ := display_paper (s := fullDisplay) (by decide) [66#32]
  exact ⟨s', hs', hshows, hcursor (.inl rfl), by decide⟩

end Jos
end Sisop

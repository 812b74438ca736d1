import Sisop.Jos.Cga
import Sisop.Jos.Console
import Sisop.Lib.CString

/-!
# A line at the monitor

`lib/readline.c` in the kernel, where `getchar` returns a byte and never an error and the
console echoes.  A character goes into `buf` and to the display, and a backspace takes one from
both, so what is in front of the cursor is the prompt and the line as it will be returned.

`edit` is what a character does to a line.  A delete of an empty line is a character like any
other.

`getchar` returns a byte without a sign.  `cprintf` takes the bytes of a string with theirs, so
that one from 128 on brings an attribute with it.
-/

namespace Sisop
namespace Jos

def buflen : Nat := 1024

/-- The cells of `buf`, the index in it, and the display. -/
structure Reading where
  buf : Nat → Key
  i : Nat
  display : Display

/-- `buf[s.i] = c`. -/
def Reading.setBuf (s : Reading) (c : Key) : Option Reading :=
  if s.i < buflen then some { s with buf := Function.update s.buf s.i c } else none

def Reading.echo (s : Reading) (c : Key) : Option Reading :=
  (cputchar s.display (c.setWidth 32)).map fun display => { s with display }

/-- The loop of `readline` with one character, and whether it returns. -/
def readlineTurn (s : Reading) (c : Key) : Option (Reading × Bool) :=
  if (c = 8#8 ∨ c = 127#8) ∧ 0 < s.i then do
    let s ← s.echo 8#8
    some ({ s with i := s.i - 1 }, false)
  else if 32#8 ≤ c ∧ s.i < buflen - 1 then do
    let s ← s.echo c
    let s ← s.setBuf c
    some ({ s with i := s.i + 1 }, false)
  else if c = 10#8 ∨ c = 13#8 then do
    let s ← s.echo 10#8
    let s ← s.setBuf 0#8
    some (s, true)
  else some (s, false)

/-- The loop with the characters typed so far. -/
def readlineLoop : Reading → List Key → Option (Reading × Bool)
  | s, [] => some (s, false)
  | s, c :: cs => do
      let (s, returned) ← readlineTurn s c
      if returned then some (s, true) else readlineLoop s cs

/-- The characters of a string, for `putch`. -/
def chars (s : List Key) : List (BitVec 32) := s.map (BitVec.signExtend 32)

/-- `cprintf("%s", s)`. -/
def cprintfString (s : List Key) (display : Display) : Option Display :=
  (chars s).foldlM cputchar display

def readline (prompt : List Key) (buf : Nat → Key) (display : Display) (cs : List Key) :
    Option (Reading × Bool) := do
  let display ← cprintfString prompt display
  readlineLoop { buf, i := 0, display } cs

/-! ## Lines -/

/-- What a character does to a line. -/
def edit (text : List Key) (c : Key) : List Key :=
  if (c = 8#8 ∨ c = 127#8) ∧ text ≠ [] then text.dropLast
  else if 32#8 ≤ c ∧ text.length < buflen - 1 then text ++ [c]
  else text

def EndsLine (c : Key) : Prop := c = 10#8 ∨ c = 13#8

/-- The cell of a character that is put there. -/
def glyph (c : BitVec 32) : Cell := (withAttribute c).setWidth 16

/-- The cells of a string that is printed. -/
def stringCells (s : List Key) : List Cell := (chars s).map glyph

/-- The cells of a line that is echoed. -/
def lineCells (text : List Key) : List Cell := text.map fun c => glyph (c.setWidth 32)

/-- The cells stand in sight in front of the cursor. -/
structure Paper.Written (p : Paper) (shown : List Cell) : Prop where
  fits : p.top * crtCols + shown.length ≤ p.cursor
  cells : ∀ k (h : k < shown.length), p.cells (p.cursor - shown.length + k) = shown[k]

/-- The same on the display. -/
structure Display.Written (s : Display) (shown : List Cell) : Prop where
  inside : s.crtPos < crtSize
  fits : shown.length ≤ s.crtPos
  cells : ∀ k (h : k < shown.length), s.crtBuf (s.crtPos - shown.length + k) = shown[k]

section

variable {p : Paper} {shown : List Cell} {d : Display}

theorem Displays.written (h : Displays d p) (hp : p.Written shown) : d.Written shown := by
  have hpos := h.pos
  have hin := h.inside
  have hfits := hp.fits
  refine ⟨hin, by omega, fun k hk => ?_⟩
  rw [h.cells _ (by omega), ← hp.cells k hk]
  exact congrArg p.cells (by omega)

/-- No text that is to stay in sight is longer than this. -/
def maxText : Nat := crtSize - crtCols

/-- A character that takes a cell. -/
structure TakesCell (c : BitVec 32) : Prop where
  backspace : withAttribute c &&& 0xFF#32 ≠ 8#32
  tab : withAttribute c &&& 0xFF#32 ≠ 9#32
  newline : withAttribute c &&& 0xFF#32 ≠ 10#32
  ret : withAttribute c &&& 0xFF#32 ≠ 13#32

/-- All that are no control characters do, with a sign or without. -/
theorem takesCell_key {c : Key} (h : 32#8 ≤ c) :
    TakesCell (c.setWidth 32) ∧ TakesCell (c.signExtend 32) := by
  have hall : ∀ c : Key, 32#8 ≤ c →
      withAttribute (c.setWidth 32) &&& 0xFF#32 = c.setWidth 32 ∧
      withAttribute (c.signExtend 32) &&& 0xFF#32 = c.setWidth 32 ∧ c.setWidth 32 ≠ 8#32 ∧
      c.setWidth 32 ≠ 9#32 ∧ c.setWidth 32 ≠ 10#32 ∧ c.setWidth 32 ≠ 13#32 := by decide +kernel
  obtain ⟨hlow, hsigned, h8, h9, h10, h13⟩ := hall c h
  have hof : ∀ {d : BitVec 32}, withAttribute d &&& 0xFF#32 = c.setWidth 32 → TakesCell d := fun hd =>
    ⟨hd.trans_ne h8, hd.trans_ne h9, hd.trans_ne h10, hd.trans_ne h13⟩
  exact ⟨hof hlow, hof hsigned⟩

/-- Turning the paper leaves what is not too long in sight. -/
theorem Paper.Written.turn (h : p.Written shown) (hlen : shown.length ≤ maxText) :
    p.turn.Written shown := by
  refine ⟨?_, h.cells⟩
  have hfits := h.fits
  show max p.top (p.cursor / crtCols + 1 - 25) * crtCols + shown.length ≤ p.cursor
  unfold maxText crtSize crtCols at *
  omega

/-- A character is put behind what is shown. -/
theorem Paper.Written.put (h : p.Written shown) {c : BitVec 32} (hc : TakesCell c)
    (hlen : shown.length < maxText) : (p.put c).Written (shown ++ [glyph c]) := by
  have hfits := h.fits
  unfold Paper.put Paper.type
  dsimp only
  rw [if_neg hc.tab, if_neg hc.backspace, if_neg hc.newline, if_neg hc.ret]
  refine Paper.Written.turn ⟨?_, fun k hk => ?_⟩
    (by rw [List.length_append, List.length_singleton]; omega)
  · show p.top * crtCols + (shown ++ [glyph c]).length ≤ p.cursor + 1
    rw [List.length_append, List.length_singleton]
    omega
  · rw [List.length_append, List.length_singleton] at hk
    show Function.update p.cells p.cursor _ (p.cursor + 1 - (shown ++ [glyph c]).length + k) = _
    rw [List.length_append, List.length_singleton]
    by_cases hlast : k = shown.length
    · subst hlast
      rw [show p.cursor + 1 - (shown.length + 1) + shown.length = p.cursor by omega,
        Function.update_self, List.getElem_concat_length rfl]
      rfl
    · rw [Function.update_of_ne (by omega), List.getElem_append_left (by omega), ← h.cells k (by omega)]
      exact congrArg p.cells (by omega)

/-- A backspace takes the last character. -/
theorem Paper.Written.back (h : p.Written shown) (hne : shown ≠ []) (hlen : shown.length ≤ maxText) :
    (p.put 8#32).Written shown.dropLast := by
  have hfits := h.fits
  have hpos : 0 < shown.length := List.length_pos_iff.mpr hne
  unfold Paper.put Paper.type
  dsimp only
  rw [if_neg (by decide), if_pos (by decide), if_pos (by omega)]
  refine Paper.Written.turn ⟨?_, fun k hk => ?_⟩ (by rw [List.length_dropLast]; omega)
  · show p.top * crtCols + shown.dropLast.length ≤ p.cursor - 1
    rw [List.length_dropLast]
    omega
  · rw [List.length_dropLast] at hk
    show Function.update p.cells (p.cursor - 1) _ (p.cursor - 1 - shown.dropLast.length + k) = _
    rw [List.length_dropLast, Function.update_of_ne (by omega), List.getElem_dropLast,
      ← h.cells k (by omega)]
    exact congrArg p.cells (by omega)

end

/-! ## The loop -/

/-- What holds between two characters: `buf` has the line, and the display the prompt and the
line. -/
structure Typed (prompt text : List Key) (s : Reading) (p : Paper) : Prop where
  index : s.i = text.length
  short : text.length < buflen
  buf : ∀ k (h : k < text.length), s.buf k = text[k]
  displays : Displays s.display p
  written : p.Written (stringCells prompt ++ lineCells text)

section

variable {prompt text : List Key} {s : Reading} {p : Paper} {c : Key}

@[simp] theorem length_stringCells : (stringCells prompt).length = prompt.length := by
  rw [stringCells, chars, List.length_map, List.length_map]

@[simp] theorem length_lineCells : (lineCells text).length = text.length := List.length_map _

theorem lineCells_append (text : List Key) (c : Key) :
    lineCells (text ++ [c]) = lineCells text ++ [glyph (c.setWidth 32)] := List.map_append

theorem Reading.echo_eq (h : Displays s.display p) (c : Key) :
    ∃ d, s.echo c = some { s with display := d } ∧ Displays d (p.put (c.setWidth 32)) := by
  obtain ⟨d, hd, hshows, -⟩ := consPutcDeep_put 0 h (c.setWidth 32)
  exact ⟨d, by rw [Reading.echo, show cputchar s.display (c.setWidth 32) = some d from hd]; rfl, hshows⟩

/-- A character that does not end the line. -/
theorem Typed.turn (h : Typed prompt text s p) (hprompt : prompt.length + buflen ≤ maxText + 1)
    (hc : ¬ EndsLine c) : ∃ s' p', readlineTurn s c = some (s', false) ∧
      Typed prompt (edit text c) s' p' := by
  have hindex := h.index
  have hshort := h.short
  have hlength : (stringCells prompt ++ lineCells text).length ≤ maxText := by
    rw [List.length_append, length_stringCells, length_lineCells]
    omega
  have hnonempty : 0 < s.i ↔ text ≠ [] := by
    rw [hindex, List.length_pos_iff]
  unfold readlineTurn edit
  by_cases hback : (c = 8#8 ∨ c = 127#8) ∧ 0 < s.i
  · rw [if_pos hback, if_pos ⟨hback.1, hnonempty.mp hback.2⟩]
    obtain ⟨d, hd, hdisplays⟩ := Reading.echo_eq h.displays 8#8
    have hline : text ≠ [] := hnonempty.mp hback.2
    have hcells : lineCells text ≠ [] := fun hx => hline (List.map_eq_nil_iff.mp hx)
    have hwritten := h.written.back (fun hx => hcells (List.append_eq_nil_iff.mp hx).2) hlength
    rw [List.dropLast_append_of_ne_nil hcells, lineCells, ← List.map_dropLast] at hwritten
    refine ⟨{ s with i := s.i - 1, display := d }, p.put 8#32, ?_, ⟨?_, ?_, fun k hk => ?_, hdisplays,
      hwritten⟩⟩
    · rw [hd]
      rfl
    · show s.i - 1 = text.dropLast.length
      rw [List.length_dropLast, hindex]
    · rw [List.length_dropLast]
      omega
    · rw [List.length_dropLast] at hk
      rw [List.getElem_dropLast]
      exact h.buf k (by omega)
  have hback' : ¬ ((c = 8#8 ∨ c = 127#8) ∧ text ≠ []) := fun hx =>
    hback ⟨hx.1, hnonempty.mpr hx.2⟩
  rw [if_neg hback, if_neg hback']
  by_cases hchar : 32#8 ≤ c ∧ s.i < buflen - 1
  · rw [if_pos hchar, if_pos ⟨hchar.1, hindex ▸ hchar.2⟩]
    obtain ⟨d, hd, hdisplays⟩ := Reading.echo_eq h.displays c
    have hlt := hchar.2
    have hwritten := h.written.put (takesCell_key hchar.1).1 (by
      rw [List.length_append, length_stringCells, length_lineCells]
      unfold buflen at *
      omega)
    rw [List.append_assoc, ← lineCells_append] at hwritten
    refine ⟨{ buf := Function.update s.buf s.i c, i := s.i + 1, display := d },
      p.put (c.setWidth 32), ?_, ⟨?_, ?_, fun k hk => ?_, hdisplays, hwritten⟩⟩
    · rw [hd]
      show (do
        let s ← Reading.setBuf { s with display := d } c
        some ({ s with i := s.i + 1 }, false)) = _
      rw [Reading.setBuf, if_pos (show s.i < buflen by omega)]
      rfl
    · show s.i + 1 = (text ++ [c]).length
      rw [List.length_append, List.length_singleton, hindex]
    · rw [List.length_append, List.length_singleton]
      omega
    · rw [List.length_append, List.length_singleton] at hk
      show Function.update s.buf s.i c k = _
      by_cases hlast : k = text.length
      · subst hlast
        rw [hindex, Function.update_self, List.getElem_concat_length rfl]
      · rw [Function.update_of_ne (by omega), List.getElem_append_left (by omega)]
        exact h.buf k (by omega)
  · have hchar' : ¬ (32#8 ≤ c ∧ text.length < buflen - 1) := fun hx => hchar ⟨hx.1, hindex ▸ hx.2⟩
    have hend : ¬ (c = 10#8 ∨ c = 13#8) := hc
    rw [if_neg hchar, if_neg hchar', if_neg hend]
    exact ⟨s, p, rfl, h⟩

/-- A newline ends the line with a zero in `buf`. -/
theorem Typed.returns (h : Typed prompt text s p) (hc : EndsLine c) :
    ∃ s', readlineTurn s c = some (s', true) ∧ s'.buf text.length = 0#8 ∧
      (∀ k (hk : k < text.length), s'.buf k = text[k]) ∧ Displays s'.display (p.put 10#32) := by
  have hindex := h.index
  have hshort := h.short
  have hback : ¬ ((c = 8#8 ∨ c = 127#8) ∧ 0 < s.i) := by
    rintro ⟨hc', -⟩
    rcases hc with rfl | rfl <;> revert hc' <;> decide
  have hchar : ¬ (32#8 ≤ c ∧ s.i < buflen - 1) := by
    rintro ⟨hc', -⟩
    rcases hc with rfl | rfl <;> revert hc' <;> decide
  obtain ⟨d, hd, hdisplays⟩ := Reading.echo_eq h.displays 10#8
  refine ⟨{ s with buf := Function.update s.buf s.i 0#8, display := d }, ?_, ?_, fun k hk => ?_,
    hdisplays⟩
  · unfold readlineTurn
    rw [if_neg hback, if_neg hchar, if_pos (show c = 10#8 ∨ c = 13#8 from hc), hd]
    show (do
      let s ← Reading.setBuf { s with display := d } 0#8
      some (s, true)) = _
    rw [Reading.setBuf, if_pos (show s.i < buflen by omega)]
    rfl
  · show Function.update s.buf s.i 0#8 text.length = 0#8
    rw [hindex, Function.update_self]
  · show Function.update s.buf s.i 0#8 k = text[k]
    rw [Function.update_of_ne (by omega)]
    exact h.buf k hk

theorem Typed.loop (h : Typed prompt text s p) (hprompt : prompt.length + buflen ≤ maxText + 1)
    {cs : List Key} (hcs : ∀ c ∈ cs, ¬ EndsLine c) (rest : List Key) :
    ∃ s' p', readlineLoop s (cs ++ rest) = readlineLoop s' rest ∧
      Typed prompt (cs.foldl edit text) s' p' := by
  induction cs generalizing text s p with
  | nil => exact ⟨s, p, rfl, h⟩
  | cons c cs ih =>
      obtain ⟨s₁, p₁, hturn, htyped⟩ := h.turn hprompt (hcs c List.mem_cons_self)
      obtain ⟨s', p', hloop, htyped'⟩ := ih htyped fun c hc => hcs c (List.mem_cons_of_mem _ hc)
      refine ⟨s', p', ?_, htyped'⟩
      rw [List.cons_append, readlineLoop, hturn]
      exact hloop

/-- The prompt is written before the first character. -/
theorem Displays.prompts {d : Display} {shown : List Cell} (h : Displays d p) (hp : p.Written shown)
    (hprompt : ∀ c ∈ prompt, 32#8 ≤ c) (hlen : shown.length + prompt.length ≤ maxText) :
    ∃ d' p', cprintfString prompt d = some d' ∧ Displays d' p' ∧
      p'.Written (shown ++ stringCells prompt) := by
  induction prompt generalizing d p shown with
  | nil => exact ⟨d, p, rfl, h, (List.append_nil shown).symm ▸ hp⟩
  | cons c cs ih =>
      rw [List.length_cons] at hlen
      obtain ⟨d₁, hd₁, hdisplays, -⟩ := consPutcDeep_put 0 h (c.signExtend 32)
      have hput := hp.put (takesCell_key (hprompt c List.mem_cons_self)).2 (by omega)
      obtain ⟨d', p', hd', hdisplays', hwritten⟩ := ih hdisplays hput
        (fun c hc => hprompt c (List.mem_cons_of_mem _ hc))
        (by rw [List.length_append, List.length_singleton]; omega)
      refine ⟨d', p', ?_, hdisplays', ?_⟩
      · rw [cprintfString, chars, List.map_cons, List.foldlM_cons,
          show cputchar d (c.signExtend 32) = some d₁ from hd₁]
        exact hd'
      · rw [List.append_assoc, List.singleton_append] at hwritten
        exact hwritten

/-- A line has no control characters. -/
theorem edit_printable (h : ∀ c ∈ text, 32#8 ≤ c) (c : Key) : ∀ c' ∈ edit text c, 32#8 ≤ c' := by
  intro c' hc'
  unfold edit at hc'
  split at hc'
  · exact h c' (List.mem_of_mem_dropLast hc')
  · split at hc'
    · rename_i hchar
      rcases List.mem_append.mp hc' with hc' | hc'
      · exact h c' hc'
      · rw [List.mem_singleton.mp hc']
        exact hchar.1
    · exact h c' hc'

theorem edits_printable (h : ∀ c ∈ text, 32#8 ≤ c) (cs : List Key) :
    ∀ c ∈ cs.foldl edit text, 32#8 ≤ c := by
  induction cs generalizing text with
  | nil => exact h
  | cons c cs ih => exact ih (edit_printable h c)

/-- A string in `buf` is its characters. -/
theorem strAt_buf {buf : Nat → Key} (hline : ∀ c ∈ text, 32#8 ≤ c) (hshort : text.length < buflen)
    (hbuf : ∀ k (h : k < text.length), buf k = text[k]) (hend : buf text.length = 0#8) :
    CString.strAt buf 0 buflen = text := by
  have hlen : CString.strlen buf 0 buflen = text.length := by
    refine (CString.strlen_eq_iff hshort).mpr ⟨by rw [Nat.zero_add]; exact hend, fun k hk hz => ?_⟩
    rw [Nat.zero_add, hbuf k hk] at hz
    have hge := hline _ (List.getElem_mem hk)
    rw [hz] at hge
    exact absurd hge (by decide)
  unfold CString.strAt
  rw [hlen]
  refine List.ext_getElem CString.length_memread fun k hk hk' => ?_
  simp only [CString.memread, List.getElem_map, List.getElem_range, Nat.zero_add]
  exact hbuf k hk'

theorem readline_typed {d : Display} (hd : d.crtPos < crtSize) (hprompt : ∀ c ∈ prompt, 32#8 ≤ c)
    (hlen : prompt.length + buflen ≤ maxText + 1) (buf : Nat → Key) {cs : List Key}
    (hcs : ∀ c ∈ cs, ¬ EndsLine c) : ∃ s p, readline prompt buf d cs = some (s, false) ∧
      Typed prompt (cs.foldl edit []) s p ∧
      ∀ c, EndsLine c → ∃ s', readline prompt buf d (cs ++ [c]) = some (s', true) ∧
        s'.buf (cs.foldl edit []).length = 0#8 ∧
        (∀ k (hk : k < (cs.foldl edit []).length), s'.buf k = (cs.foldl edit [])[k]) ∧
        ∃ p, Displays s'.display p := by
  have hnone : d.paper.Written [] := by
    refine ⟨?_, fun k hk => absurd hk (Nat.not_lt_zero k)⟩
    show 0 * crtCols + 0 ≤ d.crtPos
    omega
  obtain ⟨d₁, p₁, hd₁, hdisplays, hwritten⟩ := (Display.shows_paper hd).prompts hnone hprompt (by
    rw [List.length_nil]
    unfold buflen at hlen
    omega)
  have htyped : Typed prompt [] { buf, i := 0, display := d₁ } p₁ := by
    refine ⟨rfl, by decide, fun k hk => absurd hk (Nat.not_lt_zero k), hdisplays, ?_⟩
    rw [show lineCells [] = [] from rfl, List.append_nil]
    exact hwritten
  have hread : ∀ cs, readline prompt buf d cs = readlineLoop { buf, i := 0, display := d₁ } cs := by
    intro cs
    rw [readline, hd₁]
    rfl
  obtain ⟨s, p, hloop, hend⟩ := htyped.loop hlen hcs []
  rw [List.append_nil] at hloop
  refine ⟨s, p, (hread cs).trans hloop, hend, fun c hc => ?_⟩
  obtain ⟨s₁, p₁, hloop₁, hend₁⟩ := htyped.loop hlen hcs [c]
  obtain ⟨s', hturn, hzero, hbuf, hdisplays'⟩ := hend₁.returns hc
  refine ⟨s', ?_, hzero, hbuf, _, hdisplays'⟩
  rw [hread, hloop₁, readlineLoop, hturn]
  rfl

/-- Whatever is typed, the prompt and the line as edited so far stand in front of the cursor, and
the line is what is returned once it ends. -/
theorem readline_edits {d : Display} (hd : d.crtPos < crtSize) (hprompt : ∀ c ∈ prompt, 32#8 ≤ c)
    (hlen : prompt.length + buflen ≤ maxText + 1) (buf : Nat → Key) {cs : List Key}
    (hcs : ∀ c ∈ cs, ¬ EndsLine c) :
    (∃ s, readline prompt buf d cs = some (s, false) ∧
      s.display.Written (stringCells prompt ++ lineCells (cs.foldl edit []))) ∧
    ∀ c, EndsLine c → ∃ s, readline prompt buf d (cs ++ [c]) = some (s, true) ∧
      CString.strAt s.buf 0 buflen = cs.foldl edit [] := by
  obtain ⟨s, p, hread, htyped, hreturns⟩ := readline_typed hd hprompt hlen buf hcs
  refine ⟨⟨s, hread, htyped.displays.written htyped.written⟩, fun c hc => ?_⟩
  obtain ⟨s', hread', hzero, hbuf, -⟩ := hreturns c hc
  exact ⟨s', hread', strAt_buf (edits_printable (fun _ hx => absurd hx List.not_mem_nil) cs)
    htyped.short hbuf hzero⟩

end

/-- The prompt of the monitor. -/
def monitorPrompt : List Key := "K> ".toList.map chr

/-- A letter is typed, erased and typed again; a delete of the empty line stays. -/
theorem readline_edits_monitor :
    (∃ s, readline monitorPrompt (fun _ => 0#8) fullDisplay [104#8, 8#8, 127#8, 104#8] = some (s, false) ∧
      s.display.Written (stringCells monitorPrompt ++ [0x077F#16, 0x0768#16])) ∧
    ∀ c, EndsLine c → ∃ s, readline monitorPrompt (fun _ => 0#8) fullDisplay
        ([104#8, 8#8, 127#8, 104#8] ++ [c]) = some (s, true) ∧
      CString.strAt s.buf 0 buflen = [127#8, 104#8] := by
  have hcs : ∀ c ∈ [104#8, 8#8, 127#8, 104#8], ¬ EndsLine c := by
    unfold EndsLine
    decide
  exact readline_edits (d := fullDisplay) (by decide) (by decide) (by decide) _ hcs

end Jos
end Sisop

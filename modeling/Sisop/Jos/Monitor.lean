import Mathlib.Data.List.TakeWhile
import Mathlib.Data.List.Forall2
import Sisop.Jos.Readline

/-!
# A command at the monitor

`runcmd` of `kern/monitor.c` cuts its line where it stands: it puts zeros over the white space
and keeps the addresses of the words.  The zero behind a word is written when the next word is
looked for, so that the last one may have to do with the end of the line.

`words` is what the line says.
-/

namespace Sisop
namespace Jos

abbrev Cells := Nat → Key

/-- `strchr(WHITESPACE, c)` for a character of a string. -/
def whitespace (c : Key) : Bool := c = 9#8 ∨ c = 13#8 ∨ c = 10#8 ∨ c = 32#8

def maxargs : Nat := 16

/-- `while (*buf && strchr(WHITESPACE, *buf)) *buf++ = 0`. -/
def gobble : Nat → Cells → Nat → Option (Cells × Nat)
  | 0, _, _ => none
  | n + 1, m, p =>
      if m p ≠ 0#8 ∧ whitespace (m p) then gobble n (Function.update m p 0#8) (p + 1) else some (m, p)

/-- `while (*buf && !strchr(WHITESPACE, *buf)) buf++`. -/
def skipArg : Nat → Cells → Nat → Option Nat
  | 0, _, _ => none
  | n + 1, m, p => if m p ≠ 0#8 ∧ !whitespace (m p) then skipArg n m (p + 1) else some p

/-- What the loop of `runcmd` ends with: a return for too many arguments, or the line in pieces
and `argv`. -/
inductive Parsed
  | tooMany
  | args (m : Cells) (argv : List Nat)

def parseArgs : Nat → Cells → Nat → List Nat → Option Parsed
  | 0, _, _, _ => none
  | n + 1, m, p, argv => do
      let (m, p) ← gobble (n + 1) m p
      if m p = 0#8 then some (.args m argv)
      else if argv.length = maxargs - 1 then some .tooMany
      else
        let p' ← skipArg (n + 1) m p
        parseArgs n m p' (argv ++ [p])

/-- What `runcmd` comes to: it returns with a message, which may be empty, or it calls a
command. -/
inductive Invoked
  | returns (message : List Key)
  | call (name : List Key) (argv : List (List Key))
  deriving DecidableEq

/-- `Too many arguments (max %d)\n` of `MAXARGS`. -/
def tooManyMessage : List Key := "Too many arguments (max 16)\n".toList.map chr

/-- `Unknown command '%s'\n`.  The bytes of a format are taken without a sign, which these have
not. -/
def unknownMessage (name : List Key) : List Key :=
  "Unknown command '".toList.map chr ++ name ++ "'\n".toList.map chr

/-- The names in `commands`. -/
def commands : List (List Key) := ["help".toList.map chr, "kerninfo".toList.map chr]

/-- `runcmd` on the line at `buf`; a command is given its arguments as they stand in the line,
and `strcmp` is 0 on equal strings. -/
def runcmd (n : Nat) (m : Cells) (buf : Nat) (display : Display) : Option (Invoked × Display) := do
  match ← parseArgs n m buf [] with
  | .tooMany => some (.returns tooManyMessage, ← cprintfString tooManyMessage display)
  | .args _ [] => some (.returns [], display)
  | .args m (a :: argv) =>
      let name := CString.strAt m a n
      match commands.find? (· = name) with
      | some command => some (.call command ((a :: argv).map fun a => CString.strAt m a n), display)
      | none => some (.returns (unknownMessage name), ← cprintfString (unknownMessage name) display)

/-- The loop body of `monitor`, once a line has come to its end; what the command itself prints
is not in it. -/
def monitorTurn (buf : Cells) (display : Display) (cs : List Key) :
    Option (Option (Invoked × Display)) := do
  let (s, returned) ← readline monitorPrompt buf display cs
  if returned then some (← runcmd buflen s.buf 0 s.display) else some none

/-! ## Words -/

def flush (word : List Key) : List (List Key) := if word = [] then [] else [word]

/-- The words of a text behind the beginning of one. -/
def wordsFrom : List Key → List Key → List (List Key)
  | word, [] => flush word
  | word, c :: cs =>
      if whitespace c then flush word ++ wordsFrom [] cs else wordsFrom (word ++ [c]) cs

def words (s : List Key) : List (List Key) := wordsFrom [] s

/-- What `runcmd` is to do with a line of these words. -/
def meant (ws : List (List Key)) : Invoked :=
  if maxargs ≤ ws.length then .returns tooManyMessage
  else match ws with
    | [] => .returns []
    | w :: _ => if w ∈ commands then .call w ws else .returns (unknownMessage w)

/-- What `runcmd` prints before that. -/
def Invoked.message : Invoked → List Key
  | .returns message => message
  | .call _ _ => []

section

variable {m m' : Cells} {p n : Nat} {s w : List Key} {c : Key}

theorem wordsFrom_append (hw : ∀ c ∈ w, whitespace c = false) (word s : List Key) :
    wordsFrom word (w ++ s) = wordsFrom (word ++ w) s := by
  induction w generalizing word with
  | nil => rw [List.nil_append, List.append_nil]
  | cons c w ih =>
      rw [List.cons_append, wordsFrom, hw c List.mem_cons_self, if_neg Bool.false_ne_true,
        ih fun c hc => hw c (List.mem_cons_of_mem _ hc), List.append_assoc, List.singleton_append]

/-- White space in front means nothing. -/
theorem words_dropWhile (s : List Key) : words (s.dropWhile whitespace) = words s := by
  induction s with
  | nil => rfl
  | cons c s ih =>
      cases hc : whitespace c with
      | true =>
          rw [List.dropWhile_cons_of_pos hc, ih]
          unfold words
          rw [wordsFrom, hc]
          rfl
      | false => rw [List.dropWhile_cons_of_neg (by rw [hc]; exact Bool.false_ne_true)]

/-- A word, up to white space or the end. -/
theorem words_append (hw : ∀ c ∈ w, whitespace c = false) (hne : w ≠ [])
    (hs : ∀ c ∈ s.head?, whitespace c = true) : words (w ++ s) = w :: words s := by
  unfold words
  rw [wordsFrom_append hw, List.nil_append]
  cases s with
  | nil =>
      rw [wordsFrom, flush, if_neg hne]
      rfl
  | cons c s =>
      have hc : whitespace c = true := hs c rfl
      rw [wordsFrom, if_pos hc, flush, if_neg hne, wordsFrom, if_pos hc]
      rfl

/-! ## Lines in memory -/

/-- The string at `p`. -/
def LineAt (m : Cells) : Nat → List Key → Prop
  | p, [] => m p = 0#8
  | p, c :: s => m p = c ∧ c ≠ 0#8 ∧ LineAt m (p + 1) s

theorem LineAt.congr (h : LineAt m p s) (hm : ∀ i, p ≤ i → m' i = m i) : LineAt m' p s := by
  induction s generalizing p with
  | nil => exact (hm p (Nat.le_refl p)).trans h
  | cons c s ih =>
      obtain ⟨hc, hne, hs⟩ := h
      exact ⟨(hm p (Nat.le_refl p)).trans hc, hne, ih hs fun i hi => hm i (by omega)⟩

theorem LineAt.append (h : LineAt m p (w ++ s)) : LineAt m (p + w.length) s ∧
    ∀ k (hk : k < w.length), m (p + k) = w[k] ∧ w[k] ≠ 0#8 := by
  induction w generalizing p with
  | nil => exact ⟨h, fun k hk => absurd hk (Nat.not_lt_zero k)⟩
  | cons c w ih =>
      obtain ⟨hc, hne, hrest⟩ := h
      obtain ⟨hs, hw⟩ := ih hrest
      refine ⟨?_, fun k hk => ?_⟩
      · rw [List.length_cons, ← Nat.add_assoc, Nat.add_right_comm]
        exact hs
      · cases k with
        | zero => exact ⟨hc, hne⟩
        | succ k =>
            have hk' := hw k (Nat.lt_of_succ_lt_succ hk)
            rw [Nat.add_assoc, Nat.add_comm 1] at hk'
            exact hk'

theorem gobble_eq (h : LineAt m p s) (hn : s.length < n) : ∃ m',
    gobble n m p = some (m', p + (s.takeWhile whitespace).length) ∧
      LineAt m' (p + (s.takeWhile whitespace).length) (s.dropWhile whitespace) ∧
      (∀ i, i < p → m' i = m i) ∧
      ∀ i, p ≤ i → i < p + (s.takeWhile whitespace).length → m' i = 0#8 := by
  induction s generalizing m p n with
  | nil =>
      cases n with
      | zero => exact absurd hn (Nat.not_lt_zero _)
      | succ n =>
          have hz : m p = 0#8 := h
          refine ⟨m, ?_, h, fun _ _ => rfl, fun i hi hi' => absurd hi' (Nat.not_lt_of_le hi)⟩
          rw [gobble, if_neg fun hx => hx.1 hz]
          rfl
  | cons c s ih =>
      cases n with
      | zero => exact absurd hn (Nat.not_lt_zero _)
      | succ n =>
          obtain ⟨rfl, hne, hs⟩ := h
          cases hc : whitespace (m p) with
          | true =>
              have hrest : LineAt (Function.update m p 0#8) (p + 1) s :=
                hs.congr fun i hi => Function.update_of_ne (by omega) _ _
              obtain ⟨m', hgob, hholds, hbelow, hzero⟩ := ih hrest (Nat.lt_of_succ_lt_succ hn)
              have hlen : p + ((m p :: s).takeWhile whitespace).length =
                  p + 1 + (s.takeWhile whitespace).length := by
                rw [List.takeWhile_cons_of_pos hc, List.length_cons]
                omega
              rw [hlen, List.dropWhile_cons_of_pos hc]
              refine ⟨m', ?_, hholds, fun i hi => ?_, fun i hi hi' => ?_⟩
              · rw [gobble, if_pos ⟨hne, hc⟩]
                exact hgob
              · rw [hbelow i (by omega), Function.update_of_ne (by omega)]
              · by_cases hip : i = p
                · rw [hip, hbelow p (Nat.lt_succ_self p), Function.update_self]
                · exact hzero i (by omega) hi'
          | false =>
              have hneg : ¬ whitespace (m p) = true := by
                rw [hc]
                exact Bool.false_ne_true
              rw [List.takeWhile_cons_of_neg hneg, List.dropWhile_cons_of_neg hneg]
              refine ⟨m, ?_, ⟨rfl, hne, hs⟩, fun _ _ => rfl,
                fun i hi hi' => absurd hi' (Nat.not_lt_of_le hi)⟩
              rw [gobble, if_neg fun hx => hneg hx.2]
              rfl

theorem skipArg_eq (h : LineAt m p s) (hn : s.length < n) :
    skipArg n m p = some (p + (s.takeWhile fun c => !whitespace c).length) := by
  induction s generalizing p n with
  | nil =>
      cases n with
      | zero => exact absurd hn (Nat.not_lt_zero _)
      | succ n =>
          have hz : m p = 0#8 := h
          rw [skipArg, if_neg fun hx => hx.1 hz]
          rfl
  | cons c s ih =>
      cases n with
      | zero => exact absurd hn (Nat.not_lt_zero _)
      | succ n =>
          obtain ⟨rfl, hne, hs⟩ := h
          rw [skipArg]
          by_cases hc : (!whitespace (m p)) = true
          · rw [if_pos ⟨hne, hc⟩, ih hs (Nat.lt_of_succ_lt_succ hn),
              List.takeWhile_cons_of_pos (p := fun c => !whitespace c) hc, List.length_cons,
              Nat.add_assoc, Nat.add_comm 1]
          · rw [if_neg fun hx => hc hx.2, List.takeWhile_cons_of_neg (p := fun c => !whitespace c) hc]
            rfl

/-! ## The loop -/

/-- The word `w` stands at `q`, in front of `p`, and has its zero unless it ends at `p`. -/
structure Recorded (m : Cells) (p q : Nat) (w : List Key) : Prop where
  cells : ∀ k (h : k < w.length), m (q + k) = w[k] ∧ w[k] ≠ 0#8
  before : q + w.length ≤ p
  ended : q + w.length < p → m (q + w.length) = 0#8

variable {q p' : Nat}

theorem Recorded.gobble (h : Recorded m p q w) (hbelow : ∀ i, i < p → m' i = m i)
    (hzero : ∀ i, p ≤ i → i < p' → m' i = 0#8) (hle : p ≤ p') : Recorded m' p' q w := by
  have hbefore := h.before
  refine ⟨fun k hk => ?_, by omega, fun hlt => ?_⟩
  · rw [hbelow _ (by omega)]
    exact h.cells k hk
  · by_cases hp : q + w.length < p
    · rw [hbelow _ hp]
      exact h.ended hp
    · exact hzero _ (by omega) hlt

/-- The same when there was white space to gobble, whatever comes behind it. -/
theorem Recorded.further (h : Recorded m p q w) (hbelow : ∀ i, i < p → m' i = m i)
    (hzero : ∀ i, p ≤ i → i < p' → m' i = 0#8) (hlt : p < p') (k : Nat) :
    Recorded m' (p' + k) q w := by
  obtain ⟨hcells, hbefore, hended⟩ := h.gobble hbelow hzero (Nat.le_of_lt hlt)
  have hle := h.before
  exact ⟨hcells, by omega, fun _ => hended (by omega)⟩

/-- The word is a string once there is a zero at `p`. -/
theorem Recorded.strAt (h : Recorded m p q w) (hz : m p = 0#8) (hn : w.length < n) :
    CString.strAt m q n = w := by
  have hend : m (q + w.length) = 0#8 := by
    by_cases hp : q + w.length < p
    · exact h.ended hp
    · rw [show q + w.length = p from Nat.le_antisymm h.before (Nat.le_of_not_lt hp)]
      exact hz
  have hlen : CString.strlen m q n = w.length :=
    (CString.strlen_eq_iff hn).mpr
      ⟨hend, fun k hk hx => (h.cells k hk).2 ((h.cells k hk).1.symm.trans hx)⟩
  unfold CString.strAt
  rw [hlen]
  refine List.ext_getElem CString.length_memread fun k hk hk' => ?_
  simp only [CString.memread, List.getElem_map, List.getElem_range]
  exact (h.cells k hk').1

theorem takeWhile_not_white {s : List Key} : ∀ c ∈ s.takeWhile (fun c => !whitespace c),
    whitespace c = false := fun c hc => by
  have hx := List.mem_takeWhile_imp hc
  exact Bool.not_eq_true' _ ▸ hx

/-- What stands behind a word is white. -/
theorem head_dropWhile_not_white (s : List Key) :
    ∀ c ∈ (s.dropWhile fun c => !whitespace c).head?, whitespace c = true := by
  intro c hc
  have hx := List.head?_dropWhile_not (fun c => !whitespace c) s
  rw [Option.mem_def.mp hc] at hx
  exact Bool.not_eq_false' _ ▸ hx

/-- The loop of `runcmd`, with the words found so far. -/
theorem parseArgs_eq {argv : List Nat} {ws : List (List Key)} (h : LineAt m p s) (hn : s.length < n)
    (hrec : List.Forall₂ (Recorded m p) argv ws)
    (hhead : argv ≠ [] → ∀ c ∈ s.head?, whitespace c = true) (hargv : argv.length < maxargs) :
    if maxargs ≤ (ws ++ words s).length then parseArgs n m p argv = some .tooMany
    else ∃ m' p' argv', parseArgs n m p argv = some (.args m' argv') ∧ m' p' = 0#8 ∧
      List.Forall₂ (Recorded m' p') argv' (ws ++ words s) := by
  induction n generalizing m p s argv ws with
  | zero => exact absurd hn (Nat.not_lt_zero _)
  | succ n ih =>
      obtain ⟨m₁, hgob, hholds, hbelow, hzero⟩ := gobble_eq h hn
      have hsplit : (s.takeWhile whitespace).length + (s.dropWhile whitespace).length = s.length := by
        rw [← List.length_append, List.takeWhile_append_dropWhile]
      have hrec₁ := hrec.imp fun q w hqw => hqw.gobble hbelow hzero (Nat.le_add_right _ _)
      generalize hrest : s.dropWhile whitespace = rest at hholds hsplit
      generalize hp₁ : p + (s.takeWhile whitespace).length = p₁ at hgob hholds hzero hrec₁
      rw [← words_dropWhile s, hrest, parseArgs, hgob]
      dsimp only [Option.bind_eq_bind, Option.bind_some]
      cases rest with
      | nil =>
          have hz : m₁ p₁ = 0#8 := hholds
          have hlen : (ws ++ words []).length = argv.length := by
            rw [hrec.length_eq]
            exact congrArg List.length (List.append_nil ws)
          rw [if_neg (by omega), if_pos hz]
          refine ⟨m₁, p₁, argv, rfl, hz, ?_⟩
          rw [show ws ++ words [] = ws from List.append_nil ws]
          exact hrec₁
      | cons c r =>
          have hwhite : whitespace c = false := by
            have hx := List.head?_dropWhile_not whitespace s
            rw [hrest] at hx
            exact hx
          have hne : m₁ p₁ ≠ 0#8 := by
            rw [hholds.1]
            exact hholds.2.1
          have hsep := List.takeWhile_append_dropWhile (p := fun c => !whitespace c) (l := c :: r)
          have hword : (c :: r).takeWhile (fun c => !whitespace c) ≠ [] := by
            rw [List.takeWhile_cons_of_pos (p := fun c => !whitespace c) (by rw [hwhite]; rfl)]
            exact List.cons_ne_nil _ _
          have hskip := skipArg_eq hholds (n := n + 1) (by omega)
          have hwords := words_append takeWhile_not_white hword (head_dropWhile_not_white (c :: r))
          rw [hsep] at hwords
          rw [if_neg hne, hwords]
          generalize (c :: r).takeWhile (fun c => !whitespace c) = w at hsep hword hskip ⊢
          generalize hr : (c :: r).dropWhile (fun c => !whitespace c) = rest' at hsep ⊢
          have hlen : w.length + rest'.length = (c :: r).length := by
            rw [← List.length_append, hsep]
          have hwpos : 0 < w.length := List.length_pos_iff.mpr hword
          by_cases hmany : argv.length = maxargs - 1
          · rw [if_pos hmany, if_pos]
            rw [List.length_append, List.length_cons, ← hrec.length_eq]
            omega
          rw [if_neg hmany, hskip]
          rw [← hsep] at hholds
          obtain ⟨hline, hcells⟩ := hholds.append
          have hgap : argv ≠ [] → p < p₁ := fun hargv' => by
            rw [← hp₁]
            refine Nat.lt_add_of_pos_right (List.length_pos_iff.mpr fun hnil => ?_)
            cases s with
            | nil => cases hrest
            | cons d s =>
                rw [List.takeWhile_cons_of_pos (hhead hargv' d rfl)] at hnil
                cases hnil
          have hold : List.Forall₂ (Recorded m₁ (p₁ + w.length)) argv ws := by
            cases hrec with
            | nil => exact .nil
            | cons hfirst hmore =>
                exact (List.Forall₂.cons hfirst hmore).imp fun q w hqw =>
                  hqw.further hbelow hzero (hgap (List.cons_ne_nil _ _)) _
          have hnew : Recorded m₁ (p₁ + w.length) p₁ w :=
            ⟨hcells, Nat.le_refl _, fun hlt => absurd hlt (Nat.lt_irrefl _)⟩
          have hloop := ih hline (by omega) (List.rel_append hold (.cons hnew .nil))
            (fun _ => hr ▸ head_dropWhile_not_white _)
            (by rw [List.length_append, List.length_singleton]; omega)
          rw [List.append_assoc, List.singleton_append] at hloop
          exact hloop

theorem length_le_of_mem_wordsFrom {word : List Key} (hw : w ∈ wordsFrom word s) :
    w.length ≤ word.length + s.length := by
  have hflush : ∀ {word}, w ∈ flush word → w.length ≤ word.length := fun {word} hw => by
    unfold flush at hw
    split at hw
    · cases hw
    · rw [List.mem_singleton.mp hw]
  induction s generalizing word with
  | nil => exact hflush hw
  | cons c s ih =>
      rw [wordsFrom] at hw
      rw [List.length_cons]
      split at hw
      · rcases List.mem_append.mp hw with hw | hw
        · have hle := hflush hw
          omega
        · have hle := ih hw
          rw [List.length_nil] at hle
          omega
      · have hle := ih hw
        rw [List.length_append, List.length_singleton] at hle
        omega

/-- The addresses in `argv` are those of the words. -/
theorem map_strAt {argv : List Nat} {ws : List (List Key)} (h : List.Forall₂ (Recorded m p) argv ws)
    (hz : m p = 0#8) (hn : ∀ w ∈ ws, w.length < n) : (argv.map fun a => CString.strAt m a n) = ws := by
  induction h with
  | nil => rfl
  | cons hfirst _ ih =>
      rw [List.map_cons, hfirst.strAt hz (hn _ List.mem_cons_self),
        ih fun w hw => hn w (List.mem_cons_of_mem _ hw)]

/-- `runcmd` comes to an end on every line, and does what its words say. -/
theorem runcmd_eq (h : LineAt m p s) (hn : s.length < n) (display : Display) :
    runcmd n m p display =
      (cprintfString (meant (words s)).message display).map fun d => (meant (words s), d) := by
  have hloop := parseArgs_eq h hn (.nil : List.Forall₂ (Recorded m p) [] []) (fun hx => absurd rfl hx)
    (by decide)
  rw [List.nil_append] at hloop
  unfold runcmd meant
  by_cases hmany : maxargs ≤ (words s).length
  · rw [if_pos hmany] at hloop ⊢
    rw [hloop]
    exact Option.map_eq_bind.symm
  rw [if_neg hmany] at hloop ⊢
  obtain ⟨m', p', argv', hparse, hz, hrec⟩ := hloop
  have hstrings := map_strAt hrec hz fun w hw => by
    have hle := length_le_of_mem_wordsFrom hw
    rw [List.length_nil, Nat.zero_add] at hle
    exact Nat.lt_of_le_of_lt hle hn
  rw [hparse]
  dsimp only [Option.bind_eq_bind, Option.bind_some]
  cases hwords : words s with
  | nil =>
      rw [hwords] at hrec
      cases hrec
      rfl
  | cons w ws =>
      rw [hwords] at hrec hstrings
      cases hrec with
      | cons hfirst hmore =>
          dsimp only
          rw [hstrings]
          rw [List.map_cons] at hstrings
          rw [(List.cons.inj hstrings).1]
          cases hfind : commands.find? (· = w) with
          | none =>
              have hnot : w ∉ commands := fun hmem =>
                List.find?_eq_none.mp hfind w hmem (decide_eq_true rfl)
              rw [if_neg hnot]
              exact Option.map_eq_bind.symm
          | some command =>
              have hx := List.find?_some hfind
              have heq : command = w := of_decide_eq_true hx
              subst heq
              rw [if_pos (List.mem_of_find?_eq_some hfind)]
              rfl

theorem lineAt_of_cells (hcells : ∀ k (h : k < s.length), m (p + k) = s[k])
    (hs : ∀ c ∈ s, 32#8 ≤ c) (hz : m (p + s.length) = 0#8) : LineAt m p s := by
  induction s generalizing p with
  | nil => exact hz
  | cons c s ih =>
      refine ⟨hcells 0 (Nat.succ_pos _), fun hc => ?_, ih (fun k hk => ?_)
        (fun c hc => hs c (List.mem_cons_of_mem _ hc)) ?_⟩
      · have hge := hs c List.mem_cons_self
        rw [hc] at hge
        exact absurd hge (by decide)
      · have hk' := hcells (k + 1) (Nat.succ_lt_succ hk)
        rw [← Nat.add_assoc, Nat.add_right_comm] at hk'
        exact hk'
      · rw [List.length_cons, ← Nat.add_assoc, Nat.add_right_comm] at hz
        exact hz

end

/-- What is typed at the prompt is edited, cut into words and done, whatever it is and whatever
`buf` and the display had in them.  The message of a line that is no command is typed on the
paper and sent to the ports. -/
theorem monitorTurn_eq {display : Display} (hd : display.crtPos < crtSize) (buf : Cells)
    {cs : List Key} (hcs : ∀ c ∈ cs, ¬ EndsLine c) {c : Key} (hc : EndsLine c) :
    ∃ s p d, readline monitorPrompt buf display (cs ++ [c]) = some (s, true) ∧
      Displays s.display p ∧
      monitorTurn buf display (cs ++ [c]) = some (some (meant (words (cs.foldl edit [])), d)) ∧
      Displays d ((chars (meant (words (cs.foldl edit []))).message).foldl Paper.put p) ∧
      Sends s.display d ((chars (meant (words (cs.foldl edit []))).message).flatMap sent) := by
  have hprompt : ∀ c ∈ monitorPrompt, 32#8 ≤ c := by decide
  obtain ⟨s, p, -, htyped, hreturns⟩ := readline_typed hd hprompt (by decide) buf hcs
  obtain ⟨s', hread, hzero, hbuf, p', hshows⟩ := hreturns c hc
  have hline : LineAt s'.buf 0 (cs.foldl edit []) := by
    refine lineAt_of_cells (fun k hk => ?_)
      (edits_printable (fun _ hx => absurd hx List.not_mem_nil) cs) ?_
    · rw [Nat.zero_add]
      exact hbuf k hk
    · rw [Nat.zero_add]
      exact hzero
  obtain ⟨d, hprints, hshows', -, hsends⟩ :=
    hshows.puts (chars (meant (words (cs.foldl edit []))).message)
  refine ⟨s', p', d, hread, hshows, ?_, hshows', hsends⟩
  unfold monitorTurn
  rw [hread]
  dsimp only [Option.bind_eq_bind, Option.bind_some]
  rw [if_pos rfl, runcmd_eq hline htyped.short, cprintfString, hprints]
  rfl

/-- Words between blanks, of which the last is typed again, and a word that is no command. -/
theorem monitorTurn_eq_help :
    (∃ s p d, readline monitorPrompt (fun _ => 1#8) fullDisplay
        (" help  me\x08y".toList.map chr ++ [10#8]) = some (s, true) ∧ Displays s.display p ∧
      monitorTurn (fun _ => 1#8) fullDisplay (" help  me\x08y".toList.map chr ++ [10#8]) =
        some (some (.call ("help".toList.map chr) ["help".toList.map chr, "my".toList.map chr], d)) ∧
      Displays d p) ∧
    ∃ s d, readline monitorPrompt (fun _ => 1#8) fullDisplay ("ls".toList.map chr ++ [13#8]) =
        some (s, true) ∧
      monitorTurn (fun _ => 1#8) fullDisplay ("ls".toList.map chr ++ [13#8]) =
        some (some (.returns ("Unknown command 'ls'\n".toList.map chr), d)) ∧
      d.serial = s.display.serial ++ "Unknown command 'ls'\n".toList.map chr := by
  have hcs : (∀ c ∈ " help  me\x08y".toList.map chr, ¬ EndsLine c) ∧
      ∀ c ∈ "ls".toList.map chr, ¬ EndsLine c := by
    unfold EndsLine
    decide
  have hwords : meant (words ((" help  me\x08y".toList.map chr).foldl edit [])) =
      .call ("help".toList.map chr) ["help".toList.map chr, "my".toList.map chr] := by decide
  have hunknown : meant (words (("ls".toList.map chr).foldl edit [])) =
      .returns ("Unknown command 'ls'\n".toList.map chr) := by decide
  have hpos : fullDisplay.crtPos < crtSize := by decide
  obtain ⟨s, p, d, hread, hshows, hturn, hshows', -⟩ :=
    monitorTurn_eq hpos (fun _ => 1#8) hcs.1 (.inl rfl)
  obtain ⟨s₁, p₁, d₁, hread₁, -, hturn₁, -, hsends⟩ :=
    monitorTurn_eq hpos (fun _ => 1#8) hcs.2 (.inr rfl)
  rw [hwords] at hturn hshows'
  rw [hunknown] at hturn₁ hsends
  exact ⟨⟨s, p, d, hread, hshows, hturn, hshows'⟩, s₁, d₁, hread₁, hturn₁, hsends.serial⟩

end Jos
end Sisop

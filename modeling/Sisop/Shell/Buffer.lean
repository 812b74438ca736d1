import Mathlib.Logic.Function.Basic
import Sisop.Lib.CString
import Sisop.Shell.Tokens

/-!
# The parser in its buffer

`read_line` fills `buffer`, and the parser cuts it up where it lies: it ends a
segment by a zero written over the `|`, and goes on at a pointer behind it.  Here
the parser is one of positions in the buffer, and every access to an array is
checked: `none` is an access outside of it.

`Limits` are what is not checked by a position in the buffer.  The byte in front
of the buffer is read when the line begins with `&`, and the number of arguments
and the text of the status are only limited by the arrays that hold them.
-/

namespace Sisop
namespace Shell

open CString

/-- `BUFLEN`, `ARGSIZE` and `FNAMESIZE`. -/
def buflen : Nat := 1024
def argsize : Nat := 1024
def fnamesize : Nat := 1024

/-- `END_LINE`. -/
def endLine : Byte := chr '\n'

/-- The cells of `buffer`. -/
abbrev Memory := Nat → Byte

/-- The arrays, and the byte in front of the buffer, when it may be read. -/
structure Limits extends Arrays where
  front : Option Byte

/-- Nothing in front of the buffer may be read, and the arrays are those of
`struct execcmd`.  `status_str` is not one of them. -/
def inBounds : Limits := ⟨⟨some maxargs, none⟩, none⟩

/-! ## Reading a line -/

/-- The loop of `read_line` from `buffer[i]` on, and what is left of the input.
There is no line when the input ends. -/
def readLine (m : Memory) (i : Nat) : List Byte → Option (Option Memory × List Byte)
  | [] => some (none, [])
  | c :: rest =>
    if i < buflen then
      if c = endLine then some (some (Function.update m i 0), rest)
      else readLine (Function.update m i c) (i + 1) rest
    else none

/-! ## Searching the buffer -/

/-- `while (!stop(buf[i])) i++`. -/
def scan (stop : Byte → Bool) (m : Memory) (i : Nat) : Option Nat :=
  if i < buflen then
    if stop (m i) then some i else scan stop m (i + 1)
  else none
termination_by buflen - i

/-- `buf[i - 1]`. -/
def byteBefore (lim : Limits) (m : Memory) : Nat → Option Byte
  | 0 => lim.front
  | i + 1 => if i < buflen then some (m i) else none

/-- `split_line`: the memory with the string cut off, and where it goes on. -/
def splitLineAt (m : Memory) (p : Nat) (splitter : Byte) : Option (Memory × Nat) := do
  let i ← scan (fun b => b = splitter ∨ b = 0) m p
  let right ← scan (· ≠ space) (Function.update m i 0) (i + 1)
  some (Function.update m i 0, right)

/-! ## Tokens -/

/-- `get_token` from `buf[idx]` and `tok[i]` on.  The token ends in a zero of the
array it is copied to. -/
def getTokenAt (m : Memory) (idx i : Nat) : Option (List Byte) :=
  if idx < buflen ∧ i < argsize then
    if m idx = space ∨ m idx = 0 then some []
    else (getTokenAt m (idx + 1) (i + 1)).map (m idx :: ·)
  else none
termination_by buflen - idx

/-- The names of the files fit in their arrays. -/
def ExecCmd.NamesFit (c : ExecCmd) : Prop :=
  c.outFile.length < fnamesize ∧ c.inFile.length < fnamesize ∧ c.errFile.length < fnamesize

instance (c : ExecCmd) : Decidable c.NamesFit :=
  inferInstanceAs (Decidable (_ ∧ _ ∧ _))

variable (lim : Limits) (env : Environ)

/-- One turn of the loop of `parse_exec`, with the arrays of the names. -/
def ExecCmd.storeToken (c : ExecCmd) (tok : List Byte) : Option ExecCmd :=
  match parseRedirFlow c tok with
  | some c => if c.NamesFit then some c else none
  | none => c.addToken lim.toArrays env tok

/-- The loop of `parse_exec` from `buf_cmd[idx]` on. -/
def storeTokens (m : Memory) (c : ExecCmd) (idx : Nat) : Option ExecCmd :=
  if idx < buflen then
    if _h : m idx = 0 then some c
    else do
      let tok ← getTokenAt m idx 0
      if idx + tok.length < buflen then
        let c ← c.storeToken lim env tok
        storeTokens m c (if m (idx + tok.length) ≠ 0 then idx + tok.length + 1
          else idx + tok.length)
      else none
  else none
termination_by buflen - idx
decreasing_by
  split
  · omega
  · rename_i hzero
    rcases Nat.eq_zero_or_pos tok.length with hlen | hlen
    · rw [hlen] at hzero
      exact absurd (not_not.mp hzero) _h
    · omega

/-- `parse_exec`, which ends `argv` by a null pointer. -/
def parseExecAt (m : Memory) (p : Nat) : Option Cmd := do
  let n ← scan (· = 0) m p
  let c ← storeTokens lim env m (execCmdCreate (memread m p (n - p))) p
  if lim.HasCell c.argv.length then some (.exec c) else none

/-! ## Commands and lines -/

def parseBackAt (m : Memory) (p : Nat) : Option (Memory × Cmd) := do
  let i ← scan (· = chr '&') m p
  let e ← parseExecAt lim env (Function.update m i 0) p
  let b ← backCmdCreate e
  some (Function.update m i 0, b)

def parseCmdAt (m : Memory) (p : Nat) : Option (Memory × Cmd) := do
  let n ← scan (· = 0) m p
  if n = p then some (m, .null)
  else match blockContains (memread m p (n - p)) (chr '&') with
    | some idx => do
      let b ← byteBefore lim m (p + idx)
      if b ≠ chr '>' then parseBackAt lim env m p
      else
        let e ← parseExecAt lim env m p
        some (m, e)
    | none => do
      let e ← parseExecAt lim env m p
      some (m, e)

theorem scan_some {stop : Byte → Bool} {m : Memory} {i j : Nat} (h : scan stop m i = some j) :
    i ≤ j ∧ j < buflen ∧ stop (m j) := by
  induction i using scan.induct stop m with
  | case1 i hlt hstop =>
    rw [scan, if_pos hlt, if_pos hstop] at h
    cases h
    exact ⟨Nat.le_refl _, hlt, hstop⟩
  | case2 i hlt hstop ih =>
    rw [scan, if_pos hlt, if_neg hstop] at h
    have hrest := ih h
    exact ⟨by omega, hrest.2⟩
  | case3 i hlt =>
    rw [scan, if_neg hlt] at h
    cases h

/-- The string goes on behind its beginning. -/
theorem splitLineAt_lt {m m' : Memory} {p right : Nat} {splitter : Byte}
    (h : splitLineAt m p splitter = some (m', right)) : p < right ∧ right < buflen := by
  unfold splitLineAt at h
  cases hcut : scan (fun b => b = splitter ∨ b = 0) m p with
  | none =>
    rw [hcut] at h
    cases h
  | some i =>
    rw [hcut, Option.bind_eq_bind, Option.bind_some] at h
    cases hskip : scan (· ≠ space) (Function.update m i 0) (i + 1) with
    | none =>
      rw [hskip] at h
      cases h
    | some j =>
      rw [hskip, Option.bind_some] at h
      obtain ⟨-, rfl⟩ := Prod.mk.inj (Option.some.inj h)
      have hi := (scan_some hcut).1
      have hj := scan_some hskip
      exact ⟨by omega, hj.2.1⟩

def parseLineAt (m : Memory) (p : Nat) : Option (Memory × Cmd) :=
  match _h : splitLineAt m p (chr '|') with
  | none => none
  | some (m, right) => do
    let (m, l) ← parseCmdAt lim env m p
    if m right ≠ 0 then
      let (m, r) ← parseLineAt m right
      some (m, pipeCmdCreate l r)
    else some (m, pipeCmdCreate l .null)
termination_by buflen - p
decreasing_by
  have hlt := splitLineAt_lt _h
  omega

/-! ## What the buffer holds -/

variable {lim env} {m m' : Memory} {p : Nat} {s t : List Byte}

/-- The bytes of `s` lie at `p`, and the buffer is zero behind them. -/
structure Rest (m : Memory) (p : Nat) (s : List Byte) : Prop where
  inside : p + s.length < buflen
  byte : ∀ k (h : k < s.length), m (p + k) = s[k]
  fill : ∀ k, p + s.length ≤ k → k < buflen → m k = 0

/-- The C string `s` lies at `p`. -/
structure StringAt (m : Memory) (p : Nat) (s : List Byte) : Prop where
  inside : p + s.length < buflen
  byte : ∀ k (h : k < s.length), m (p + k) = s[k]
  zero : m (p + s.length) = 0
  string : 0 ∉ s

/-- A search in a string that lies in the buffer goes to the first byte that stops
it, or to the end of the string. -/
theorem scan_takeWhile {stop : Byte → Bool} (hin : p + s.length < buflen)
    (hbyte : ∀ k (h : k < s.length), m (p + k) = s[k]) (hend : stop (m (p + s.length))) :
    scan stop m p = some (p + (s.takeWhile fun b => !stop b).length) := by
  induction s generalizing p with
  | nil =>
    have hp : p < buflen := hin
    have hstop : stop (m p) := hend
    rw [scan, if_pos hp, if_pos hstop]
    rfl
  | cons b s ih =>
    rw [List.length_cons] at hin hend
    have hb : m p = b := hbyte 0 (Nat.succ_pos _)
    rw [scan, if_pos (by omega), hb]
    by_cases hstop : stop b
    · rw [if_pos hstop, List.takeWhile_cons_of_neg (by simpa using hstop)]
      rfl
    · have hnext : p + (s.length + 1) = p + 1 + s.length := by omega
      rw [hnext] at hin hend
      have hrest : ∀ k (h : k < s.length), m (p + 1 + k) = s[k] := by
        intro k hk
        have hk' := hbyte (k + 1) (Nat.succ_lt_succ hk)
        rwa [← Nat.add_assoc, Nat.add_right_comm] at hk'
      rw [if_neg hstop, ih hin hrest hend, List.takeWhile_cons_of_pos (by simpa using hstop),
        List.length_cons, ← Nat.add_assoc, Nat.add_right_comm]

/-- The length of a C string. -/
theorem StringAt.strlen (h : StringAt m p s) : scan (· = 0) m p = some (p + s.length) := by
  have hend : decide (m (p + s.length) = 0) = true := decide_eq_true h.zero
  have hall : s.takeWhile (fun b => !decide (b = 0)) = s := by
    rw [List.takeWhile_eq_self_iff]
    intro b hb
    have hne : b ≠ 0 := fun heq => h.string (heq ▸ hb)
    simpa using hne
  rw [scan_takeWhile h.inside h.byte hend, hall]

theorem StringAt.memread (h : StringAt m p s) : memread m p s.length = s := by
  refine List.ext_getElem (by simp) fun k hk hk' => ?_
  simp [CString.memread, h.byte k hk']

/-- A string without its first bytes. -/
theorem StringAt.drop (h : StringAt m p s) {n : Nat} (hn : n ≤ s.length) :
    StringAt m (p + n) (s.drop n) where
  inside := by
    have hin := h.inside
    rw [List.length_drop]
    omega
  byte := fun k hk => by
    rw [List.length_drop] at hk
    rw [List.getElem_drop, Nat.add_assoc]
    exact h.byte (n + k) (by omega)
  zero := by
    have hlen : p + n + (s.drop n).length = p + s.length := by
      rw [List.length_drop]
      omega
    rw [hlen]
    exact h.zero
  string := fun hmem => h.string (List.mem_of_mem_drop hmem)

/-- A zero written into a string cuts it off. -/
theorem StringAt.cut (h : StringAt m p s) {n : Nat} (hn : n ≤ s.length) :
    StringAt (Function.update m (p + n) 0) p (s.take n) where
  inside := by
    have hin := h.inside
    rw [List.length_take]
    omega
  byte := fun k hk => by
    rw [List.length_take] at hk
    rw [List.getElem_take, Function.update_of_ne (by omega)]
    exact h.byte k (by omega)
  zero := by
    rw [List.length_take, Nat.min_eq_left hn]
    exact Function.update_self ..
  string := fun hmem => h.string (List.mem_of_mem_take hmem)

/-! ## The command in a string -/

/-- `get_token` copies the token the string begins with. -/
theorem getTokenAt_eq {idx i : Nat} (h : StringAt m idx s) (hi : i + s.length < argsize) :
    getTokenAt m idx i = some (getToken s) := by
  induction s generalizing idx i with
  | nil =>
    have hz : m idx = 0 := h.zero
    have hin : idx < buflen := h.inside
    have hi' : i < argsize := hi
    rw [getTokenAt, if_pos ⟨hin, hi'⟩, if_pos (.inr hz)]
    rfl
  | cons b s ih =>
    have hb : m idx = b := h.byte 0 (Nat.succ_pos _)
    have hne : b ≠ 0 := fun heq => h.string (heq ▸ List.mem_cons_self)
    have hin := h.inside
    rw [List.length_cons] at hi hin
    rw [getTokenAt, if_pos ⟨by omega, by omega⟩, hb]
    unfold getToken
    by_cases hspace : b = space
    · rw [if_pos (.inl hspace), List.takeWhile_cons_of_neg (by simpa using hspace)]
    · have hnot : ¬ (b = space ∨ b = 0) := not_or.mpr ⟨hspace, hne⟩
      have hrest : StringAt m (idx + 1) s := h.drop (n := 1) (by simp)
      rw [if_neg hnot, ih hrest (by omega), List.takeWhile_cons_of_pos (by simpa using hspace)]
      rfl

theorem storeToken_nil (c : ExecCmd) : c.storeToken lim env [] = some c :=
  addToken_nil c

/-- The loop of `parse_exec`, with what is done to a token left open. -/
def walkTokens {σ : Type} (step : σ → List Byte → Option σ) (m : Memory) (st : σ) (idx : Nat) :
    Option σ :=
  if idx < buflen then
    if _h : m idx = 0 then some st
    else do
      let tok ← getTokenAt m idx 0
      if idx + tok.length < buflen then
        let st ← step st tok
        walkTokens step m st (if m (idx + tok.length) ≠ 0 then idx + tok.length + 1
          else idx + tok.length)
      else none
  else none
termination_by buflen - idx
decreasing_by
  split
  · omega
  · rename_i hzero
    rcases Nat.eq_zero_or_pos tok.length with hlen | hlen
    · rw [hlen] at hzero
      exact absurd (not_not.mp hzero) _h
    · omega

theorem storeTokens_walk (c : ExecCmd) (idx : Nat) :
    storeTokens lim env m c idx = walkTokens (ExecCmd.storeToken lim env) m c idx := by
  induction c, idx using storeTokens.induct m with
  | case1 c idx hlt hzero =>
    rw [storeTokens, walkTokens, if_pos hlt, if_pos hlt, dif_pos hzero, dif_pos hzero]
  | case2 c idx hlt hzero ih =>
    rw [storeTokens, walkTokens, if_pos hlt, if_pos hlt, dif_neg hzero, dif_neg hzero]
    refine congrArg _ (funext fun tok => ?_)
    split
    · exact congrArg _ (funext fun c' => ih tok ‹_› c')
    · rfl
  | case3 c idx hlt =>
    rw [storeTokens, walkTokens, if_neg hlt, if_neg hlt]

section Walk

variable {σ : Type} {step : σ → List Byte → Option σ} {st : σ} {idx : Nat}

theorem walkTokens_end (hin : idx < buflen) (hz : m idx = 0) :
    walkTokens step m st idx = some st := by
  rw [walkTokens, if_pos hin, dif_pos hz]

/-- The loop goes through the tokens of the string one after the other. -/
theorem walkTokens_eq (hnil : ∀ st, step st [] = some st) (h : StringAt m idx s) :
    walkTokens step m st idx = (tokens s).foldlM step st := by
  induction hn : s.length using Nat.strong_induction_on generalizing s idx st with
  | _ n ih =>
    have hin := h.inside
    cases s with
    | nil =>
      exact walkTokens_end hin h.zero
    | cons b rest =>
      have hb : m idx = b := h.byte 0 (Nat.succ_pos _)
      have hne : m idx ≠ 0 := fun heq => h.string (by rw [← heq, hb]; exact List.mem_cons_self)
      have htok : getTokenAt m idx 0 = some (getToken (b :: rest)) := by
        refine getTokenAt_eq h ?_
        have hsizes : buflen = argsize := rfl
        omega
      have hspace : space ∉ getToken (b :: rest) := space_notMem_getToken
      have hle : (getToken (b :: rest)).length ≤ (b :: rest).length :=
        (List.takeWhile_prefix _).length_le
      rw [walkTokens, if_pos (by omega), dif_neg hne, htok, Option.bind_eq_bind, Option.bind_some,
        if_pos (by omega)]
      rcases getToken_cases (b :: rest) with hlast | hmore
      · rw [← hlast] at hspace ⊢
        rw [if_neg (not_not.mpr h.zero), foldlM_word hnil hspace]
        simp only [walkTokens_end hin h.zero]
        exact bind_pure _
      · have htokens : tokens (b :: rest) = tokens (getToken (b :: rest)) ++
            tokens ((b :: rest).drop ((getToken (b :: rest)).length + 1)) := by
          rw [← tokens_append, ← hmore]
        have hlen := congrArg List.length hmore
        rw [List.length_append, List.length_cons (a := space)] at hlen
        have hsep : m (idx + (getToken (b :: rest)).length) ≠ 0 := by
          rw [h.byte _ (by omega)]
          intro hz
          exact h.string (hz ▸ List.getElem_mem _)
        have hrest : StringAt m (idx + ((getToken (b :: rest)).length + 1))
            ((b :: rest).drop ((getToken (b :: rest)).length + 1)) := h.drop (by omega)
        rw [if_pos hsep, htokens, List.foldlM_append, foldlM_word hnil hspace]
        refine congrArg _ (funext fun st' => ?_)
        refine ih _ ?_ hrest rfl
        rw [List.length_drop]
        omega

end Walk

/-- The loop of `parse_exec` stores the tokens of the string one after the other. -/
theorem storeTokens_eq {c : ExecCmd} {idx : Nat} (h : StringAt m idx s) :
    storeTokens lim env m c idx = (tokens s).foldlM (ExecCmd.storeToken lim env) c := by
  rw [storeTokens_walk]
  exact walkTokens_eq storeToken_nil h

end Shell
end Sisop

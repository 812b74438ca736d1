import Sisop.Shell.Buffer
import Sisop.Shell.RunCmd

/-!
# Parsing in place

The parser in its buffer gives what the parser of strings gives with the same
arrays, as long as it stays within the buffer.  Cutting a segment off leaves the segments behind it
alone, and what is in front of them is a space or the zero of the cut.
-/

namespace Sisop
namespace Shell

open CString

variable {lim : Limits} {env : Environ} {m m' : Memory} {p n : Nat} {s tok : List Byte}
  {c c' : ExecCmd} {b : Byte}

/-! ## `parse_exec` -/

/-- A turn of the loop with names that fit keeps them fitting. -/
theorem addToken_namesFit {arr : Arrays} (hc : c.NamesFit) (htok : tok.length ≤ fnamesize)
    (h : c.addToken arr env tok = some c') : c'.NamesFit := by
  obtain ⟨hout, hin, herr⟩ := hc
  have hdrop : ∀ k, 0 < k → (tok.drop k).length < fnamesize := by
    intro k hk
    have hpos : 0 < fnamesize := by decide
    rw [List.length_drop]
    omega
  obtain ⟨-, hflow⟩ | ⟨-, -, rfl⟩ | ⟨-, -, w, -, ⟨-, -, rfl⟩ | ⟨-, rfl⟩⟩ := addToken_cases h
  · obtain rfl | rfl | rfl | rfl := parseRedirFlow_cases hflow
    · exact ⟨hdrop 1 (by decide), hin, herr⟩
    · exact ⟨hout, hin, hdrop 2 (by decide)⟩
    · exact ⟨hout, hin, herr⟩
    · exact ⟨hout, hdrop 1 (by decide), herr⟩
  · exact ⟨hout, hin, herr⟩
  · exact ⟨hout, hin, herr⟩
  · exact ⟨hout, hin, herr⟩

/-- The names always fit, so that a token is stored as it is added. -/
theorem storeToken_eq (hc : c.NamesFit) (htok : tok.length ≤ fnamesize) :
    c.storeToken lim env tok = c.addToken lim.toArrays env tok := by
  unfold ExecCmd.storeToken
  cases hflow : parseRedirFlow c tok with
  | none => rfl
  | some c' =>
    have hadd : c.addToken lim.toArrays env tok = some c' := by
      rw [ExecCmd.addToken, hflow]
    rw [hadd]
    exact if_pos (addToken_namesFit hc htok hadd)

theorem foldlM_storeToken {toks : List (List Byte)} (hc : c.NamesFit)
    (htoks : ∀ tok ∈ toks, tok.length ≤ fnamesize) :
    toks.foldlM (ExecCmd.storeToken lim env) c =
      toks.foldlM (ExecCmd.addToken lim.toArrays env) c := by
  induction toks generalizing c with
  | nil => rfl
  | cons tok toks ih =>
    have htok := htoks tok List.mem_cons_self
    rw [List.foldlM_cons, List.foldlM_cons, storeToken_eq hc htok]
    cases hadd : c.addToken lim.toArrays env tok with
    | none => rfl
    | some c₁ =>
      exact ih (addToken_namesFit hc htok hadd) fun t ht => htoks t (List.mem_cons_of_mem _ ht)

theorem namesFit_execCmdCreate : (execCmdCreate s).NamesFit := by
  have hpos : 0 < fnamesize := by decide
  exact ⟨hpos, hpos, hpos⟩

theorem StringAt.length_token (h : StringAt m p s) : ∀ tok ∈ tokens s, tok.length ≤ fnamesize := by
  intro tok htok
  have hin := h.inside
  have hsizes : buflen = fnamesize := rfl
  have hle := (infix_of_mem_tokens htok).length_le
  omega

/-- `parse_exec` gives the command of its string. -/
theorem parseExecAt_eq (h : StringAt m p s) :
    parseExecAt lim env m p = parseExec lim.toArrays env s := by
  have hstore : storeTokens lim env m (execCmdCreate s) p =
      parsedTokens lim.toArrays env s (tokens s) := by
    rw [storeTokens_eq h, foldlM_storeToken namesFit_execCmdCreate h.length_token]
    rfl
  rw [parseExecAt, h.strlen, Option.bind_eq_bind, Option.bind_some, Nat.add_sub_cancel_left,
    h.memread, hstore, parseExec_eq]
  rfl

/-! ## `parse_cmd` -/

/-- `buf_cmd[idx - 1]`, where `b` is in front of the string. -/
theorem byteBefore_eq {idx : Nat} (h : StringAt m p s) (hidx : idx < s.length)
    (hb : idx = 0 → byteBefore lim m p = some b) :
    byteBefore lim m (p + idx) = (b :: s)[idx]? := by
  have hin := h.inside
  cases idx with
  | zero => exact hb rfl
  | succ k =>
    rw [← Nat.add_assoc, byteBefore, if_pos (by omega), h.byte k (by omega),
      List.getElem?_cons_succ, List.getElem?_eq_getElem]

/-- The search for a byte of the string stops at the first one. -/
theorem scan_blockContains {idx : Nat} (h : StringAt m p s) (hb : blockContains s b = some idx) :
    scan (· = b) m p = some (p + idx) := by
  obtain ⟨htake, hlt⟩ := takeWhile_eq_take hb
  have hin := h.inside
  have hlen : (s.take idx).length = idx := by
    rw [List.length_take, Nat.min_eq_left (Nat.le_of_lt hlt)]
  have hbyte : ∀ k (hk : k < (s.take idx).length), m (p + k) = (s.take idx)[k] := by
    intro k hk
    rw [List.getElem_take]
    exact h.byte k (by omega)
  have hend : decide (m (p + (s.take idx).length) = b) = true := by
    rw [hlen, h.byte idx hlt]
    exact (List.findIdx?_eq_some_iff_getElem.mp hb).2.1
  have hall : (s.take idx).takeWhile (fun a => !decide (a = b)) = s.take idx := by
    rw [List.takeWhile_eq_self_iff, ← htake]
    intro a ha
    have hne := List.mem_takeWhile_imp ha
    simpa using hne
  rw [scan_takeWhile (by omega) hbyte hend, hall, hlen]

/-- The string in front of a `&` is parsed, in place of which there is a zero. -/
theorem parseBackAt_eq {idx : Nat} (h : StringAt m p s)
    (hamp : blockContains s (chr '&') = some idx) : parseBackAt lim env m p =
      (parseExecAt lim env (Function.update m (p + idx) 0) p).bind fun e =>
        (backCmdCreate e).map (Function.update m (p + idx) 0, ·) := by
  rw [parseBackAt, scan_blockContains h hamp, Option.bind_eq_bind, Option.bind_some]
  refine congrArg _ (funext fun e => ?_)
  cases backCmdCreate e <;> rfl

theorem parseCmdAt_nil (h : StringAt m p []) : parseCmdAt lim env m p = some (m, .null) := by
  have hlen : scan (· = 0) m p = some p := h.strlen
  rw [parseCmdAt, hlen, Option.bind_eq_bind, Option.bind_some]
  exact if_pos rfl

/-- `parse_cmd` leaves the memory behind its segment alone, and gives the command of
the segment. -/
theorem parseCmdAt_eq (env : Environ) (h : StringAt m p s)
    (hb : s.head? = some (chr '&') → byteBefore lim m p = some b) :
    ∃ m' : Memory, (∀ k, p + s.length ≤ k → m' k = m k) ∧
      parseCmdAt lim env m p = (parseCmd lim.toArrays env b s).map (m', ·) := by
  have hplain : ((parseExecAt lim env m p).bind fun e => some (m, e)) =
      (parseExec lim.toArrays env s).map (m, ·) := by
    rw [parseExecAt_eq h]
    cases parseExec lim.toArrays env s <;> rfl
  by_cases hne : s = []
  · rw [hne] at h ⊢
    exact ⟨m, fun _ _ => rfl, parseCmdAt_nil h⟩
  · have hpos := List.length_pos_of_ne_nil hne
    rw [parseCmdAt, h.strlen, Option.bind_eq_bind, Option.bind_some, Nat.add_sub_cancel_left,
      h.memread, if_neg (by omega), parseCmd, if_neg hne]
    cases hamp : blockContains s (chr '&') with
    | none => exact ⟨m, fun _ _ => rfl, hplain⟩
    | some idx =>
      dsimp only
      obtain ⟨htake, hlt⟩ := takeWhile_eq_take hamp
      have hfront : idx = 0 → byteBefore lim m p = some b := by
        rintro rfl
        refine hb ?_
        have hfirst := (List.findIdx?_eq_some_iff_getElem.mp hamp).2.1
        rw [List.head?_eq_getElem?, List.getElem?_eq_getElem hlt]
        exact congrArg some (of_decide_eq_true hfirst)
      have hcell : idx < (b :: s).length := Nat.lt_succ_of_lt hlt
      rw [byteBefore_eq h hlt hfront, List.getElem?_eq_getElem hcell, Option.bind_eq_bind,
        Option.bind_some]
      by_cases hgt : (b :: s)[idx] = chr '>'
      · rw [hgt, if_neg (not_not.mpr rfl), if_neg (not_not.mpr rfl)]
        exact ⟨m, fun _ _ => rfl, hplain⟩
      · have hgt' : some (b :: s)[idx] ≠ some (chr '>') := fun heq => hgt (Option.some.inj heq)
        rw [if_pos hgt, if_pos hgt', parseBackAt_eq h hamp, parseBack, htake]
        refine ⟨Function.update m (p + idx) 0, fun k hk => ?_, ?_⟩
        · exact Function.update_of_ne (by omega) ..
        · rw [parseExecAt_eq (h.cut (Nat.le_of_lt hlt))]
          cases parseExec lim.toArrays env (s.take idx) <;> rfl

/-- A `&` that is the first byte of the string makes `parse_cmd` read the byte in
front of it. -/
theorem parseCmdAt_front (h : StringAt m p s) (hamp : s.head? = some (chr '&'))
    (hb : byteBefore lim m p = none) : parseCmdAt lim env m p = none := by
  cases s with
  | nil => cases hamp
  | cons a s =>
    have ha : a = chr '&' := Option.some.inj hamp
    rw [ha] at h
    have hat : blockContains (chr '&' :: s) (chr '&') = some 0 := blockContains_cons_self
    rw [parseCmdAt, h.strlen, Option.bind_eq_bind, Option.bind_some, Nat.add_sub_cancel_left,
      h.memread, if_neg (by rw [List.length_cons]; omega), hat]
    dsimp only
    rw [Nat.add_zero, hb]
    rfl

/-! ## `split_line` -/

variable {q : Nat} {t : List Byte} {z : Byte}

theorem Rest.head (h : Rest m q (z :: t)) : m q = z ∧ Rest m (q + 1) t := by
  have hin := h.inside
  rw [List.length_cons] at hin
  refine ⟨h.byte 0 (Nat.succ_pos _), by omega, fun k hk => ?_, fun k hk hlt => ?_⟩
  · have hbyte := h.byte (k + 1) (Nat.succ_lt_succ hk)
    rwa [← Nat.add_assoc, Nat.add_right_comm] at hbyte
  · refine h.fill k ?_ hlt
    rw [List.length_cons]
    omega

/-- The spaces in front of a segment are skipped. -/
theorem Rest.skip (h : Rest m q t) (hz : byteBefore lim m q = some z) :
    ∃ right, scan (· ≠ space) m q = some right ∧ q ≤ right ∧
      right + (t.dropWhile (· = space)).length = q + t.length ∧
      Rest m right (t.dropWhile (· = space)) ∧
      byteBefore lim m right = some (if t.head? = some space then space else z) := by
  have hne : (0 : Byte) ≠ space := by decide
  induction t generalizing q z with
  | nil =>
    have hq : q < buflen := h.inside
    have hzero : m q = 0 := h.fill q (Nat.le_refl _) hq
    refine ⟨q, ?_, Nat.le_refl _, rfl, h, hz⟩
    rw [scan, if_pos hq, hzero, if_pos (decide_eq_true hne)]
  | cons a t ih =>
    have hin := h.inside
    rw [List.length_cons] at hin
    obtain ⟨ha, hrest⟩ := h.head
    rw [scan, if_pos (by omega), ha]
    by_cases hspace : a = space
    · have hbefore : byteBefore lim m (q + 1) = some space := by
        rw [byteBefore, if_pos (by omega), ha, hspace]
      obtain ⟨right, hscan, hle, hlen, hright, hlast⟩ := ih hrest hbefore
      rw [hspace, if_neg (by decide), List.dropWhile_cons_of_pos (by decide), List.head?_cons,
        if_pos rfl]
      refine ⟨right, hscan, by omega, ?_, hright, ?_⟩
      · rw [hlen, List.length_cons]
        omega
      · rw [hlast]
        split <;> rfl
    · have hfirst : ¬ (a :: t).head? = some space := fun heq => hspace (Option.some.inj heq)
      rw [if_pos (decide_eq_true hspace), List.dropWhile_cons_of_neg (by simpa using hspace),
        if_neg hfirst]
      exact ⟨q, rfl, Nat.le_refl _, rfl, h, hz⟩

/-- The part of the line in front of the first splitter. -/
theorem scan_splitLine (h : Rest m p s) (splitter : Byte) :
    scan (fun b => b = splitter ∨ b = 0) m p = some (p + (splitLine ⟨b, s⟩ splitter).1.length) := by
  have hend : decide (m (p + s.length) = splitter ∨ m (p + s.length) = 0) = true :=
    decide_eq_true (.inr (h.fill _ (Nat.le_refl _) h.inside))
  have hpred : (fun b : Byte => !decide (b = splitter ∨ b = 0)) =
      fun b => decide (b ≠ splitter ∧ b ≠ 0) := by
    funext b
    rw [← decide_not]
    exact decide_eq_decide.mpr not_or
  rw [scan_takeWhile h.inside h.byte hend, hpred]
  rfl

theorem length_left (buf : Ptr) (splitter : Byte) :
    (splitLine buf splitter).1.length ≤ buf.bytes.length :=
  (List.takeWhile_prefix _).length_le

/-- What `split_line` cuts off lies in front of what it leaves, and it needs a cell
behind the line when it finds no splitter. -/
theorem splitLineAt_fits (h : Rest m p s) (b : Byte) {splitter : Byte}
    (hroom : p + s.length + 1 < buflen ∨ (splitLine ⟨b, s⟩ splitter).1 ≠ s) :
    ∃ m' right, splitLineAt m p splitter = some (m', right) ∧
      p + (splitLine ⟨b, s⟩ splitter).1.length < right ∧
      StringAt m' p (splitLine ⟨b, s⟩ splitter).1 ∧
      Rest m' right (splitLine ⟨b, s⟩ splitter).2.bytes ∧
      byteBefore lim m' right = some (splitLine ⟨b, s⟩ splitter).2.before ∧
      ((splitLine ⟨b, s⟩ splitter).2.more →
        right + (splitLine ⟨b, s⟩ splitter).2.bytes.length = p + s.length) ∧
      byteBefore lim m' p = byteBefore lim m p := by
  have hin := h.inside
  have hle : (splitLine ⟨b, s⟩ splitter).1.length ≤ s.length := length_left ⟨b, s⟩ splitter
  have hprefix : (splitLine ⟨b, s⟩ splitter).1 <+: s := List.takeWhile_prefix _
  generalize hleft : (splitLine ⟨b, s⟩ splitter).1 = left at hle hprefix hroom ⊢
  have hcell : p + left.length + 1 + (s.drop (left.length + 1)).length < buflen := by
    rw [List.length_drop]
    rcases Nat.lt_or_eq_of_le hle with hlt | heq
    · omega
    · rcases hroom with hroom | hne
      · omega
      · exact absurd (List.IsPrefix.eq_of_length hprefix heq) hne
  have hrest : Rest (Function.update m (p + left.length) 0) (p + left.length + 1)
      (s.drop (left.length + 1)) := by
    refine ⟨hcell, fun k hk => ?_, fun k hk hlt => ?_⟩
    · rw [List.length_drop] at hk
      have hbyte := h.byte (left.length + 1 + k) (by omega)
      rw [Function.update_of_ne (by omega), List.getElem_drop]
      rwa [← Nat.add_assoc, ← Nat.add_assoc] at hbyte
    · rw [List.length_drop] at hk
      rw [Function.update_of_ne (by omega)]
      exact h.fill k (by omega) hlt
  have hzero : byteBefore lim (Function.update m (p + left.length) 0) (p + left.length + 1) =
      some 0 := by
    rw [byteBefore, if_pos (by omega), Function.update_self]
  obtain ⟨right, hscan, hright, hlen, hbehind, hbefore⟩ := hrest.skip hzero
  have hrestBytes : (splitLine ⟨b, s⟩ splitter).2.bytes =
      (s.drop (left.length + 1)).dropWhile (· = space) := by
    rw [← hleft]
    rfl
  have hrestBefore : (splitLine ⟨b, s⟩ splitter).2.before =
      if (s.drop (left.length + 1)).head? = some space then space else 0 := by
    rw [← hleft]
    rfl
  refine ⟨Function.update m (p + left.length) 0, right, ?_, by omega, ⟨by omega, ?_, ?_, ?_⟩, ?_,
    ?_, ?_, ?_⟩
  · rw [splitLineAt, scan_splitLine (b := b) h, hleft, Option.bind_eq_bind, Option.bind_some,
      hscan, Option.bind_some]
  · intro k hk
    rw [Function.update_of_ne (by omega), h.byte k (by omega), hprefix.getElem hk]
  · exact Function.update_self ..
  · rw [← hleft]
    intro hmem
    have hkept := List.mem_takeWhile_imp hmem
    simp at hkept
  · rw [hrestBytes]
    exact hbehind
  · rw [hrestBefore]
    exact hbefore
  · intro hmore
    rw [hrestBytes, hlen, List.length_drop]
    have hlt : left.length < s.length := by
      refine Nat.lt_of_not_le fun hge => ?_
      rw [Ptr.more, hrestBytes, List.drop_eq_nil_of_le (by omega)] at hmore
      cases hmore
    omega
  · cases p with
    | zero => rfl
    | succ p =>
      rw [byteBefore, byteBefore, Function.update_of_ne (by omega)]

theorem splitLineAt_overrun (h : Rest m p s) {splitter : Byte}
    (hfull : p + s.length + 1 = buflen) (hleft : (splitLine ⟨b, s⟩ splitter).1 = s) :
    splitLineAt m p splitter = none := by
  rw [splitLineAt, scan_splitLine (b := b) h, hleft, Option.bind_eq_bind, Option.bind_some, hfull,
    scan, if_neg (Nat.lt_irrefl _)]
  rfl

/-! ## `parse_line` -/

/-- The last segment ends at the end of the line. -/
def ReachesEnd (buf : Ptr) : Prop :=
  (splitLine buf (chr '|')).1 = buf.bytes ∨
    if _h : (splitLine buf (chr '|')).2.more then ReachesEnd (splitLine buf (chr '|')).2 else False
termination_by buf.bytes.length
decreasing_by exact length_splitLine _h

theorem Rest.congr (h : Rest m q t) (hsame : ∀ k, q ≤ k → m' k = m k) : Rest m' q t where
  inside := h.inside
  byte := fun k hk => by
    rw [hsame _ (Nat.le_add_right q k)]
    exact h.byte k hk
  fill := fun k hk hlt => by
    rw [hsame k (by omega)]
    exact h.fill k hk hlt

theorem byteBefore_congr (hq : 0 < q) (hsame : ∀ k, q ≤ k + 1 → m' k = m k) :
    byteBefore lim m' q = byteBefore lim m q := by
  cases q with
  | zero => exact absurd hq (Nat.lt_irrefl 0)
  | succ q => rw [byteBefore, byteBefore, hsame q (Nat.le_refl _)]

/-- `right[0] != '\0'`. -/
theorem Rest.more_iff {buf : Ptr} (h : Rest m q buf.bytes) : m q ≠ 0 ↔ buf.more := by
  unfold Ptr.more
  cases hbytes : buf.bytes with
  | nil =>
    rw [hbytes] at h
    have hz : m q = 0 := h.fill q (Nat.le_refl _) h.inside
    rw [hz]
    simp
  | cons a t =>
    rw [hbytes] at h
    rw [h.head.1]
    simp

theorem parseLineAt_none (h : splitLineAt m p (chr '|') = none) :
    parseLineAt lim env m p = none := by
  rw [parseLineAt]
  split
  · rfl
  · rename_i hsome
    rw [h] at hsome
    cases hsome

/-- One call of `parse_line`. -/
theorem parseLineAt_step {right : Nat} (h : splitLineAt m p (chr '|') = some (m', right)) :
    parseLineAt lim env m p = (parseCmdAt lim env m' p).bind fun l =>
      if l.1 right ≠ 0 then
        (parseLineAt lim env l.1 right).map fun r => (r.1, pipeCmdCreate l.2 r.2)
      else some (l.1, pipeCmdCreate l.2 .null) := by
  rw [parseLineAt]
  split
  · rename_i hnone
    rw [h] at hnone
    cases hnone
  · rename_i m1 right1 hsome
    rw [h] at hsome
    cases hsome
    refine congrArg _ (funext fun l => ?_)
    dsimp only
    split
    · cases parseLineAt lim env l.1 right <;> rfl
    · rfl

/-- What one call of `parse_line` leaves to the next. -/
theorem parseLineAt_next {buf : Ptr} (env : Environ) (h : Rest m p buf.bytes)
    (hroom : p + buf.bytes.length + 1 < buflen ∨ (splitLine buf (chr '|')).1 ≠ buf.bytes)
    (hb : (splitLine buf (chr '|')).1.head? = some (chr '&') →
      byteBefore lim m p = some buf.before) :
    ∃ m' right, Rest m' right (splitLine buf (chr '|')).2.bytes ∧
      byteBefore lim m' right = some (splitLine buf (chr '|')).2.before ∧
      ((splitLine buf (chr '|')).2.more →
        right + (splitLine buf (chr '|')).2.bytes.length = p + buf.bytes.length) ∧
      parseLineAt lim env m p =
        (parseCmd lim.toArrays env buf.before (splitLine buf (chr '|')).1).bind fun l =>
          if (splitLine buf (chr '|')).2.more then
            (parseLineAt lim env m' right).map fun r => (r.1, pipeCmdCreate l r.2)
          else some (m', pipeCmdCreate l .null) := by
  obtain ⟨m1, right, hsplit, hlt, hleft, hrest, hbefore, hend, hfront⟩ :=
    splitLineAt_fits h buf.before hroom
  rw [← hfront] at hb
  obtain ⟨m2, hframe, hcmd⟩ := parseCmdAt_eq env hleft hb
  have hrest2 : Rest m2 right (splitLine buf (chr '|')).2.bytes :=
    hrest.congr fun k hk => hframe k (by omega)
  refine ⟨m2, right, hrest2, ?_, hend, ?_⟩
  · rw [byteBefore_congr (by omega) fun k hk => hframe k (by omega)]
    exact hbefore
  · rw [parseLineAt_step hsplit, hcmd, Option.bind_map]
    refine congrArg _ (funext fun l => ?_)
    exact if_congr hrest2.more_iff rfl rfl

/-- The parser in its buffer gives the tree of the line, when there is a cell behind the
line or it is not read to its end. -/
theorem parseLineAt_eq {buf : Ptr} (env : Environ) (h : Rest m p buf.bytes)
    (hroom : p + buf.bytes.length + 1 < buflen ∨ ¬ ReachesEnd buf)
    (hb : (splitLine buf (chr '|')).1.head? = some (chr '&') →
      byteBefore lim m p = some buf.before) :
    (parseLineAt lim env m p).map Prod.snd = parseLine lim.toArrays env buf := by
  induction buf using commands.induct generalizing m p with
  | case1 buf ih =>
    rw [ReachesEnd] at hroom
    have hsplit : p + buf.bytes.length + 1 < buflen ∨ (splitLine buf (chr '|')).1 ≠ buf.bytes :=
      hroom.imp_right fun hnot => fun heq => hnot (.inl heq)
    obtain ⟨m', right, hrest, hbefore, hend, hline⟩ := parseLineAt_next env h hsplit hb
    rw [hline, parseLine]
    cases parseCmd lim.toArrays env buf.before (splitLine buf (chr '|')).1 with
    | none => rfl
    | some l =>
      rw [Option.bind_some, Option.bind_eq_bind, Option.bind_some]
      by_cases hmore : (splitLine buf (chr '|')).2.more
      · rw [dif_pos hmore] at hroom
        have hroom' : right + (splitLine buf (chr '|')).2.bytes.length + 1 < buflen ∨
            ¬ ReachesEnd (splitLine buf (chr '|')).2 := by
          rw [hend hmore]
          exact hroom.imp_right fun hnot => fun hreach => hnot (.inr hreach)
        rw [if_pos hmore, dif_pos hmore, ← ih hmore hrest hroom' fun _ => hbefore]
        cases parseLineAt lim env m' right <;> rfl
      · rw [if_neg hmore, dif_neg hmore]
        rfl

/-- Otherwise it leaves the buffer. -/
theorem parseLineAt_overrun {buf : Ptr} (env : Environ) (h : Rest m p buf.bytes)
    (hb : (splitLine buf (chr '|')).1.head? = some (chr '&') →
      byteBefore lim m p = some buf.before)
    (hfull : p + buf.bytes.length + 1 = buflen) (hreach : ReachesEnd buf) :
    parseLineAt lim env m p = none := by
  induction buf using commands.induct generalizing m p with
  | case1 buf ih =>
    rw [ReachesEnd] at hreach
    by_cases hleft : (splitLine buf (chr '|')).1 = buf.bytes
    · exact parseLineAt_none (splitLineAt_overrun h hfull hleft)
    · obtain ⟨m', right, hrest, hbefore, hend, hline⟩ :=
        parseLineAt_next env h (.inr hleft) hb
      have hbehind := hreach.resolve_left hleft
      by_cases hmore : (splitLine buf (chr '|')).2.more
      · rw [dif_pos hmore] at hbehind
        rw [← hend hmore] at hfull
        rw [hline, ih hmore hrest (fun _ => hbefore) hfull hbehind]
        cases parseCmd lim.toArrays env buf.before (splitLine buf (chr '|')).1 with
        | none => rfl
        | some l => exact if_pos hmore
      · rw [dif_neg hmore] at hbehind
        exact absurd hbehind id

end Shell
end Sisop

import Sisop.Shell.InPlace

/-!
# Pipelines

A line without zeros whose segments are not empty is parsed to one leaf a segment,
nested to the right.  `read_line` leaves the zeros behind the line that the search
for the last segment relies on.
-/

namespace Sisop
namespace Shell

variable {lim : Limits} {arr : Arrays} {env : Environ} {m m' : Memory} {i : Nat} {b : Byte}
  {line rest seg first t : List Byte} {segs : List (List Byte)}

/-! ## The line that is read -/

/-- `read_line` stores the line and a zero behind it. -/
theorem readLine_line (hline : endLine ∉ line) (hlen : i + line.length < buflen) :
    ∃ m', readLine m i (line ++ endLine :: rest) = some (some m', rest) ∧
      (∀ k, k < i → m' k = m k) ∧ (∀ k (h : k < line.length), m' (i + k) = (line)[k]) ∧
      m' (i + line.length) = 0 ∧ ∀ k, i + line.length < k → m' k = m k := by
  induction line generalizing m i with
  | nil =>
    have hi : i < buflen := hlen
    rw [List.nil_append, readLine, if_pos hi, if_pos rfl]
    refine ⟨_, rfl, fun k hk => Function.update_of_ne (by omega) .., fun k hk => ?_,
      Function.update_self .., fun k hk => Function.update_of_ne (by simpa using Nat.ne_of_gt hk) ..⟩
    exact absurd hk (Nat.not_lt_zero k)
  | cons c line ih =>
    rw [List.length_cons] at hlen
    have hc : c ≠ endLine := fun heq => hline (heq ▸ List.mem_cons_self)
    have hrest : endLine ∉ line := fun hmem => hline (List.mem_cons_of_mem _ hmem)
    obtain ⟨m', hread, hbelow, hbyte, hzero, habove⟩ :=
      ih (m := Function.update m i c) (i := i + 1) hrest (by omega)
    have hend : i + 1 + line.length = i + (c :: line).length := by
      rw [List.length_cons]
      omega
    rw [hend] at hzero habove
    rw [List.cons_append, readLine, if_pos (by omega), if_neg hc]
    refine ⟨m', hread, fun k hk => ?_, fun k hk => ?_, hzero, fun k hk => ?_⟩
    · rw [hbelow k (by omega), Function.update_of_ne (by omega)]
    · cases k with
      | zero =>
        rw [Nat.add_zero, hbelow i (Nat.lt_succ_self i), Function.update_self]
        rfl
      | succ k =>
        rw [← Nat.add_assoc, Nat.add_right_comm, hbyte k (Nat.lt_of_succ_lt_succ hk)]
        rfl
    · rw [habove k hk, Function.update_of_ne (by omega)]

/-- A line that is too long is stored outside of the buffer. -/
theorem readLine_overflow (hline : endLine ∉ line) (hlen : buflen ≤ i + line.length) :
    readLine m i (line ++ endLine :: rest) = none := by
  induction line generalizing m i with
  | nil =>
    have hi : buflen ≤ i := hlen
    rw [List.nil_append, readLine, if_neg (by omega)]
  | cons c line ih =>
    rw [List.length_cons] at hlen
    have hc : c ≠ endLine := fun heq => hline (heq ▸ List.mem_cons_self)
    have hrest : endLine ∉ line := fun hmem => hline (List.mem_cons_of_mem _ hmem)
    rw [List.cons_append, readLine]
    by_cases hi : i < buflen
    · rw [if_pos hi, if_neg hc]
      exact ih hrest (by omega)
    · rw [if_neg hi]

/-- The buffer that `read_line` zeroes before it reads. -/
def zeroed : Memory := fun _ => 0

theorem rest_readLine (hline : endLine ∉ line) (hlen : line.length < buflen) :
    ∃ m, readLine zeroed 0 (line ++ endLine :: rest) = some (some m, rest) ∧ Rest m 0 line := by
  obtain ⟨m, hread, -, hbyte, hzero, habove⟩ :=
    @readLine_line zeroed 0 line rest hline (by omega)
  rw [Nat.zero_add] at hzero habove
  refine ⟨m, hread, by omega, hbyte, fun k hk _ => ?_⟩
  rw [Nat.zero_add] at hk
  rcases Nat.lt_or_eq_of_le hk with hlt | heq
  · rw [habove k hlt]
    rfl
  · rw [← heq]
    exact hzero

/-! ## The segments of a line -/

/-- `|`. -/
def bar : Byte := chr '|'

/-- A string is one segment, or a segment, a bar and more. -/
theorem splitOn_bar (line : List Byte) : bar ∉ line ∧ line.splitOn bar = [line] ∨
    ∃ w t, line = w ++ bar :: t ∧ bar ∉ w ∧ line.splitOn bar = w :: t.splitOn bar := by
  have hfree : ∀ w : List Byte, bar ∉ w → ∀ b ∈ w, (b == bar) = false := by
    intro w hw b hb
    rw [beq_eq_false_iff_ne]
    intro heq
    exact hw (heq ▸ hb)
  by_cases hmem : bar ∈ line
  · obtain ⟨w, t, hline, hw⟩ := List.eq_append_cons_of_mem hmem
    refine .inr ⟨w, t, hline, hw, ?_⟩
    rw [hline, List.splitOn_eq_splitOnP, List.splitOn_eq_splitOnP]
    exact List.splitOnP_append_cons_of_forall_mem (hfree w hw) bar (beq_self_eq_true bar) t
  · refine .inl ⟨hmem, ?_⟩
    rw [List.splitOn_eq_splitOnP]
    exact List.splitOnP_eq_singleton (hfree line hmem)

/-- Skipping spaces takes them off the first segment. -/
theorem splitOn_dropWhile (t : List Byte) : (t.dropWhile (· = space)).splitOn bar =
    (t.splitOn bar).modifyHead fun seg => seg.dropWhile (· = space) := by
  induction t with
  | nil => rfl
  | cons a t ih =>
    obtain ⟨first, segs, hsegs⟩ := List.exists_cons_of_ne_nil (List.splitOn_ne_nil bar t)
    rw [List.splitOn_cons_eq_if_modifyHead a t]
    by_cases hspace : a = space
    · have hbar : ¬ (space == bar) = true := by decide
      rw [hspace, List.dropWhile_cons_of_pos (by decide), ih, if_neg hbar, hsegs]
      rfl
    · rw [List.dropWhile_cons_of_neg (by simpa using hspace), List.splitOn_cons_eq_if_modifyHead]
      split
      · rfl
      · rw [hsegs, List.modifyHead_cons, List.modifyHead_cons,
          List.dropWhile_cons_of_neg (by simpa using hspace)]

theorem takeWhile_segment (hw : bar ∉ first) (h0 : 0 ∉ first) :
    first.takeWhile (fun b => decide (b ≠ bar ∧ b ≠ 0)) = first ∧
      (first ++ bar :: t).takeWhile (fun b => decide (b ≠ bar ∧ b ≠ 0)) = first := by
  have hall : ∀ a ∈ first, decide (a ≠ bar ∧ a ≠ 0) = true := by
    intro a ha
    exact decide_eq_true ⟨fun heq => hw (heq ▸ ha), fun heq => h0 (heq ▸ ha)⟩
  have hstop : ¬ decide (bar ≠ bar ∧ bar ≠ 0) = true := by decide
  refine ⟨List.takeWhile_eq_self_iff.mpr hall, ?_⟩
  rw [List.takeWhile_append_of_pos hall, List.takeWhile_cons, if_neg hstop, List.append_nil]

/-- `split_line` cuts at the bar. -/
theorem splitLine_bar (b : Byte) (hw : bar ∉ first) (h0 : 0 ∉ first) :
    splitLine ⟨b, first ++ bar :: t⟩ bar =
      (first, ⟨if t.head? = some space then space else 0, t.dropWhile (· = space)⟩) := by
  have hdrop : (first ++ bar :: t).drop (first.length + 1) = t := by
    rw [List.drop_append, List.drop_eq_nil_of_le (Nat.le_succ _), List.nil_append,
      Nat.add_sub_cancel_left]
    rfl
  unfold splitLine
  dsimp only
  rw [(takeWhile_segment hw h0).2, hdrop]

/-- Without a bar it goes to the end. -/
theorem splitLine_end (b : Byte) (hw : bar ∉ line) (h0 : 0 ∉ line) :
    splitLine ⟨b, line⟩ bar = (line, ⟨0, []⟩) := by
  unfold splitLine
  dsimp only
  rw [(takeWhile_segment (t := []) hw h0).1, List.drop_eq_nil_of_le (Nat.le_succ _)]
  rfl

/-! ## The tree of a line -/

/-- The pipeline of the commands, nested to the right. -/
def pipeTree : List Cmd → Cmd
  | [] => .null
  | [c] => c
  | c :: cs => .pipe c (pipeTree cs)

/-- `parse_cmd` only asks whether the byte in front of its string is a `>`. -/
theorem parseCmd_before {b : Byte} (hb : b ≠ chr '>') :
    parseCmd arr env b seg = parseCmd arr env 0 seg := by
  unfold parseCmd
  split
  · rfl
  · split
    · rename_i idx hidx
      cases idx with
      | zero =>
        have hzero : (0 : Byte) ≠ chr '>' := by decide
        rw [List.getElem?_cons_zero, List.getElem?_cons_zero,
          if_pos fun heq => hb (Option.some.inj heq), if_pos fun heq => hzero (Option.some.inj heq)]
      | succ idx => rfl
    · rfl

/-- The leaf of a segment, whose leading spaces are removed. -/
def IsLeaf (arr : Arrays) (env : Environ) (seg : List Byte) (leaf : Cmd) : Prop :=
  parseCmd arr env 0 (seg.dropWhile (· = space)) = some leaf

theorem dropWhile_space_idem :
    (seg.dropWhile (· = space)).dropWhile (· = space) = seg.dropWhile (· = space) := by
  induction seg with
  | nil => rfl
  | cons a seg ih =>
    by_cases ha : a = space
    · rw [ha, List.dropWhile_cons_of_pos (by decide)]
      exact ih
    · have hstop : ¬ decide (a = space) = true := by simpa using ha
      rw [List.dropWhile_cons, if_neg hstop, List.dropWhile_cons, if_neg hstop]

theorem pipeCmdCreate_pipeTree {leaf next : Cmd} {leaves : List Cmd} (h : next ≠ .null) :
    pipeCmdCreate leaf (pipeTree (next :: leaves)) = pipeTree (leaf :: next :: leaves) := by
  have hne : pipeTree (next :: leaves) ≠ .null := by
    cases leaves with
    | nil => exact h
    | cons c cs => exact fun heq => Cmd.noConfusion heq
  exact if_neg hne

theorem more_of_ne_nil (hne : seg ≠ []) (h0 : 0 ∉ seg) : Ptr.more ⟨b, seg⟩ = true := by
  cases seg with
  | nil => exact absurd rfl hne
  | cons a seg =>
    have ha : a ≠ 0 := fun heq => h0 (heq ▸ List.mem_cons_self)
    exact decide_eq_true ha

/-- The tree that the parser of strings gives is the pipeline of the segments. -/
theorem parseLine_pipeTree {tree : Cmd} (h0 : 0 ∉ line) (hsplit : line.splitOn bar = first :: segs)
    (hsegs : ∀ seg ∈ first :: segs, seg.dropWhile (· = space) ≠ [])
    (hparse : parseLine arr env ⟨b, line⟩ = some tree) :
    ∃ leaf leaves, parseCmd arr env b first = some leaf ∧
      List.Forall₂ (IsLeaf arr env) segs leaves ∧ tree = pipeTree (leaf :: leaves) := by
  induction segs generalizing b line first tree with
  | nil =>
    rcases splitOn_bar line with ⟨hbar, hone⟩ | ⟨w, t, -, -, hmore⟩
    · rw [hone] at hsplit
      cases hsplit
      obtain ⟨leaf, hleaf, ⟨hmore, -⟩ | ⟨-, rfl⟩⟩ := parseLine_cases hparse
      · have hend := splitLine_end b hbar h0
        unfold bar at hend
        rw [hend] at hmore
        exact absurd hmore Bool.false_ne_true
      · have hend := splitLine_end b hbar h0
        unfold bar at hend
        rw [hend] at hleaf
        exact ⟨tree, [], hleaf, .nil, rfl⟩
    · rw [hmore] at hsplit
      exact absurd (List.cons.inj hsplit).2 (List.splitOn_ne_nil bar t)
  | cons second segs ih =>
    rcases splitOn_bar line with ⟨-, hone⟩ | ⟨w, t, hline, hw, hmore⟩
    · rw [hone] at hsplit
      cases hsplit
    · rw [hmore] at hsplit
      obtain ⟨rfl, htail⟩ := List.cons.inj hsplit
      rw [hline, List.mem_append, List.mem_cons, not_or, not_or] at h0
      obtain ⟨hw0, -, ht0⟩ := h0
      have hsecond := hsegs second (List.mem_cons_of_mem _ List.mem_cons_self)
      have hrest0 : 0 ∉ t.dropWhile (· = space) :=
        fun hmem => ht0 ((List.dropWhile_suffix _).subset hmem)
      have hrestSplit : (t.dropWhile (· = space)).splitOn bar =
          second.dropWhile (· = space) :: segs := by
        rw [splitOn_dropWhile, htail]
        rfl
      have hrestSegs : ∀ seg ∈ second.dropWhile (· = space) :: segs,
          seg.dropWhile (· = space) ≠ [] := by
        intro seg hseg
        rcases List.mem_cons.mp hseg with rfl | hseg
        · rwa [dropWhile_space_idem]
        · exact hsegs seg (List.mem_cons_of_mem _ (List.mem_cons_of_mem _ hseg))
      have hmoreBytes : Ptr.more ⟨if t.head? = some space then space else 0,
          t.dropWhile (· = space)⟩ = true := by
        refine more_of_ne_nil (fun hnil => hsecond ?_) hrest0
        rw [hnil] at hrestSplit
        exact (List.cons.inj hrestSplit).1.symm
      have hcut := splitLine_bar (t := t) b hw hw0
      unfold bar at hcut
      rw [hline] at hparse
      obtain ⟨leaf, hleaf, ⟨-, r, hr, rfl⟩ | ⟨hlast, -⟩⟩ := parseLine_cases hparse
      · unfold bar at hleaf hr
        rw [hcut] at hleaf hr
        obtain ⟨leaf2, leaves, hparse2, hleaves, rfl⟩ := ih hrest0 hrestSplit hrestSegs hr
        have hisLeaf : IsLeaf arr env second leaf2 := by
          have hbefore : (if t.head? = some space then space else (0 : Byte)) ≠ chr '>' := by
            split <;> decide
          rw [IsLeaf, ← parseCmd_before hbefore]
          exact hparse2
        have hleaf2Null : leaf2 ≠ .null := fun heq => hsecond ((parseCmd_spec hparse2).1.mp heq)
        refine ⟨leaf, leaf2 :: leaves, hleaf, .cons hisLeaf hleaves, ?_⟩
        exact pipeCmdCreate_pipeTree hleaf2Null
      · unfold bar at hlast
        rw [hcut] at hlast
        exact absurd hmoreBytes hlast

/-! ## In the buffer -/

/-- `parse_line` returns the pipeline, nested to the right, whose leaves are those of
the segments in their order.  The first segment keeps its leading spaces, and has
`b` in front of it. -/
def ParsedAsPipeline (lim : Limits) (env : Environ) (b : Byte) (line : List Byte) : Prop :=
  ∃ m m' first segs leaf leaves,
    readLine zeroed 0 (line ++ [endLine]) = some (some m, []) ∧
    line.splitOn bar = first :: segs ∧
    parseCmd lim.toArrays env b first = some leaf ∧
    List.Forall₂ (IsLeaf lim.toArrays env) segs leaves ∧
    parseLineAt lim env m 0 = some (m', pipeTree (leaf :: leaves))

/-- The byte `b` lies in front of the buffer, and the arrays may have any size in which
the commands of the line fit. -/
theorem parseLineAt_pipeline (env : Environ) {b : Byte} (hfront : lim.front = some b)
    (hlen : line.length ≤ buflen - 2) (hline : endLine ∉ line) (h0 : 0 ∉ line)
    (hsegs : ∀ seg ∈ line.splitOn bar, seg.dropWhile (· = space) ≠ [])
    (hfit : LineCommandsFit lim.toArrays env ⟨b, line⟩) :
    ParsedAsPipeline lim env b line := by
  obtain ⟨first, segs, hsplit⟩ := List.exists_cons_of_ne_nil (List.splitOn_ne_nil bar line)
  rw [hsplit] at hsegs
  obtain ⟨tree, htree⟩ := Option.isSome_iff_exists.mp ((parseLine_isSome _).mpr hfit)
  obtain ⟨leaf, leaves, hleaf, hleaves, rfl⟩ := parseLine_pipeTree h0 hsplit hsegs htree
  have hroom : line.length + 1 < buflen := by
    unfold buflen at *
    omega
  obtain ⟨m, hread, hrest⟩ := @rest_readLine line [] hline (Nat.lt_of_succ_lt hroom)
  have hparse := @parseLineAt_eq lim m 0 ⟨b, line⟩ env hrest (.inl (by rwa [Nat.zero_add]))
    fun _ => hfront
  rw [htree, Option.map_eq_some_iff] at hparse
  obtain ⟨⟨m', tree'⟩, hparse, rfl⟩ := hparse
  exact ⟨m, m', first, segs, leaf, leaves, hread, hsplit, hleaf, hleaves, hparse⟩

/-- The arrays of the source, with a zero in front of the buffer. -/
def zeroInFront : Limits := ⟨sizes, some 0⟩

/-- `ls | wc`, whose second segment begins with a space. -/
theorem parseLineAt_lsWc : ParsedAsPipeline zeroInFront bare 0 lsWc.bytes :=
  parseLineAt_pipeline bare rfl (by decide) (by decide) (by decide) (by decide)
    lineCommandsFit_lsWc

theorem parseCmd_ne_pipe {l r : Cmd} (h : parseCmd arr env b seg = some (.pipe l r)) : False := by
  by_cases hne : seg = []
  · rw [parseCmd, if_pos hne] at h
    cases h
  · obtain ⟨c, -, htree | htree⟩ := parseCmd_cases hne h <;> cases htree

/-- `a`, a zero and `b`. -/
def zeroLine : List Byte := [chr 'a', 0, chr 'b']

/-- The parser of strings gives a pipeline for it. -/
theorem parseLine_zeroLine : ∃ l r,
    parseLine sizes bare ⟨0, zeroLine⟩ = some (.pipe (.exec l) (.exec r)) := by
  have hfirst : splitLine ⟨0, zeroLine⟩ bar = ([chr 'a'], ⟨0, [chr 'b']⟩) := by decide
  have hsecond : splitLine ⟨0, [chr 'b']⟩ bar = ([chr 'b'], ⟨0, []⟩) := by decide
  obtain ⟨l, -, hl⟩ := @parseExec_of_fits sizes bare [chr 'a'] (by decide)
  obtain ⟨r, -, hr⟩ := @parseExec_of_fits sizes bare [chr 'b'] (by decide)
  have hright : parseLine sizes bare ⟨0, [chr 'b']⟩ = some (.exec r) :=
    parseLine_last hsecond (by decide) hr
  exact ⟨l, r, parseLine_more hfirst (by decide) hl hright⟩

/-- A zero in the line cuts it like a bar: the tree of the one segment is a
pipeline of two commands. -/
theorem zero_cuts_line : zeroLine.length ≤ buflen - 2 ∧ endLine ∉ zeroLine ∧
    zeroLine.splitOn bar = [zeroLine] ∧
    (∀ seg ∈ zeroLine.splitOn bar, seg.dropWhile (· = space) ≠ []) ∧
    (∃ m m' l r, readLine zeroed 0 (zeroLine ++ [endLine]) = some (some m, []) ∧
      parseLineAt zeroInFront bare m 0 = some (m', .pipe l r)) ∧
    ¬ ParsedAsPipeline zeroInFront bare 0 zeroLine := by
  have hone : zeroLine.splitOn bar = [zeroLine] := by decide
  have hline : endLine ∉ zeroLine := by decide
  obtain ⟨m, hread, hrest⟩ := @rest_readLine zeroLine [] hline (by decide)
  obtain ⟨l, r, htree⟩ := parseLine_zeroLine
  have hparse := @parseLineAt_eq zeroInFront m 0 ⟨0, zeroLine⟩ bare hrest (.inl (by decide))
    fun _ => rfl
  have harrays : zeroInFront.toArrays = sizes := rfl
  rw [harrays, htree, Option.map_eq_some_iff] at hparse
  obtain ⟨⟨m', tree⟩, hparse, rfl⟩ := hparse
  refine ⟨by decide, hline, hone, by decide, ⟨m, m', _, _, hread, hparse⟩, ?_⟩
  rintro ⟨m2, m2', first, segs, leaf, leaves, hread2, hsplit, hleaf, hleaves, hparse2⟩
  rw [hread] at hread2
  cases hread2
  rw [hone] at hsplit
  cases hsplit
  cases hleaves
  rw [hparse] at hparse2
  obtain ⟨-, heq⟩ := Prod.mk.inj (Option.some.inj hparse2)
  have hleafTree : leaf = .pipe (.exec l) (.exec r) := heq.symm
  rw [hleafTree] at hleaf
  exact parseCmd_ne_pipe hleaf

end Shell
end Sisop

import Sisop.Shell.InPlace

/-!
# The arguments of a command

`parse_exec` with the cells of `argv` and the counter `argc`, which fill up with the
arguments of the command that the parser of strings gives.  An access outside of an
array is `none`.

In a command without operators and assignments every token is an argument: a
variable stands for its value, which is one argument however many spaces it has, and
`$?` for the status.  What is empty is left out.
-/

namespace Sisop
namespace Shell

/-- `argv`, where `none` is the null pointer, and `argc`. -/
structure Args where
  argv : Nat → Option (List Byte)
  argc : Nat

variable (env : Environ)

/-- `c->argv[argc++] = tok`. -/
def Args.push (a : Args) (tok : List Byte) : Option Args :=
  if a.argc < maxargs then some ⟨Function.update a.argv a.argc (some tok), a.argc + 1⟩ else none

/-- One turn of the loop of `parse_exec`, on the command without its arguments and on
the arguments. -/
def fillToken (p : ExecCmd × Args) (tok : List Byte) : Option (ExecCmd × Args) :=
  match parseRedirFlow p.1 tok with
  | some c => if c.NamesFit then some (c, p.2) else none
  | none =>
    match parseEnvironVar p.1 tok with
    | some c => if p.1.eargv.length < maxargs then some (c, p.2) else none
    | none => do
      let tok ← expandEnvironVar sizes env tok
      if tok ≠ [] then
        let a ← p.2.push tok
        some (p.1, a)
      else some p

/-- `parse_exec`.  The cells of `argv` are null at first. -/
def fillArgs (m : Memory) (p : Nat) : Option (ExecCmd × Args) := do
  let n ← scan (· = 0) m p
  let r ← walkTokens (fillToken env) m
    (execCmdCreate (CString.memread m p (n - p)), ⟨fun _ => none, 0⟩) p
  if r.2.argc < maxargs then
    some (r.1, { r.2 with argv := Function.update r.2.argv r.2.argc none })
  else none

/-! ## What the arguments are meant to be -/

/-- The arguments of a command string, each from one token. -/
def arguments (s : List Byte) : List (List Byte) :=
  ((tokens s).map (meaning env)).filter (· ≠ [])

/-- The command has exactly the arguments of the string, in their order, with a null
pointer behind them, and nothing else. -/
def FillsArgs (m : Memory) (p : Nat) (s : List Byte) : Prop :=
  ∃ a, fillArgs env m p = some (execCmdCreate s, a) ∧ a.argc = (arguments env s).length ∧
    (∀ i (h : i < (arguments env s).length), a.argv i = some (arguments env s)[i]) ∧
    a.argv a.argc = none

/-- The status fits in `status_str`, if it is asked for. -/
def StatusFits (s : List Byte) : Prop :=
  ∀ tok ∈ tokens s, [chr '$', chr '?'] <+: tok → (decimal env).length ≤ 3

instance (s : List Byte) : Decidable (StatusFits env s) :=
  inferInstanceAs (Decidable (∀ tok ∈ tokens s, _))

variable {env} {m : Memory} {p : Nat} {s tok : List Byte} {toks args : List (List Byte)}
  {c c' : ExecCmd}

/-! ## The cells of a command -/

/-- The arguments `args` in the cells, and null pointers behind them. -/
def Args.of (args : List (List Byte)) : Args := ⟨fun i => args[i]?, args.length⟩

theorem push_of (h : args.length < maxargs) :
    (Args.of args).push tok = some (Args.of (args ++ [tok])) := by
  have hcells : Function.update (fun i => args[i]?) args.length (some tok) =
      fun i => (args ++ [tok])[i]? := by
    funext i
    by_cases hi : i = args.length
    · rw [hi, Function.update_self, List.getElem?_concat_length]
    · rw [Function.update_of_ne hi]
      rcases Nat.lt_or_gt_of_ne hi with hlt | hgt
      · rw [List.getElem?_append_left hlt]
      · rw [List.getElem?_eq_none (by omega), List.getElem?_eq_none (by simp; omega)]
  unfold Args.push Args.of
  rw [if_pos h, hcells, List.length_append]
  rfl

/-- The command without its arguments, and the arguments in their cells. -/
def ExecCmd.cells (c : ExecCmd) : ExecCmd × Args := ({ c with argv := [] }, Args.of c.argv)

theorem cells_injective (h : c.cells = c'.cells) : c = c' := by
  obtain ⟨hrest, hargs⟩ := Prod.mk.inj h
  have hargv : c.argv = c'.argv :=
    List.ext_getElem? fun i => congrFun (congrArg Args.argv hargs) i
  cases c
  cases c'
  cases hargv
  cases hrest
  rfl

/-- A turn of the loop stores in the cells what it adds to the command. -/
theorem fillToken_cells (c : ExecCmd) (tok : List Byte) :
    fillToken env c.cells tok = (c.storeToken ⟨sizes, none⟩ env tok).map ExecCmd.cells := by
  have hflow : parseRedirFlow c.cells.1 tok =
      (parseRedirFlow c tok).map fun c' => { c' with argv := [] } := by
    unfold parseRedirFlow ExecCmd.cells
    cases blockContains tok (chr '>') with
    | none => cases blockContains tok (chr '<') <;> rfl
    | some idx =>
      match idx with
      | 0 => rfl
      | 1 => rfl
      | _ + 2 => rfl
  unfold fillToken
  rw [hflow]
  cases hredir : parseRedirFlow c tok with
  | some c' =>
    obtain ⟨hargv, -⟩ := parseRedirFlow_args hredir
    rw [ExecCmd.storeToken, hredir, Option.map_some]
    dsimp only
    have hcells : Args.of c.argv = Args.of c'.argv := by rw [hargv]
    by_cases hnames : c'.NamesFit
    · rw [if_pos hnames, Option.map_some, ExecCmd.cells, ExecCmd.cells, hcells]
      exact if_pos hnames
    · rw [if_neg hnames]
      exact if_neg hnames
  | none =>
    have hplain : ¬ IsRedirection tok := by
      rw [← parseRedirFlow_isSome (c := c), hredir]
      exact Bool.false_ne_true
    rw [ExecCmd.storeToken, hredir]
    dsimp only [Option.map_none]
    by_cases hassign : IsAssignment tok
    · obtain ⟨c', henv⟩ :=
        Option.isSome_iff_exists.mp ((parseEnvironVar_isSome (c := c.cells.1) hplain).mpr hassign)
      rw [henv, addToken_assignment hassign, parseEnvironVar_eq henv]
      by_cases hcell : c.eargv.length < maxargs
      · rw [if_pos (show sizes.HasCell c.eargv.length from fun k hk => by cases hk; exact hcell)]
        exact if_pos hcell
      · rw [if_neg fun h : sizes.HasCell c.eargv.length => hcell (h maxargs rfl)]
        exact if_neg hcell
    · have henv : parseEnvironVar c.cells.1 tok = none := by
        rw [← Option.not_isSome_iff_eq_none, parseEnvironVar_isSome hplain]
        exact hassign
      rw [henv, addToken_word hplain hassign]
      dsimp only
      cases expandEnvironVar sizes env tok with
      | none => rfl
      | some w =>
        rw [Option.bind_eq_bind, Option.bind_some, Option.bind_some]
        by_cases hnil : w = []
        · rw [if_neg (not_not.mpr hnil), if_neg (not_not.mpr hnil)]
          rfl
        · rw [if_pos hnil, if_pos hnil]
          by_cases hcell : c.argv.length < maxargs
          · rw [if_pos (show sizes.HasCell c.argv.length from fun k hk => by cases hk; exact hcell),
              ExecCmd.cells, push_of hcell]
            rfl
          · rw [if_neg fun h : sizes.HasCell c.argv.length => hcell (h maxargs rfl),
              ExecCmd.cells, Args.push]
            rw [if_neg (show ¬ (Args.of c.argv).argc < maxargs from hcell)]
            rfl

theorem foldlM_cells (toks : List (List Byte)) (c : ExecCmd) :
    toks.foldlM (fillToken env) c.cells =
      (toks.foldlM (ExecCmd.storeToken ⟨sizes, none⟩ env) c).map ExecCmd.cells := by
  induction toks generalizing c with
  | nil => rfl
  | cons tok toks ih =>
    rw [List.foldlM_cons, List.foldlM_cons, fillToken_cells]
    cases c.storeToken ⟨sizes, none⟩ env tok with
    | none => rfl
    | some c' => exact ih c'

theorem fillToken_nil (r : ExecCmd × Args) : fillToken env r [] = some r := by
  simp [fillToken, parseRedirFlow, parseEnvironVar, blockContains, expandEnvironVar]

/-- The null pointer is in its cell already. -/
theorem cells_null (args : List (List Byte)) :
    Function.update (Args.of args).argv (Args.of args).argc none = (Args.of args).argv := by
  refine Function.update_eq_self_iff.mpr ?_
  exact (List.getElem?_eq_none (Nat.le_refl _)).symm

/-- `parse_exec` fills the cells of `argv` with the arguments of the command that the
parser of strings gives. -/
theorem fillArgs_cells (h : StringAt m p s) : fillArgs env m p =
    (parsedTokens sizes env s (tokens s)).bind fun c =>
      if sizes.HasCell c.argv.length then some c.cells else none := by
  have hstart : (execCmdCreate s, (⟨fun _ => none, 0⟩ : Args)) = (execCmdCreate s).cells := rfl
  unfold fillArgs parsedTokens
  rw [h.strlen, Option.bind_eq_bind, Option.bind_some, Nat.add_sub_cancel_left, h.memread,
    walkTokens_eq fillToken_nil h, hstart, foldlM_cells,
    foldlM_storeToken namesFit_execCmdCreate h.length_token, Option.bind_eq_bind, Option.bind_map]
  refine congrArg _ (funext fun c => ?_)
  dsimp only [Function.comp]
  have hcell : sizes.HasCell c.argv.length ↔ c.cells.2.argc < maxargs :=
    ⟨fun hc => hc maxargs rfl, fun hc k hk => by cases hk; exact hc⟩
  have hnull : { c.cells.2 with argv := Function.update c.cells.2.argv c.cells.2.argc none } =
      c.cells.2 := congrArg (fun argv => Args.mk argv c.argv.length) (cells_null c.argv)
  rw [hnull]
  exact if_congr hcell.symm rfl rfl

/-- The two descriptions of `parse_exec` agree. -/
theorem fillArgs_iff (h : StringAt m p s) :
    fillArgs env m p = some c.cells ↔ parseExec sizes env s = some (.exec c) := by
  rw [fillArgs_cells h, parseExec_eq, Option.bind_eq_some_iff, Option.bind_eq_some_iff]
  refine exists_congr fun c' => and_congr_right fun _ => ?_
  by_cases hcell : sizes.HasCell c'.argv.length
  · rw [if_pos hcell, if_pos hcell]
    constructor
    · intro heq
      rw [cells_injective (Option.some.inj heq)]
    · intro heq
      cases heq
      rfl
  · rw [if_neg hcell, if_neg hcell]
    exact iff_of_false (fun heq => by cases heq) fun heq => by cases heq

/-! ## Commands without operators and assignments -/

/-- A token without operators and without `=` is an argument, if anything is left of
it. -/
theorem addToken_plain (hout : chr '>' ∉ tok) (hin : chr '<' ∉ tok) (heq : chr '=' ∉ tok)
    (hroom : c.argv.length < maxargs) :
    c.addToken sizes env tok =
      if [chr '$', chr '?'] <+: tok → (decimal env).length ≤ 3 then
        some { c with argv := c.argv ++ [meaning env tok].filter (· ≠ []) }
      else none := by
  have hfits : ([chr '$', chr '?'] <+: tok → sizes.HoldsStatus (decimal env)) ↔
      ([chr '$', chr '?'] <+: tok → (decimal env).length ≤ 3) := by
    refine imp_congr_right fun _ => ⟨fun h => Nat.le_of_succ_le_succ (h statusStrSize rfl), ?_⟩
    intro h k hk
    cases hk
    exact Nat.succ_le_succ h
  have hcell : sizes.HasCell c.argv.length := fun k hk => by
    cases hk
    exact hroom
  rw [addToken_word (not_or.mpr ⟨hout, hin⟩) fun hassign => heq hassign.2.1, expandEnvironVar_eq]
  by_cases hstatus : [chr '$', chr '?'] <+: tok → (decimal env).length ≤ 3
  · rw [if_pos (hfits.mpr hstatus), if_pos hstatus, Option.bind_some]
    by_cases hnil : meaning env tok = []
    · rw [if_neg (not_not.mpr hnil), List.filter_cons_of_neg (by simpa using hnil), List.filter_nil,
        List.append_nil]
    · rw [if_pos hnil, if_pos hcell, List.filter_cons_of_pos (by simpa using hnil),
        List.filter_nil]
  · rw [if_neg fun h => hstatus (hfits.mp h), if_neg hstatus]
    rfl

/-- Tokens that are arguments fill the cells, unless one of them is a status that does
not fit. -/
theorem foldlM_plain (hplain : ∀ tok ∈ toks, chr '>' ∉ tok ∧ chr '<' ∉ tok ∧ chr '=' ∉ tok)
    (hroom : c.argv.length + toks.length < maxargs) :
    toks.foldlM (ExecCmd.addToken sizes env) c =
      if ∀ tok ∈ toks, [chr '$', chr '?'] <+: tok → (decimal env).length ≤ 3 then
        some { c with argv := c.argv ++ (toks.map (meaning env)).filter (· ≠ []) }
      else none := by
  induction toks generalizing c with
  | nil =>
    rw [if_pos fun tok h => absurd h List.not_mem_nil, List.map_nil, List.filter_nil,
      List.append_nil]
    rfl
  | cons tok toks ih =>
    rw [List.length_cons] at hroom
    obtain ⟨⟨hout, hin, heq⟩, hrest⟩ := List.forall_mem_cons.mp hplain
    rw [List.foldlM_cons, addToken_plain hout hin heq (by omega), List.map_cons]
    by_cases hfits : [chr '$', chr '?'] <+: tok → (decimal env).length ≤ 3
    · have hlen : (c.argv ++ [meaning env tok].filter (· ≠ [])).length + toks.length < maxargs := by
        have hle := List.length_filter_le (fun w => decide (w ≠ [])) [meaning env tok]
        rw [List.length_singleton] at hle
        rw [List.length_append]
        omega
      have hsplit : (meaning env tok :: toks.map (meaning env)).filter (· ≠ []) =
          [meaning env tok].filter (· ≠ []) ++ (toks.map (meaning env)).filter (· ≠ []) := by
        rw [← List.filter_append]
        rfl
      rw [if_pos hfits, Option.bind_eq_bind, Option.bind_some, ih hrest hlen, hsplit]
      dsimp only
      rw [List.append_assoc]
      by_cases hall : ∀ tok ∈ toks, [chr '$', chr '?'] <+: tok → (decimal env).length ≤ 3
      · rw [if_pos hall, if_pos (List.forall_mem_cons.mpr ⟨hfits, hall⟩)]
      · rw [if_neg hall, if_neg fun h => hall (List.forall_mem_cons.mp h).2]
    · rw [if_neg hfits, if_neg fun h => hfits (h tok List.mem_cons_self)]
      rfl

theorem fillArgs_eq (h : StringAt m p s) (hout : chr '>' ∉ s) (hin : chr '<' ∉ s)
    (heq : chr '=' ∉ s) (hmany : (tokens s).length < maxargs) :
    fillArgs env m p = if StatusFits env s then
      some (execCmdCreate s, Args.of (arguments env s)) else none := by
  have hplain : ∀ tok ∈ tokens s, chr '>' ∉ tok ∧ chr '<' ∉ tok ∧ chr '=' ∉ tok := by
    intro tok htok
    have hsub := (infix_of_mem_tokens htok).subset
    exact ⟨fun hb => hout (hsub hb), fun hb => hin (hsub hb), fun hb => heq (hsub hb)⟩
  have hfold := @foldlM_plain env (tokens s) (execCmdCreate s) hplain
    (by rw [execCmdCreate, List.length_nil]; omega)
  have hlen : (arguments env s).length ≤ (tokens s).length := by
    unfold arguments
    exact Nat.le_trans (List.length_filter_le _ _) (Nat.le_of_eq (List.length_map _))
  rw [fillArgs_cells h, parsedTokens, hfold]
  by_cases hfits : StatusFits env s
  · have hroom : sizes.HasCell (arguments env s).length := fun k hk => by
      cases hk
      exact Nat.lt_of_le_of_lt hlen hmany
    have hall : ∀ tok ∈ tokens s, [chr '$', chr '?'] <+: tok → (decimal env).length ≤ 3 := hfits
    rw [if_pos hall, if_pos hfits, Option.bind_some]
    exact if_pos hroom
  · have hnot : ¬ ∀ tok ∈ tokens s, [chr '$', chr '?'] <+: tok → (decimal env).length ≤ 3 := hfits
    rw [if_neg hnot, if_neg hfits]
    rfl

/-- The arguments are right exactly when the status fits, if it is asked for. -/
theorem fillsArgs_iff (env : Environ) (h : StringAt m p s) (hout : chr '>' ∉ s) (hin : chr '<' ∉ s)
    (heq : chr '=' ∉ s) (hmany : (tokens s).length ≤ maxargs - 1) :
    FillsArgs env m p s ↔ StatusFits env s := by
  have hmax : maxargs = 20 := rfl
  have hfill := @fillArgs_eq env m p s h hout hin heq (by omega)
  constructor
  · rintro ⟨a, ha, -⟩
    by_contra hnot
    rw [hfill, if_neg hnot] at ha
    cases ha
  · intro hfits
    refine ⟨Args.of (arguments env s), by rw [hfill, if_pos hfits], rfl, fun i hi => ?_, ?_⟩
    · exact List.getElem?_eq_getElem hi
    · exact List.getElem?_eq_none (Nat.le_refl _)

/-! ## A command in the buffer -/

/-- A command at the beginning of the buffer, with zeros behind it. -/
theorem stringAt_buffer (hlen : s.length < buflen) (hzero : 0 ∉ s) :
    StringAt (fun i => s[i]?.getD 0) 0 s where
  inside := by
    rw [Nat.zero_add]
    exact hlen
  byte := fun k hk => by
    rw [Nat.zero_add, List.getElem?_eq_getElem hk]
    rfl
  zero := by
    rw [Nat.zero_add, List.getElem?_eq_none (Nat.le_refl _)]
    rfl
  string := hzero

/-- `USER` is `a b`, and nothing else is set. -/
def userOnly (status : Int) : Environ where
  getenv name := if name = ['U', 'S', 'E', 'R'].map chr then some (['a', ' ', 'b'].map chr)
    else none
  status := status

/-- `echo  $USER $X $?`. -/
def echoUser : List Byte :=
  ['e', 'c', 'h', 'o', ' ', ' ', '$', 'U', 'S', 'E', 'R', ' ', '$', 'X', ' ', '$', '?'].map chr

theorem fillsArgs_echoUser : StatusFits (userOnly 127) echoUser ∧
    arguments (userOnly 127) echoUser = [['e', 'c', 'h', 'o'].map chr, ['a', ' ', 'b'].map chr,
      ['1', '2', '7'].map chr] ∧
    FillsArgs (userOnly 127) (fun i => echoUser[i]?.getD 0) 0 echoUser := by
  have hstring := @stringAt_buffer echoUser (by decide) (by decide)
  exact ⟨by decide, by decide,
    (fillsArgs_iff (userOnly 127) hstring (by decide) (by decide) (by decide) (by decide)).mpr
      (by decide)⟩

/-- A background process that exits with 4 leaves its wait status 1024 in `status`,
and `echo $?` prints it over the end of `status_str`. -/
theorem status_overruns : ¬ ∀ (env : Environ) (m : Memory) (p : Nat) (s : List Byte),
    StringAt m p s → chr '>' ∉ s → chr '<' ∉ s → chr '=' ∉ s → chr '&' ∉ s → chr '|' ∉ s →
    (tokens s).length ≤ maxargs - 1 → FillsArgs env m p s := by
  intro hall
  have hstring := @stringAt_buffer echoUser (by decide) (by decide)
  obtain ⟨a, ha, -⟩ := hall (userOnly 1024) _ 0 echoUser hstring (by decide) (by decide)
    (by decide) (by decide) (by decide) (by decide)
  rw [fillArgs_eq hstring (by decide) (by decide) (by decide) (by decide),
    if_neg (by decide)] at ha
  cases ha

end Shell
end Sisop

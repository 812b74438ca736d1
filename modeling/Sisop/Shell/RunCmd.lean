import Mathlib.Data.List.Chain
import Sisop.Shell.Capacity

/-!
# Running a line

`runCmd` parses a line, forks a child that walks the tree with `execCmd`, and
walks it itself to print the status and to free it.  None of the walkers expects
a null child.  The parser leaves one where a pipeline has an empty segment in
front of a segment that is not empty, and it gives no tree at all when every
segment is empty.  It runs in the shell process, and so it is the shell that writes
behind the end of an array when a command does not fit.
-/

namespace Sisop
namespace Shell

/-- `free_command`. -/
def freeCommand : Cmd → Option Unit
  | .null => none
  | .exec _ => some ()
  | .back _ c => freeCommand c
  | .pipe leftcmd rightcmd => do
    freeCommand leftcmd
    freeCommand rightcmd

/-- The commands that the processes of `exec_cmd` execute.  A process that
executes a pipeline frees `parsedPipe` when its children are done. -/
def execCmd (parsedPipe : Cmd) : Cmd → Option (List ExecCmd)
  | .null => none
  | .exec c => some [c]
  | .back _ c => execCmd parsedPipe c
  | .pipe leftcmd rightcmd => do
    let left ← execCmd parsedPipe leftcmd
    let right ← execCmd parsedPipe rightcmd
    freeCommand parsedPipe
    some (left ++ right)

/-- What `print_status_info` reads: `none` when it prints nothing. -/
def printStatusInfo (cmd : Cmd) : Option (Option (List Byte)) := do
  let scmd ← cmd.scmd
  let type ← cmd.type
  some (if scmd = [] ∨ type = .pipe then none else some scmd)

/-- `streqword`. -/
def streqword (cmd word : List Byte) : Prop :=
  word.isPrefixOf cmd ∧ ((cmd.drop word.length).head?.getD 0 = space ∨
    (cmd.drop word.length).head?.getD 0 = 0)

instance (cmd word : List Byte) : Decidable (streqword cmd word) :=
  inferInstanceAs (Decidable (_ ∧ _))

def cd (cmd : List Byte) : Prop := streqword cmd [chr 'c', chr 'd']

def exitShell (cmd : List Byte) : Prop := streqword cmd [chr 'e', chr 'x', chr 'i', chr 't']

def pwd (cmd : List Byte) : Prop := streqword cmd [chr 'p', chr 'w', chr 'd']

instance (cmd : List Byte) : Decidable (cd cmd) := inferInstanceAs (Decidable (streqword ..))
instance (cmd : List Byte) : Decidable (exitShell cmd) :=
  inferInstanceAs (Decidable (streqword ..))
instance (cmd : List Byte) : Decidable (pwd cmd) := inferInstanceAs (Decidable (streqword ..))

/-- The line runs a command: it is not empty and no builtin. -/
def RunsCommand (line : List Byte) : Prop :=
  line.head?.getD 0 ≠ 0 ∧ ¬ cd line ∧ ¬ exitShell line ∧ ¬ pwd line

instance (line : List Byte) : Decidable (RunsCommand line) :=
  inferInstanceAs (Decidable (_ ∧ _))

inductive Ran
  | prompt
  | exit
  deriving DecidableEq, Repr

variable (env : Environ)

/-- `run_cmd` in the shell process. -/
def runCmd (cmd : Ptr) : Option Ran :=
  if cmd.bytes.head?.getD 0 = 0 then some .prompt
  else if cd cmd.bytes then some .prompt
  else if exitShell cmd.bytes then some .exit
  else if pwd cmd.bytes then some .prompt
  else do
    let parsed ← parseLine sizes env cmd
    let type ← parsed.type
    if type ≠ .back then
      let _ ← printStatusInfo parsed
    freeCommand parsed
    some .prompt

/-! ## Trees without null children -/

/-- Neither the command nor a child below it is null. -/
def Cmd.Complete : Cmd → Prop
  | .null => False
  | .exec _ => True
  | .back _ c => c.Complete
  | .pipe leftcmd rightcmd => leftcmd.Complete ∧ rightcmd.Complete

theorem freeCommand_iff {c : Cmd} : freeCommand c = some () ↔ c.Complete := by
  induction c with
  | null => simp [freeCommand, Cmd.Complete]
  | exec c => simp [freeCommand, Cmd.Complete]
  | back scmd c ih => simpa [freeCommand, Cmd.Complete] using ih
  | pipe leftcmd rightcmd ihl ihr =>
    rw [freeCommand, Cmd.Complete, ← ihl, ← ihr]
    cases freeCommand leftcmd <;> simp

/-- Every process of a complete tree gets to its command. -/
theorem execCmd_complete {root c : Cmd} (hroot : root.Complete) (h : c.Complete) :
    ∃ l, execCmd root c = some l := by
  induction c with
  | null => exact absurd h id
  | exec c => exact ⟨[c], rfl⟩
  | back scmd c ih => exact ih h
  | pipe leftcmd rightcmd ihl ihr =>
    obtain ⟨l, hl⟩ := ihl h.1
    obtain ⟨r, hr⟩ := ihr h.2
    refine ⟨l ++ r, ?_⟩
    simp [execCmd, hl, hr, freeCommand_iff.mpr hroot]

theorem printStatusInfo_complete {c : Cmd} (h : c.Complete) :
    ∃ s, printStatusInfo c = some s := by
  cases c with
  | null => exact absurd h id
  | exec c => exact ⟨_, rfl⟩
  | back scmd c => exact ⟨_, rfl⟩
  | pipe leftcmd rightcmd => exact ⟨_, rfl⟩

/-! ## Segments -/

/-- The segments that `parse_line` parses one after the other. -/
def segments (buf : Ptr) : List (List Byte) :=
  (splitLine buf (chr '|')).1 ::
    if _h : (splitLine buf (chr '|')).2.more then segments (splitLine buf (chr '|')).2 else []
termination_by buf.bytes.length
decreasing_by exact length_splitLine _h

/-- The first segment is not empty, and an empty segment is followed by empty
segments only. -/
def NoHole (segs : List (List Byte)) : Prop :=
  segs.head? ≠ some [] ∧ segs.IsChain fun s t => s = [] → t = []

theorem eq_nil_of_chain {segs : List (List Byte)}
    (h : segs.IsChain fun s t => s = [] → t = []) (hhead : segs.head? = some []) :
    ∀ s ∈ segs, s = [] := by
  induction segs with
  | nil => cases hhead
  | cons s segs ih =>
    obtain rfl : s = [] := Option.some.inj hhead
    intro t ht
    rcases List.mem_cons.mp ht with rfl | ht
    · rfl
    · cases segs with
      | nil => cases ht
      | cons u segs =>
        rw [List.isChain_cons_cons] at h
        exact ih h.2 (by rw [List.head?_cons, h.1 rfl]) t ht

theorem chain_of_eq_nil {segs : List (List Byte)} (h : ∀ s ∈ segs, s = []) :
    segs.IsChain fun s t => s = [] → t = [] := by
  induction segs with
  | nil => exact .nil
  | cons s segs ih =>
    have hrest := ih fun t ht => h t (List.mem_cons_of_mem _ ht)
    cases segs with
    | nil => exact .singleton s
    | cons t segs =>
      rw [List.isChain_cons_cons]
      exact ⟨fun _ => h t (List.mem_cons_of_mem _ List.mem_cons_self), hrest⟩

theorem noHole_singleton {s : List Byte} : NoHole [s] ↔ s ≠ [] := by
  simp [NoHole]

/-- In front of segments that are all empty a segment must not be empty itself. -/
theorem noHole_cons_empty {s : List Byte} {segs : List (List Byte)} (h : ∀ t ∈ segs, t = []) :
    NoHole (s :: segs) ↔ s ≠ [] := by
  constructor
  · rintro ⟨hhead, -⟩ rfl
    exact hhead rfl
  · intro hs
    refine ⟨fun hhead => hs (Option.some.inj hhead), ?_⟩
    cases segs with
    | nil => exact .singleton s
    | cons t segs =>
      rw [List.isChain_cons_cons]
      exact ⟨fun hnil => absurd hnil hs, chain_of_eq_nil h⟩

/-- In front of a segment that is not empty there is no empty one. -/
theorem noHole_cons {s : List Byte} {segs : List (List Byte)} (h : ¬ ∀ t ∈ segs, t = []) :
    NoHole (s :: segs) ↔ s ≠ [] ∧ NoHole segs := by
  cases segs with
  | nil => exact absurd (fun t ht => by cases ht) h
  | cons t segs =>
    unfold NoHole
    rw [List.isChain_cons_cons]
    constructor
    · rintro ⟨hhead, -, hchain⟩
      have hs : s ≠ [] := fun hnil => hhead (by rw [List.head?_cons, hnil])
      exact ⟨hs, fun hnil => h (eq_nil_of_chain hchain hnil), hchain⟩
    · rintro ⟨hs, -, hchain⟩
      exact ⟨fun hhead => hs (Option.some.inj hhead), fun hnil => absurd hnil hs, hchain⟩

/-! ## What the parser gives -/

variable {arr : Arrays} {env}

/-- A segment gives a command, and an empty one a null pointer. -/
theorem parseCmd_spec {before : Byte} {s : List Byte} {c : Cmd}
    (h : parseCmd arr env before s = some c) : (c = .null ↔ s = []) ∧ (c.Complete ↔ s ≠ []) := by
  by_cases hs : s = []
  · rw [parseCmd, if_pos hs] at h
    cases h
    exact ⟨iff_of_true rfl hs, iff_of_false id fun hne => hne hs⟩
  · obtain ⟨e, -, rfl | rfl⟩ := parseCmd_cases hs h
    · exact ⟨iff_of_false (fun hnull => by cases hnull) hs, iff_of_true trivial hs⟩
    · exact ⟨iff_of_false (fun hnull => by cases hnull) hs, iff_of_true trivial hs⟩

/-- The tree of a line is the command of its first segment in front of the tree of the
others. -/
theorem parseLine_cases {buf : Ptr} {c : Cmd} (h : parseLine arr env buf = some c) :
    ∃ l, parseCmd arr env buf.before (splitLine buf (chr '|')).1 = some l ∧
      ((splitLine buf (chr '|')).2.more ∧ (∃ r,
        parseLine arr env (splitLine buf (chr '|')).2 = some r ∧ c = pipeCmdCreate l r) ∨
        ¬ (splitLine buf (chr '|')).2.more ∧ c = l) := by
  rw [parseLine, Option.bind_eq_bind, Option.bind_eq_some_iff] at h
  obtain ⟨l, hl, h⟩ := h
  refine ⟨l, hl, ?_⟩
  split at h
  · rw [Option.bind_eq_some_iff] at h
    obtain ⟨r, hr, h⟩ := h
    exact .inl ⟨‹_›, r, hr, (Option.some.inj h).symm⟩
  · exact .inr ⟨‹_›, (Option.some.inj h).symm⟩

/-- The tree is null when every segment is empty, and complete when the segments
have no hole. -/
theorem parseLine_spec {buf : Ptr} {c : Cmd} (h : parseLine arr env buf = some c) :
    (c = .null ↔ ∀ s ∈ segments buf, s = []) ∧ (c.Complete ↔ NoHole (segments buf)) := by
  induction buf using segments.induct generalizing c with
  | case1 buf ih =>
    obtain ⟨l, hl, ⟨hmore, r, hr, rfl⟩ | ⟨hlast, rfl⟩⟩ := parseLine_cases h
    · obtain ⟨hlnull, hlcomplete⟩ := parseCmd_spec hl
      obtain ⟨hrnull, hrcomplete⟩ := ih hmore hr
      rw [segments, dif_pos hmore]
      refine ⟨?_, ?_⟩
      · rw [List.forall_mem_cons, ← hlnull, ← hrnull]
        unfold pipeCmdCreate
        split
        · rename_i hnull
          simp [hnull]
        · rename_i hnull
          simp [hnull]
      · unfold pipeCmdCreate
        split
        · rename_i hnull
          rw [noHole_cons_empty (hrnull.mp hnull), hlcomplete]
        · rename_i hnull
          rw [noHole_cons (fun hall => hnull (hrnull.mpr hall)), ← hlcomplete, ← hrcomplete]
          rfl
    · obtain ⟨hnull, hcomplete⟩ := parseCmd_spec hl
      rw [segments, dif_neg hlast]
      exact ⟨by simpa using hnull, by rw [hcomplete, noHole_singleton]⟩

/-! ## Lines the shell survives -/

/-- The tree of the line has no null pointer in it, every walker gets through it,
and the shell prompts again. -/
structure Survives (env : Environ) (line : Ptr) : Prop where
  tree : ∃ c, parseLine sizes env line = some c ∧ c.Complete ∧ (∃ l, execCmd c c = some l) ∧
    ∃ s, printStatusInfo c = some s
  prompts : runCmd env line = some .prompt

theorem runCmd_complete {line : Ptr} {c : Cmd} (h : RunsCommand line.bytes)
    (hparse : parseLine sizes env line = some c) (hc : c.Complete) :
    runCmd env line = some .prompt := by
  obtain ⟨hne, hcd, hexit, hpwd⟩ := h
  obtain ⟨s, hs⟩ := printStatusInfo_complete hc
  rw [runCmd, if_neg hne, if_neg hcd, if_neg hexit, if_neg hpwd, hparse]
  cases c with
  | null => exact absurd hc id
  | exec c => simp [Cmd.type, hs, freeCommand_iff.mpr hc]
  | back scmd c => simp [Cmd.type, freeCommand_iff.mpr hc]
  | pipe leftcmd rightcmd => simp [Cmd.type, hs, freeCommand_iff.mpr hc]

/-- `run_cmd` gets through exactly the lines without a hole whose commands fit in their
arrays. -/
theorem runCmd_prompts_iff (env : Environ) {line : Ptr} (h : RunsCommand line.bytes) :
    runCmd env line = some .prompt ↔
      NoHole (segments line) ∧ LineCommandsFit sizes env line := by
  rw [← parseLine_isSome]
  constructor
  · obtain ⟨hne, hcd, hexit, hpwd⟩ := h
    intro hrun
    rw [runCmd, if_neg hne, if_neg hcd, if_neg hexit, if_neg hpwd, Option.bind_eq_bind,
      Option.bind_eq_some_iff] at hrun
    obtain ⟨c, hparse, hrun⟩ := hrun
    refine ⟨(parseLine_spec hparse).2.mp ?_, Option.isSome_of_eq_some hparse⟩
    rw [← freeCommand_iff]
    cases hfree : freeCommand c with
    | some u => rfl
    | none =>
      rw [hfree] at hrun
      simp at hrun
  · rintro ⟨hhole, hfits⟩
    obtain ⟨c, hparse⟩ := Option.isSome_iff_exists.mp hfits
    exact runCmd_complete h hparse ((parseLine_spec hparse).2.mpr hhole)

/-- `ls | wc` -/
def lsWc : Ptr := ⟨0, [chr 'l', chr 's', space, chr '|', space, chr 'w', chr 'c']⟩

theorem commands_lsWc : commands lsWc =
    [⟨0, [chr 'l', chr 's', space]⟩, ⟨space, [chr 'w', chr 'c']⟩] := by
  have hfirst : splitLine lsWc (chr '|') =
      ([chr 'l', chr 's', space], ⟨space, [chr 'w', chr 'c']⟩) := by decide
  have hsecond : splitLine ⟨space, [chr 'w', chr 'c']⟩ (chr '|') =
      ([chr 'w', chr 'c'], ⟨0, []⟩) := by decide
  rw [commands, hfirst, dif_pos (by decide), commands, hsecond, dif_neg (by decide)]
  rfl

theorem lineCommandsFit_lsWc : LineCommandsFit sizes bare lsWc := by
  unfold LineCommandsFit
  rw [commands_lsWc]
  decide

/-- `ls | | wc` -/
def lsHoleWc : Ptr :=
  ⟨0, [chr 'l', chr 's', space, chr '|', space, chr '|', space, chr 'w', chr 'c']⟩

end Shell
end Sisop

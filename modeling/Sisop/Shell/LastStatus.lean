import Sisop.Shell.Reaping

/-!
# What `$?` expands to

`status` has two writers.  `run_cmd` stores a wait status in it and decodes it in
place, and `bg_handler` stores the wait status of whatever child it reaped,
which nothing decodes unless `run_cmd` is about to.

`Kept` relates `status` to the result of the last foreground command at every
point of the main program and of the handler.  It is kept by every run in which
the handler stores nothing that is read as another status, no fork of a
foreground command fails, and the wait status of a pipeline is the result of its
rightmost command.
-/

namespace Sisop
namespace Shell

open TransitionSystem

/-! ## Commands whose status is printed -/

/-- The command is in the background, a pipeline, or has a text. -/
def Printable (parsed : Cmd) : Prop :=
  parsed.type = some .back ∨ parsed.type = some .pipe ∨ parsed.scmd ≠ some []

theorem addToken_scmd {arr : Arrays} {env : Environ} {c c' : ExecCmd} {tok : List Byte}
    (h : c.addToken arr env tok = some c') : c'.scmd = c.scmd := by
  obtain ⟨-, hflow⟩ | ⟨-, -, rfl⟩ | ⟨-, -, w, -, ⟨-, -, rfl⟩ | ⟨-, rfl⟩⟩ := addToken_cases h
  · obtain rfl | rfl | rfl | rfl := parseRedirFlow_cases hflow <;> rfl
  · rfl
  · rfl
  · rfl

theorem foldlM_scmd {arr : Arrays} {env : Environ} {c c' : ExecCmd} {toks : List (List Byte)}
    (h : toks.foldlM (ExecCmd.addToken arr env) c = some c') : c'.scmd = c.scmd := by
  induction toks generalizing c with
  | nil =>
    cases h
    rfl
  | cons tok toks ih =>
    rw [List.foldlM_cons, Option.bind_eq_bind, Option.bind_eq_some_iff] at h
    obtain ⟨c₁, hadd, hrest⟩ := h
    exact (ih hrest).trans (addToken_scmd hadd)

theorem parseCmd_printable {arr : Arrays} {env : Environ} {before : Byte} {buf : List Byte}
    {c : Cmd} (hbuf : buf ≠ []) (h : parseCmd arr env before buf = some c) : Printable c := by
  rw [parseCmd, if_neg hbuf] at h
  have hexec : parseExec arr env buf = some c → Printable c := by
    intro hparse
    obtain ⟨e, he, -, rfl⟩ := parseExec_eq_some.mp hparse
    refine .inr (.inr fun heq => hbuf ?_)
    have hscmd : e.scmd = buf := foldlM_scmd he
    rw [← hscmd]
    exact Option.some.inj heq
  split at h
  · split at h
    · rw [parseBack, Option.bind_eq_bind, Option.bind_eq_some_iff] at h
      obtain ⟨e, -, hback⟩ := h
      rw [backCmdCreate, Option.bind_eq_bind, Option.bind_eq_some_iff] at hback
      obtain ⟨scmd, -, hback⟩ := hback
      cases hback
      exact .inl rfl
    · exact hexec h
  · exact hexec h

theorem parseLine_printable {arr : Arrays} {env : Environ} {line : Ptr} {c : Cmd}
    (h : parseLine arr env line = some c) (hnull : c ≠ .null) : Printable c := by
  obtain ⟨l, hl, ⟨-, r, -, rfl⟩ | ⟨-, rfl⟩⟩ := parseLine_cases h
  · by_cases hr : r = .null
    · rw [pipeCmdCreate, if_pos hr] at hnull ⊢
      exact parseCmd_printable (fun hs => hnull ((parseCmd_spec hl).1.mpr hs)) hl
    · rw [pipeCmdCreate, if_neg hr]
      exact .inr (.inl rfl)
  · exact parseCmd_printable (fun hs => hnull ((parseCmd_spec hl).1.mpr hs)) hl

/-! ## The value `print_status_info` arrives at -/

/-- What is in `status` when `print_status_info` is done, from each of its steps. -/
def PrintStep.yields (parsed : Cmd) (status : BitVec 32) : PrintStep → BitVec 32
  | .testScmd =>
    if parsed.scmd = some [] ∨ parsed.type = some .pipe then status else decodeStatus status
  | .testExited => decodeStatus status
  | .readExited => wexitstatus status
  | .testSignaled =>
    if wifsignaled status then -wtermsig status
    else if wtermsig status ≠ 0 then -wstopsig status
    else status
  | .readSignaled => -wtermsig status
  | .testStopped => if wtermsig status ≠ 0 then -wstopsig status else status
  | .readStopped => -wstopsig status
  | .store v => v

/-- `print_status_info` makes `last` of the wait status `raw`. -/
def Shows (parsed : Cmd) (raw : BitVec 32) (last : Int) : Prop :=
  (PrintStep.testScmd.yields parsed raw).toInt = last

theorem shows_of_command {parsed : Cmd} {w right : WaitStatus} (hprint : Printable parsed)
    (hback : parsed.type ≠ some .back) (hpipe : parsed.type ≠ some .pipe) :
    Shows parsed w.raw (result parsed w right) := by
  obtain h | h | h := hprint
  · exact absurd h hback
  · exact absurd h hpipe
  · unfold Shows result PrintStep.yields
    rw [if_neg (not_or.mpr ⟨h, hpipe⟩), if_neg hpipe]
    exact decodeStatus_raw w

theorem shows_of_pipe {parsed : Cmd} {w right : WaitStatus} (hpipe : parsed.type = some .pipe)
    (h : w.raw.toInt = right.decoded) : Shows parsed w.raw (result parsed w right) := by
  unfold Shows result PrintStep.yields
  rw [if_pos (.inr hpipe), if_pos hpipe]
  exact h

/-! ## The invariant -/

/-- The command that the main program has in its hands is printable. -/
def Pc.HasPrintable : Pc → Prop
  | .grouping parsed | .forking parsed => Printable parsed
  | .waiting _ parsed => Printable parsed ∧ parsed.type ≠ some .back
  | _ => True

/-- The wait for the foreground child `p`.  When the handler has reaped it, its
wait status is in the handler's hands or in `status`. -/
structure WaitKept (s : Jobs) (p : Nat) (parsed : Cmd) : Prop where
  present : s.children p ≠ none → ∀ raw, s.handler ≠ .reaped p raw
  zombie : ∀ g w, s.children p = some ⟨g, some w⟩ → Shows parsed w.raw s.last
  reaped : ∀ raw, s.handler = .reaped p raw → Shows parsed raw s.last
  gone : s.children p = none → (∀ raw, s.handler ≠ .reaped p raw) → Shows parsed s.status s.last

/-- `status` against the result of the last foreground command. -/
def Jobs.StatusKept (s : Jobs) : Prop :=
  match s.pc with
  | .prompt | .grouping _ | .forking _ | .freeing _ => s.status.toInt = s.last
  | .waiting p parsed => WaitKept s p parsed
  | .waitingAny _ => False
  | .printing step parsed => (step.yields parsed s.status).toInt = s.last
  | .exit | .killed => True

structure Kept (s : Jobs) : Prop where
  printable : s.pc.HasPrintable
  statusKept : s.StatusKept
  decoded : ∃ w : WaitStatus, s.last = w.decoded

/-- What `status` holds is written over before it is read: by the `waitpid` for
the foreground child, which is not reaped yet or has just been by the handler, or
by `print_status_info`. -/
def Jobs.Overwritten (s : Jobs) (q : Nat) : Prop :=
  (∃ p parsed, s.pc = .waiting p parsed ∧ (q = p ∨ s.children p ≠ none)) ∨
  ∃ v parsed, s.pc = .printing (.store v) parsed

/-- The handler stores nothing that is read as another status, the wait status of
a pipeline is the result of its rightmost command, and no fork of a foreground
command fails. -/
def Undisturbed (s : Jobs) : Event → Prop
  | .store => ∀ q raw, s.handler = .reaped q raw → raw = s.status ∨ s.Overwritten q
  | .terminate p w right => ∀ parsed, s.pc = .waiting p parsed → parsed.type = some .pipe →
      w.raw.toInt = right.decoded
  | .fork none => ∀ parsed, s.pc = .forking parsed → parsed.type = some .back
  | _ => True

variable {sh : Login} {s s' : Jobs} {e : Event}

theorem toInt_code (code : BitVec 8) :
    (code.setWidth 32).toInt = (WaitStatus.exited code).decoded := by
  revert code
  decide +kernel

theorem printStep_kept {step : PrintStep} {parsed : Cmd} (hs : Kept s)
    (hpc : s.pc = .printing step parsed) : Kept (s.printStep parsed step) := by
  have hyields := hs.statusKept
  rw [Jobs.StatusKept, hpc] at hyields
  refine ⟨?_, ?_, ?_⟩
  · unfold Jobs.printStep
    cases step <;> dsimp only <;> (try split) <;> trivial
  · unfold Jobs.printStep
    cases step with
    | testScmd =>
      unfold PrintStep.yields at hyields
      dsimp only at hyields ⊢
      split
      · rename_i h
        rw [if_pos h] at hyields
        exact hyields
      · rename_i h
        rw [if_neg h] at hyields
        exact hyields
    | testExited =>
      unfold PrintStep.yields decodeStatus at hyields
      dsimp only at hyields ⊢
      cases hexited : wifexited s.status with
      | true =>
        rw [if_pos hexited] at hyields
        exact hyields
      | false =>
        rw [if_neg (by rw [hexited]; exact Bool.false_ne_true)] at hyields
        exact hyields
    | readExited => exact hyields
    | testSignaled =>
      unfold PrintStep.yields at hyields
      dsimp only at hyields ⊢
      cases hsignaled : wifsignaled s.status with
      | true =>
        rw [if_pos hsignaled] at hyields
        exact hyields
      | false =>
        rw [if_neg (by rw [hsignaled]; exact Bool.false_ne_true)] at hyields
        exact hyields
    | readSignaled => exact hyields
    | testStopped =>
      unfold PrintStep.yields at hyields
      dsimp only at hyields ⊢
      split
      · rename_i h
        rw [if_pos h] at hyields
        exact hyields
      · rename_i h
        rw [if_neg h] at hyields
        exact hyields
    | readStopped => exact hyields
    | store v => exact hyields
  · obtain ⟨w, hw⟩ := hs.decoded
    refine ⟨w, hw ▸ ?_⟩
    unfold Jobs.printStep
    cases step <;> dsimp only <;> (try split) <;> rfl

theorem readLine_kept (buf : Ptr) (chdirs : Bool) (hs : Kept s) (hpc : s.pc = .prompt) :
    Kept (s.readLine sh buf chdirs) := by
  have hstatus := hs.statusKept
  rw [Jobs.StatusKept, hpc] at hstatus
  obtain heq | ⟨code, heq⟩ | heq | heq | ⟨parsed, hparse, hnull, heq⟩ :=
    @readLine_cases sh s buf chdirs
  · rw [heq]
    exact hs
  · rw [heq]
    refine ⟨hs.printable, ?_, ⟨.exited code, rfl⟩⟩
    rw [Jobs.StatusKept, hpc]
    exact toInt_code code
  · rw [heq]
    exact ⟨trivial, trivial, hs.decoded⟩
  · rw [heq]
    exact ⟨trivial, trivial, hs.decoded⟩
  · rw [heq]
    exact ⟨parseLine_printable hparse hnull, hstatus, hs.decoded⟩

theorem kept_main (hidle : s.handler = .idle) (hs : Kept s) (hok : Undisturbed s e)
    (h : s.main sh e = some s') : Kept s' := by
  have hstatus := hs.statusKept
  have hprint := hs.printable
  obtain ⟨buf, chdirs, -, hpc, rfl⟩ | ⟨ok, parsed, rfl, hpc, rfl⟩ | ⟨p, parsed, -, hpc, -, rfl⟩ |
    ⟨parsed, rfl, hpc, rfl⟩ | ⟨p, parsed, g, w, -, hpc, hp, rfl⟩ | ⟨p, parsed, -, hpc, hp, rfl⟩ |
    ⟨q, parsed, w, -, hpc, rfl⟩ | ⟨step, parsed, -, hpc, rfl⟩ | ⟨parsed, -, hpc, rfl⟩ :=
    main_cases h
  · exact readLine_kept buf chdirs hs hpc
  · rw [Jobs.StatusKept, hpc] at hstatus
    rw [hpc] at hprint
    exact ⟨hprint, hstatus, hs.decoded⟩
  · rw [Jobs.StatusKept, hpc] at hstatus
    rw [hpc] at hprint
    by_cases hback : parsed.type = some .back
    · rw [if_pos hback]
      exact ⟨trivial, hstatus, hs.decoded⟩
    · rw [if_neg hback]
      have hchild : (s.setChild p (some ⟨s.group, none⟩)).children p = some ⟨s.group, none⟩ :=
        if_pos rfl
      refine ⟨⟨hprint, hback⟩, ⟨?_, ?_, ?_, ?_⟩, hs.decoded⟩
      · intro _ raw hreaped
        exact absurd (hidle.symm.trans hreaped) nofun
      · intro g w hw
        exact absurd (hchild.symm.trans hw) nofun
      · intro raw hreaped
        exact absurd (hidle.symm.trans hreaped) nofun
      · intro hgone
        exact absurd (hchild.symm.trans hgone) nofun
  · rw [Jobs.StatusKept, hpc] at hstatus
    rw [if_pos (hok parsed hpc)]
    exact ⟨trivial, hstatus, hs.decoded⟩
  · rw [Jobs.StatusKept, hpc] at hstatus
    exact ⟨trivial, hstatus.zombie g w hp, hs.decoded⟩
  · rw [Jobs.StatusKept, hpc] at hstatus
    exact ⟨trivial, hstatus.gone hp fun raw => by rw [hidle]; nofun, hs.decoded⟩
  · rw [Jobs.StatusKept, hpc] at hstatus
    exact hstatus.elim
  · exact printStep_kept hs hpc
  · rw [Jobs.StatusKept, hpc] at hstatus
    split
    · exact ⟨trivial, hstatus, hs.decoded⟩
    · exact ⟨trivial, trivial, hs.decoded⟩

/-- Outside the wait for a foreground child only `status` and `last` count. -/
theorem StatusKept.of_eq (hpc : s'.pc = s.pc) (hstatus : s'.status = s.status)
    (hlast : (∀ p parsed, s.pc ≠ .waiting p parsed) → s'.last = s.last)
    (hwait : ∀ p parsed, s.pc = .waiting p parsed → WaitKept s p parsed → WaitKept s' p parsed)
    (hs : s.StatusKept) : s'.StatusKept := by
  unfold Jobs.StatusKept at hs ⊢
  rw [hpc, hstatus]
  cases hcase : s.pc with
  | waiting p parsed =>
    rw [hcase] at hs
    exact hwait p parsed hcase hs
  | prompt | grouping parsed | forking parsed | freeing parsed | waitingAny parsed
  | printing step parsed | exit | killed =>
    rw [hcase] at hs
    exact (hlast fun p parsed => by rw [hcase]; nofun) ▸ hs

/-- A wait is kept when the child, its parts of `status` and `last` are, and the
handler has not taken a child or given one away. -/
theorem WaitKept.of_eq {p : Nat} {parsed : Cmd} (hchild : s'.children p = s.children p)
    (hstatus : s'.status = s.status) (hlast : s'.last = s.last)
    (hbefore : ∀ raw, s.handler ≠ .reaped p raw) (hafter : ∀ raw, s'.handler ≠ .reaped p raw)
    (hs : WaitKept s p parsed) : WaitKept s' p parsed := by
  refine ⟨fun _ => hafter, ?_, ?_, ?_⟩
  · rw [hchild, hlast]
    exact hs.zombie
  · exact fun raw h => absurd h (hafter raw)
  · rw [hchild, hstatus, hlast]
    exact fun hgone _ => hs.gone hgone hbefore

theorem terminate_kept {p g : Nat} {w right : WaitStatus} (hs : Kept s)
    (hok : Undisturbed s (.terminate p w right)) (hp : s.children p = some ⟨g, none⟩) :
    Kept { s.setChild p (some ⟨g, some w⟩) with
      pending := true
      last := s.lastAfter p w right } := by
  refine ⟨hs.printable, ?_, ?_⟩
  · refine StatusKept.of_eq (s := s) rfl rfl ?_ ?_ hs.statusKept
    · intro hne
      unfold Jobs.lastAfter
      split
      · rename_i q parsed hpc
        exact absurd hpc (hne q parsed)
      · rfl
    · intro q parsed hpc hwait
      have hprint := hs.printable
      rw [hpc] at hprint
      by_cases hq : q = p
      · subst hq
        have hhandler := hwait.present (by rw [hp]; nofun)
        refine ⟨fun _ => hhandler, ?_, fun raw h => absurd h (hhandler raw), ?_⟩
        · intro g' w' hw'
          have hchild : (s.setChild q (some ⟨g, some w⟩)).children q = some ⟨g, some w⟩ :=
            if_pos rfl
          obtain ⟨⟩ := hchild.symm.trans hw'
          have hlast : s.lastAfter q w right = result parsed w right := by
            rw [Jobs.lastAfter, hpc]
            exact if_pos rfl
          dsimp only
          rw [hlast]
          by_cases hpipe : parsed.type = some .pipe
          · exact shows_of_pipe hpipe (hok parsed hpc hpipe)
          · exact shows_of_command hprint.1 hprint.2 hpipe
        · intro hgone
          have hchild : (s.setChild q (some ⟨g, some w⟩)).children q = some ⟨g, some w⟩ :=
            if_pos rfl
          exact absurd (hchild.symm.trans hgone) nofun
      · have hlast : s.lastAfter p w right = s.last := by
          rw [Jobs.lastAfter, hpc]
          exact if_neg hq
        have hchild : (s.setChild p (some ⟨g, some w⟩)).children q = s.children q := if_neg hq
        rw [hlast]
        exact ⟨fun h => hwait.present (hchild ▸ h), fun g w h => hwait.zombie g w (hchild ▸ h),
          hwait.reaped, fun h => hwait.gone (hchild ▸ h)⟩
  · unfold Jobs.lastAfter
    split
    · split
      · unfold result
        split
        · exact ⟨right, rfl⟩
        · exact ⟨w, rfl⟩
      · exact hs.decoded
    · exact hs.decoded

theorem reap_kept {q : Nat} {w : WaitStatus} (hs : Kept s) (hentered : s.handler = .entered)
    (hq : s.children q = some ⟨s.group, some w⟩) :
    Kept { s.setChild q none with handler := .reaped q w.raw } := by
  refine ⟨hs.printable, ?_, hs.decoded⟩
  refine StatusKept.of_eq (s := s) rfl rfl (fun _ => rfl) ?_ hs.statusKept
  intro p parsed hpc hwait
  by_cases hp : p = q
  · subst hp
    have hchild : (s.setChild p none).children p = none := if_pos rfl
    refine ⟨fun hne => absurd hchild hne, fun g w' hw' => absurd (hchild.symm.trans hw') nofun,
      ?_, fun _ hne => absurd rfl (hne w.raw)⟩
    intro raw hraw
    cases hraw
    exact hwait.zombie s.group w hq
  · refine hwait.of_eq (if_neg hp) rfl rfl (by rw [hentered]; nofun) fun raw h => ?_
    cases h
    exact hp rfl

theorem store_kept {q : Nat} {raw : BitVec 32} (hs : Kept s) (hreaped : s.handler = .reaped q raw)
    (hok : raw = s.status ∨ s.Overwritten q) :
    Kept { s with status := raw, handler := .returning } := by
  refine ⟨hs.printable, ?_, hs.decoded⟩
  have hstatus := hs.statusKept
  obtain heq | ⟨p, parsed, hpc, hover⟩ | ⟨v, parsed, hpc⟩ := hok
  · -- The status stored is there already.
    refine StatusKept.of_eq (s := s) rfl heq (fun _ => rfl) ?_ hstatus
    intro p parsed hpc hwait
    refine ⟨fun _ => nofun, hwait.zombie, nofun, fun hgone _ => ?_⟩
    by_cases hp : p = q
    · subst hp
      exact hwait.reaped raw hreaped
    · have hne : ∀ r, s.handler ≠ .reaped p r := by
        intro r hr
        rw [hreaped] at hr
        cases hr
        exact hp rfl
      exact heq ▸ hwait.gone hgone hne
  · rw [Jobs.StatusKept, hpc] at hstatus
    have hwait : WaitKept { s with status := raw, handler := .returning } p parsed := by
      refine ⟨fun _ => nofun, hstatus.zombie, nofun, fun hgone _ => ?_⟩
      obtain rfl | hpresent := hover
      · exact hstatus.reaped raw hreaped
      · exact absurd hgone hpresent
    unfold Jobs.StatusKept
    split
    all_goals rename_i hcase
    all_goals cases hpc.symm.trans hcase
    exact hwait
  · rw [Jobs.StatusKept, hpc] at hstatus
    rw [Jobs.StatusKept]
    dsimp only
    rw [hpc]
    exact hstatus

/-- A step of the handler that takes no child and stores nothing. -/
theorem handler_kept {pending : Bool} {handler : HandlerPc} (hs : Kept s)
    (hbefore : ∀ p raw, s.handler ≠ .reaped p raw) (hafter : ∀ p raw, handler ≠ .reaped p raw) :
    Kept { s with pending := pending, handler := handler } := by
  refine ⟨hs.printable, ?_, hs.decoded⟩
  refine StatusKept.of_eq (s := s) rfl rfl (fun _ => rfl) ?_ hs.statusKept
  intro p parsed hpc hwait
  exact @WaitKept.of_eq s _ p parsed rfl rfl rfl (hbefore p) (hafter p) hwait

theorem kept_async (hs : Kept s) (hok : Undisturbed s e) (h : s.async e = some s') : Kept s' := by
  obtain ⟨p, w, right, g, rfl, hp, rfl⟩ | ⟨rfl, rfl⟩ | ⟨rfl, -, hidle, rfl⟩ |
    ⟨p, w, rfl, hentered, hp, rfl⟩ | ⟨p, exitStatus, rfl, hreaped, rfl⟩ | ⟨rfl, hret, rfl⟩ :=
    async_cases h
  · exact terminate_kept hs hok hp
  · refine ⟨hs.printable, ?_, hs.decoded⟩
    refine StatusKept.of_eq (s := s) rfl rfl (fun _ => rfl) ?_ hs.statusKept
    exact fun p parsed hpc hwait => ⟨hwait.present, hwait.zombie, hwait.reaped, hwait.gone⟩
  · exact handler_kept hs (fun p raw => by rw [hidle]; nofun) nofun
  · exact reap_kept hs hentered hp
  · exact store_kept hs hreaped (hok p exitStatus hreaped)
  · exact handler_kept hs (fun p raw => by rw [hret]; nofun) nofun

theorem kept_step (hs : Kept s) (hok : Undisturbed s e) (h : s.Step sh e s') : Kept s' := by
  cases h with
  | main hidle h => exact kept_main hidle hs hok h
  | async h => exact kept_async hs hok h
  | reapNone hentered hquiet => exact handler_kept hs (fun p raw => by rw [hentered]; nofun) nofun
  | waitNone hidle hpc halone =>
    have hstatus := hs.statusKept
    rw [Jobs.StatusKept, hpc] at hstatus
    exact hstatus.elim

theorem kept_of_reach (h : Reach (jobs sh) Undisturbed s) : Kept s := by
  refine Reach.invariant (P := Kept) ?_ (fun s e s' => kept_step) h
  rintro s ⟨group, rfl⟩
  exact ⟨trivial, rfl, .exited 0, rfl⟩

/-! ## The expansion -/

/-- The text that `sprintf` prints into `status_str` for `$?`. -/
def Jobs.statusStr (sh : Login) (s : Jobs) : List Byte :=
  decimal ⟨sh.getenv, s.status.toInt⟩

/-- While the shell reads and parses a line, `$?` gives the decoded result of the
last foreground command or builtin, and its text fits. -/
def Expands (sh : Login) (s : Jobs) : Prop :=
  s.pc = .prompt →
    expandEnvironVar sizes ⟨sh.getenv, s.status.toInt⟩ dollarQuestion =
      some ((toString s.last).toList.map chr) ∧
    (∃ w : WaitStatus, s.last = w.decoded) ∧ (s.statusStr sh).length + 1 ≤ statusStrSize

theorem length_decoded (w : WaitStatus) : (toString w.decoded).toList.length ≤ 3 := by
  cases w with
  | exited code =>
    revert code
    decide +kernel
  | signaled sig core =>
    revert sig core
    decide +kernel

theorem expands_of_reach (h : Reach (jobs sh) Undisturbed s) : Expands sh s := by
  intro hpc
  obtain ⟨-, hstatus, w, hw⟩ := kept_of_reach h
  rw [Jobs.StatusKept, hpc] at hstatus
  have htext : s.statusStr sh = (toString s.last).toList.map chr := by
    rw [← hstatus]
    rfl
  have hfits : (s.statusStr sh).length + 1 ≤ statusStrSize := by
    rw [htext, List.length_map, hw]
    exact Nat.succ_le_succ (length_decoded w)
  refine ⟨?_, ⟨w, hw⟩, hfits⟩
  rw [← htext]
  exact if_pos fun k hk => by cases hk; exact hfits

/-- A background process exits with 0 after a line that left the status 0. -/
theorem reach_quietChild : Reach (jobs login) Undisturbed
    { oneReaped with handler := .returning } := by
  have hstart : Reach (jobs login) Undisturbed (startJobs 100) := .init ⟨100, rfl⟩
  have hone := @reach_launch login _ 101 Undisturbed hstart rfl rfl (by decide)
    (fun _ => trivial) (fun _ _ => trivial) (fun _ => trivial) (fun _ => trivial)
  have hterm := Reach.step (e := Event.terminate 101 (.exited 0) (.exited 0)) hone nofun
    (.async rfl)
  have hdeliver := Reach.step (e := Event.deliver) hterm trivial (.async rfl)
  have hreap := Reach.step (e := Event.reap (some 101)) hdeliver trivial (.async rfl)
  refine Reach.step (e := Event.store) hreap ?_ (.async rfl)
  intro q raw hreaped
  cases hreaped
  exact .inl rfl

theorem expands_quietChild : Expands login { oneReaped with handler := .returning } :=
  expands_of_reach reach_quietChild

/-- A background process exits with 16: `$?` gives its wait status 4096 at the next
prompt, which does not fit. -/
theorem background_changes_status : ∃ s, Reach (jobs login) anyEvent s ∧ s.pc = .prompt ∧
    s.handler = .idle ∧ s.last = 0 ∧
    s.statusStr login = [chr '4', chr '0', chr '9', chr '6'] ∧ ¬ Expands login s := by
  have hstart : Reach (jobs login) anyEvent (startJobs 100) := .init ⟨100, rfl⟩
  have hone := @reach_launch login _ 101 anyEvent hstart rfl rfl (by decide)
    (fun _ => trivial) (fun _ _ => trivial) (fun _ => trivial) (fun _ => trivial)
  have hterm := Reach.step (e := Event.terminate 101 (.exited 16) (.exited 16)) hone trivial
    (.async rfl)
  have hdeliver := Reach.step (e := Event.deliver) hterm trivial (.async rfl)
  have hreap := Reach.step (e := Event.reap (some 101)) hdeliver trivial (.async rfl)
  have hstore := Reach.step (e := Event.store) hreap trivial (.async rfl)
  have hret := Reach.step (e := Event.ret) hstore trivial (.async rfl)
  refine ⟨_, hret, rfl, rfl, rfl, by decide, fun hexpands => ?_⟩
  have hfits := (hexpands rfl).2.2
  revert hfits
  decide

end Shell
end Sisop

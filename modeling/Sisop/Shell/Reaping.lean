import Sisop.Shell.Jobs

/-!
# Children that are left unreaped

`bg_handler` calls `waitpid` once.  One run of it may stand for the SIGCHLD of
several children, and then it leaves all but one of them as zombies.

`Drained` holds in every run in which the handler finds one terminated child at
a time: when no SIGCHLD is pending and the handler has got past its `waitpid`, no
child of the group has terminated.
-/

namespace Sisop
namespace Shell

open TransitionSystem

variable (sh : Login)

/-- `bg_handler` finds at most one terminated child, unless another SIGCHLD is
pending already, and the shell does not enter a group with a zombie in it. -/
def OneAtATime (s : Jobs) : Event → Prop
  | .reap _ => s.pending = false →
      ∀ p q, s.Zombie s.group p → s.Zombie s.group q → p = q
  | .setpgid ok => s.pending = false → ∀ parsed, s.pc = .grouping parsed →
      ∀ q, ¬ s.Zombie (s.setpgid sh parsed ok) q
  | _ => True

def Drained (s : Jobs) : Prop :=
  s.pending = false → s.handler ≠ .entered → ∀ q, ¬ s.Zombie s.group q

variable {sh} {s s' : Jobs} {e : Event} {g p : Nat}

theorem drained_main (hidle : s.handler = .idle) (hs : Drained s) (hok : OneAtATime sh s e)
    (h : s.main sh e = some s') : Drained s' := by
  obtain ⟨hframe, hgroup⟩ := main_frame h
  intro hpending hentered q hz
  rw [hframe.pending] at hpending
  have hz' := hframe.zombie _ _ hz
  obtain hsame | ⟨ok, parsed, rfl, hpc, hnew⟩ := hgroup
  · rw [hsame] at hz'
    exact hs hpending (by rw [hidle]; nofun) q hz'
  · rw [hnew] at hz'
    exact hok hpending parsed hpc q hz'

theorem drained_async (hs : Drained s) (hok : OneAtATime sh s e) (h : s.async e = some s') :
    Drained s' := by
  intro hpending hentered q hz
  obtain ⟨p, w, right, g, rfl, hp, rfl⟩ | ⟨rfl, rfl⟩ | ⟨rfl, -, -, rfl⟩ |
    ⟨p, w, rfl, hentered', hp, rfl⟩ | ⟨p, exitStatus, rfl, hreaped, rfl⟩ | ⟨rfl, hret, rfl⟩ :=
    async_cases h
  · cases hpending
  · cases hpending
  · exact hentered rfl
  · -- The child reaped was the only one.
    obtain ⟨-, w', hw'⟩ | ⟨hne, hz⟩ := setChild_zombie hz
    · cases hw'
    · exact hne (hok hpending q p hz ⟨w, hp⟩)
  · exact hs hpending (by rw [hreaped]; nofun) q hz
  · exact hs hpending (by rw [hret]; nofun) q hz

theorem drained_step (hs : Drained s) (hok : OneAtATime sh s e) (h : s.Step sh e s') :
    Drained s' := by
  cases h with
  | main hidle h => exact drained_main hidle hs hok h
  | async h => exact drained_async hs hok h
  | reapNone hentered hquiet => exact fun _ _ => hquiet
  | waitNone hidle hpc halone =>
    intro hpending _ q hz
    obtain ⟨w, hw⟩ := hz
    have hnone := halone q
    rw [hw] at hnone
    cases hnone

theorem drained_of_reach (h : Reach (jobs sh) (OneAtATime sh) s) : Drained s := by
  refine Reach.invariant (P := Drained) ?_ (fun s e s' => drained_step) h
  intro s hinit hpending hentered q hz
  obtain ⟨group, rfl⟩ := hinit
  obtain ⟨w, hw⟩ := hz
  cases hw

/-- The shell is not in the middle of waiting for the child. -/
def Jobs.Background (s : Jobs) (p : Nat) : Prop := ∀ parsed, s.pc ≠ .waiting p parsed

/-- No SIGCHLD is pending and the handler has returned, so no terminated
background child of the group is left. -/
def NoZombie (s : Jobs) : Prop :=
  s.pending = false → s.handler = .idle → ∀ p, s.Background p → ¬ s.Zombie s.group p

theorem noZombie_of_reach (h : Reach (jobs sh) (OneAtATime sh) s) : NoZombie s :=
  fun hpending hidle p _ => drained_of_reach h hpending (by rw [hidle]; nofun) p

/-! ## Background commands -/

/-- `a&` -/
def aBack : Ptr := ⟨0, [chr 'a', chr '&']⟩

/-- The command `a`. -/
def aCmd : ExecCmd := { execCmdCreate [chr 'a'] with argv := [[chr 'a']] }

theorem parseLine_aBack (env : Environ) :
    parseLine sizes env aBack = some (.back [chr 'a'] (.exec aCmd)) := by
  have hsplit : splitLine aBack (chr '|') = ([chr 'a', chr '&'], ⟨0, []⟩) := by decide
  have hexec : parseExec sizes env [chr 'a'] = some (.exec aCmd) := by
    have htokens : tokens [chr 'a'] = [[chr 'a']] := by decide
    rw [parseExec_eq, htokens]
    rfl
  refine parseLine_last hsplit (by decide) ?_
  change (parseExec sizes env [chr 'a']).bind backCmdCreate = _
  rw [hexec]
  rfl

/-- The shell puts `a` in the background as process `p`. -/
def Jobs.launch (sh : Login) (s : Jobs) (p : Nat) : Jobs :=
  { s with
    group := sh.pid
    children := fun q => if q = p then some ⟨sh.pid, none⟩ else s.children q }

/-- The four steps of it are a run under every guard that they meet. -/
theorem reach_launch {guard : Jobs → Event → Prop} (h : Reach (jobs sh) guard s)
    (hpc : s.pc = .prompt) (hidle : s.handler = .idle)
    (hp : ¬ (p = 0 ∨ p = sh.pid ∨ s.children p ≠ none))
    (hline : ∀ t, guard t (.line aBack true))
    (hsetpgid : ∀ t : Jobs, t.children = s.children → guard t (.setpgid true))
    (hfork : ∀ t, guard t (.fork (some p))) (hfree : ∀ t, guard t .free) :
    Reach (jobs sh) guard (s.launch sh p) := by
  have hread : s.readLine sh aBack true =
      { s with pc := .grouping (.back [chr 'a'] (.exec aCmd)) } := by
    have hne : ¬ aBack.bytes.head?.getD 0 = 0 := by decide
    have hcd : ¬ cd aBack.bytes := by decide
    have hexit : ¬ exitShell aBack.bytes := by decide
    have hpwd : ¬ pwd aBack.bytes := by decide
    rw [Jobs.readLine, if_neg hne, if_neg hcd, if_neg hexit, if_neg hpwd, parseLine_aBack]
  have h₁ := Reach.step (e := Event.line aBack true) h (hline _)
    (.main hidle (by rw [Jobs.main, hpc, hread]))
  have h₂ := Reach.step (e := Event.setpgid true) h₁ (hsetpgid _ rfl) (.main hidle rfl)
  have h₃ := Reach.step (e := Event.fork (some p)) h₂ (hfork _) (.main hidle (if_neg hp))
  have h₄ := Reach.step (e := Event.free) h₃ (hfree _) (.main hidle rfl)
  obtain ⟨pc, status, group, children, pending, handler, last⟩ := s
  cases hpc
  exact h₄

/-- A login shell. -/
def login : Login := ⟨100, fun _ => none⟩

theorem reach_oneChild : Reach (jobs login) (OneAtATime login)
    ((startJobs 100).launch login 101) := by
  have hstart : Reach (jobs login) (OneAtATime login) (startJobs 100) := .init ⟨100, rfl⟩
  refine reach_launch hstart rfl rfl (by decide) (fun _ => trivial) ?_ (fun _ => trivial)
    (fun _ => trivial)
  rintro t ht - parsed - q ⟨w, hw⟩
  rw [ht] at hw
  cases hw

/-- Process 101 has terminated and the handler has reaped it. -/
def oneReaped : Jobs :=
  { (startJobs 100).launch login 101 with
    children := fun q => if q = 101 then none else if q = 101 then some ⟨100, some (.exited 0)⟩
      else ((startJobs 100).launch login 101).children q }

theorem reach_oneReaped : Reach (jobs login) (OneAtATime login) oneReaped := by
  have hterm := Reach.step (e := Event.terminate 101 (.exited 0) (.exited 0)) reach_oneChild
    trivial (.async rfl)
  have hdeliver := Reach.step (e := Event.deliver) hterm trivial (.async rfl)
  have hreap := Reach.step (e := Event.reap (some 101)) hdeliver (by
    rintro - p q ⟨w, hp⟩ ⟨w', hq⟩
    simp only [Jobs.setChild, Jobs.launch, startJobs] at hp hq
    split at hp
    · split at hq
      · omega
      · cases hq
    · cases hp) (.async rfl)
  have hstore := Reach.step (e := Event.store) hreap trivial (.async rfl)
  exact Reach.step (e := Event.ret) hstore trivial (.async rfl)

theorem noZombie_oneReaped : NoZombie oneReaped := noZombie_of_reach reach_oneReaped

/-- Processes 101 and 102 run in the background, both terminate before the first
SIGCHLD is delivered, and the handler reaps process 101. -/
theorem merged_sigchld : ∃ s, Reach (jobs login) anyEvent s ∧ s.pending = false ∧
    s.handler = .idle ∧ s.Background 102 ∧ s.Zombie s.group 102 ∧ ¬ NoZombie s := by
  have hstart : Reach (jobs login) anyEvent (startJobs 100) := .init ⟨100, rfl⟩
  have hone := @reach_launch login _ 101 anyEvent hstart rfl rfl (by decide)
    (fun _ => trivial) (fun _ _ => trivial) (fun _ => trivial) (fun _ => trivial)
  have htwo := @reach_launch login _ 102 anyEvent hone rfl rfl (by decide)
    (fun _ => trivial) (fun _ _ => trivial) (fun _ => trivial) (fun _ => trivial)
  have hfirst := Reach.step (e := Event.terminate 101 (.exited 0) (.exited 0)) htwo
    trivial (.async rfl)
  have hsecond := Reach.step (e := Event.terminate 102 (.exited 0) (.exited 0)) hfirst
    trivial (.async rfl)
  have hdeliver := Reach.step (e := Event.deliver) hsecond trivial (.async rfl)
  have hreap := Reach.step (e := Event.reap (some 101)) hdeliver trivial (.async rfl)
  have hstore := Reach.step (e := Event.store) hreap trivial (.async rfl)
  have hret := Reach.step (e := Event.ret) hstore trivial (.async rfl)
  refine ⟨_, hret, rfl, rfl, nofun, ⟨.exited 0, rfl⟩, fun hnot => ?_⟩
  exact hnot rfl rfl 102 nofun ⟨.exited 0, rfl⟩

end Shell
end Sisop

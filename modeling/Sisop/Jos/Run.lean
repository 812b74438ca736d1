import Sisop.Jos.Boot

/-!
# Executing the model

`run` executes a list of steps, each of which must be enabled and must leave the
kernel.  The states it computes are reached by the transition system, so a run on
a concrete machine is evidence about `kernel`.

The concrete machine has 128 MB of memory, of which the kernel leaves the last 128
pages, and two CPUs.
-/

namespace Sisop
namespace Jos

open TransitionSystem

variable (M : Machine)

instance (elf : Elf) : Decidable elf.Linked := inferInstanceAs (Decidable (∀ _ ∈ _, _))

instance (s : KState) (ev : Event) : Decidable (ev.enabled M s) :=
  match ev with
  | .create _ => inferInstanceAs (Decidable (_ ∧ ∀ c, c < M.ncpu → _))
  | .start _ => inferInstanceAs (Decidable (_ ∧ _))
  | .wake _ _ => inferInstanceAs (Decidable (_ ∧ _))
  | .trap _ _ _ => inferInstanceAs (Decidable (_ ∧ _))
  | .store _ _ _ => inferInstanceAs (Decidable (_ ∧ _))

def exec (s : KState) (ev : Event) : Option KState :=
  if ev.enabled M s then
    match ev.outcome M s with
    | .left s' => some s'
    | _ => none
  else none

def run (evs : List Event) (s : KState) : Option KState := evs.foldlM (exec M) s

variable {M} {K : Nat → Prop} {guard : KState → Event → Prop} {s s' : KState}

theorem step_of_exec {ev : Event} (h : exec M s ev = some s') : (kernel M K).step s ev s' := by
  unfold exec at h
  split at h
  · rename_i hen
    cases hout : ev.outcome M s with
    | left s₁ =>
        rw [hout] at h
        cases h
        exact ⟨hen, by rw [hout]; exact rfl⟩
    | panic msg => simp [hout] at h
    | monitor => simp [hout] at h
    | undefined why => simp [hout] at h
  · cases h

theorem reach_exec (ev : Event) (hr : (kernel M K).Reach guard s) (ok : guard s ev)
    (h : exec M s ev = some s') : (kernel M K).Reach guard s' :=
  .step hr ok (step_of_exec h)

/-- A state that an executed run reaches under a guard, and that has a property. -/
theorem exists_reach {evs : List Event} {p : KState → Bool} (hb : Booted M K s)
    (hguard : ∀ s, ∀ ev ∈ evs, guard s ev) (h : (run M evs s).any p = true) :
    ∃ s', (kernel M K).Reach guard s' ∧ p s' = true := by
  have hboot : (kernel M K).Reach guard s := .init hb
  exact hboot.exists_of_foldlM
    (fun s ev hev _ hexec => ⟨hguard s ev hev, step_of_exec hexec⟩) h

theorem reach_of_any {evs : List Event} {p : KState → Bool} (hb : Booted M K s)
    (h : (run M evs s).any p = true) :
    ∃ s', (kernel M K).Reach anyEvent s' ∧ p s' = true :=
  exists_reach hb (fun _ _ _ => trivial) h

/-! ## A concrete machine -/

def pc (build : SchedBuild) : Machine :=
  { npages := 0x8000
    kernEnd := 0x7F80
    kernPgdir := 0x100
    ncpu := 2
    build := build
    npages_le := by decide
    ncpu_pos := by decide
    ncpu_le := by decide
    le_kernPgdir := by decide
    kernPgdir_lt := by decide }

/-- Boot takes the pages of low memory. -/
def lowPages (p : Nat) : Prop := p < 0x100

def zeroEnv : Env :=
  { envTf := initTf, envLink := none, envId := 0#32, envParentId := 0#32, envStatus := .free,
    envRuns := 0#32, envCpunum := 0, envPriority := 0, envPgdir := none,
    envPgfaultUpcall := 0#32, envIpcRecving := false, envIpcDstva := 0#32, envIpcValue := 0#32,
    envIpcFrom := 0#32, envIpcPerm := 0#32 }

def pcBoot : KState :=
  { pm :=
      { ppRef := fun _ => 0#16
        ppLink := fun p => if 0x7F80 < p ∧ p < 0x8000 then some (p - 1) else none
        pageFreeList := some 0x7FFF
        mem := fun _ _ => 0#32 }
    envs := envInit fun _ => zeroEnv
    envFreeList := some 0
    cpus := fun _ => { cpuStatus := .started, cpuEnv := none, cr3 := 0x100 }
    stats := ⟨0#32, 0#32, 0#32⟩ }

/-- A free list that runs down from page `lo + n - 1` to page `lo`. -/
theorem visits_down (lo hi n : Nat) (hn : lo + n ≤ hi) :
    LinkChain.Visits (fun p => if lo < p ∧ p < hi then some (p - 1) else none)
      (if 0 < n then some (lo + n - 1) else none) ((List.range n).reverse.map (lo + ·)) := by
  induction n with
  | zero => simp [LinkChain.Visits]
  | succ n ih =>
      rw [List.range_succ, List.reverse_append, List.reverse_singleton, List.singleton_append,
        List.map_cons, if_pos (Nat.succ_pos n)]
      refine ⟨rfl, ?_⟩
      have htail := ih (by omega)
      dsimp only
      by_cases h0 : 0 < n
      · rw [if_pos h0] at htail
        rw [if_pos ⟨by omega, by omega⟩]
        exact htail
      · rw [if_neg h0] at htail
        rw [if_neg (by omega)]
        exact htail

/-- A cleared machine whose free list has the pages from `lo` up to the end of memory. -/
def downBoot (lo n : Nat) : KState :=
  { pcBoot with
    pm :=
      { pcBoot.pm with
        ppLink := fun p => if lo < p ∧ p < lo + n then some (p - 1) else none
        pageFreeList := if 0 < n then some (lo + n - 1) else none } }

theorem downBoot_booted {M : Machine} {lo n : Nat} (hlo : 0x100 ≤ lo) (hend : M.kernEnd = lo)
    (hn : M.npages = lo + n) (hpgdir : M.kernPgdir = 0x100) :
    Booted M lowPages (downBoot lo n) := by
  have hpool : ∀ p, Pool M lowPages p ↔ lo ≤ p ∧ p < lo + n := by
    intro p
    unfold Pool kept lowPages
    rw [show pgnum mpentryPaddr = 7 by decide, show pgnum iophysmem = 0xA0 by decide,
      show pgnum extphysmem = 0x100 by decide, hend, hn]
    omega
  have hmem : ∀ p, p ∈ (List.range n).reverse.map (lo + ·) ↔ lo ≤ p ∧ p < lo + n := by
    intro p
    simp only [List.mem_map, List.mem_reverse, List.mem_range]
    constructor
    · rintro ⟨i, hi, rfl⟩
      omega
    · exact fun hp => ⟨p - lo, by omega, by omega⟩
  refine ⟨⟨(List.range n).reverse.map (lo + ·), ?_, fun p => ?_, fun p hp => ?_⟩,
    fun _ _ => rfl, fun _ _ => rfl, ⟨fun _ => zeroEnv, fun _ => ⟨rfl, rfl⟩, rfl⟩, rfl, fun _ =>
      ⟨rfl, hpgdir.symm, fun _ => rfl⟩⟩
  · exact visits_down lo (lo + n) n (Nat.le_refl _)
  · rw [hmem, hpool]
  · rw [hmem] at hp
    exact if_neg fun hlink => hp ⟨by omega, hlink.2⟩

theorem pcBoot_booted (build : SchedBuild) : Booted (pc build) lowPages pcBoot :=
  @downBoot_booted (pc build) 0x7F80 128 (by decide) rfl rfl rfl

/-- An image with nothing to load but its stack. -/
def emptyImage : Elf :=
  { eMagic := elfMagic, eEntry := 0x800020#32, phdrs := [], binary := fun _ => 0#8 }

/-- Creating environments and starting a CPU map nothing and free nothing. -/
theorem fits_created {M : Machine} : ∀ s, ∀ ev ∈ [Event.create emptyImage, .start 0],
    Fits s ev ∧ FreesOwn M s ev := by
  intro s ev hev
  simp only [List.mem_cons, List.not_mem_nil, or_false] at hev
  rcases hev with rfl | rfl <;> exact ⟨trivial, trivial⟩

/-- A trap of CPU `c` into system call `no`. -/
def call (c : Nat) (no a1 a2 a3 a4 a5 : Word) : Event :=
  .trap c
    { initTf with
      trapno := tSyscall
      regs := ⟨a4, a5, 0#32, 0#32, a3, a1, a2, no⟩ }
    ⟨0#32, none, 0⟩

end Jos
end Sisop

import Sisop.Jos.Spinlock
import Sisop.Jos.Env

/-!
# One processor in the kernel

Where each processor takes and gives back the big kernel lock: `i386_init` and `mp_main`
before their first `sched_yield`, `trap` once when it comes from user mode or from
`sched_halt`, and `env_run` and `sched_halt` on the way out.  `trap` finds out by the status of
its processor, which `sched_halt` has set, and by the code segment of the trap frame; were both
tests to hold it would take the lock twice.

Not all of the kernel runs under the lock.  `mp_main` sets up its processor before it takes it,
which is the place `starting` here.  `env_run` gives it back before it stores `env_cpunum` and
reads the trap frame it returns to, which belong to the place `user`.
-/

namespace Sisop
namespace Jos

open TransitionSystem Tso

/-- What a processor is doing, or will be once `spin_lock` or `spin_unlock` returns. -/
inductive Place
  | off
  | starting
  | trapped (fromUser : Bool)
  | kernel
  | user
  | halted
  | stopped
  deriving DecidableEq, Repr

structure BigLockState (C X : Type) where
  lock : LockState C X
  place : C → Place
  cpuStatus : C → CpuStatus
  panicstr : Bool

/-- `drain` and `turn` are steps of the lock.  The others are what a processor does outside of
it. -/
inductive BigLockEvent (C X : Type)
  | drain (c : C)
  | turn (c : C) (eip : BitVec 32)
  | enter (c : C)
  | trap (c : C)
  | dispatch (c : C)
  | store (c : C) (x : X) (v : BitVec 32)
  | startap (c c' : C)
  | envRun (c : C)
  | schedHalt (c : C)
  | panic (c : C)

section

variable {C X : Type} [DecidableEq C] [DecidableEq X]

/-- Processor `c` calls `lock_kernel` or `unlock_kernel` and goes on at `place`. -/
def BigLockState.call (T : CpuTable C) (s : BigLockState C X) (c : C) (op : LockOp)
    (place : Place) : Option (BigLockState C X) :=
  (lockNext T s.lock (.call c op)).map fun lock =>
    { s with lock := lock, place := Function.update s.place c place }

def BigLockState.setStatus (s : BigLockState C X) (c : C) (st : CpuStatus) : BigLockState C X :=
  { s with cpuStatus := Function.update s.cpuStatus c st }

def BigLockState.setPlace (s : BigLockState C X) (c : C) (place : Place) : BigLockState C X :=
  { s with place := Function.update s.place c place }

/-- `trap` up to its test of the code segment.  It halts if some processor has called
`panic`. -/
def trapStart (T : CpuTable C) (s : BigLockState C X) (c : C) (fromUser : Bool) :
    Option (BigLockState C X) :=
  if s.panicstr then some (s.setPlace c .stopped)
  else if s.cpuStatus c = .halted then (s.setStatus c .started).call T c .spinLock (.trapped fromUser)
  else some ((s.setStatus c .started).setPlace c (.trapped fromUser))

/-- A step.  A processor that is in `spin_lock` or `spin_unlock` takes steps of the lock
only. -/
def bigLockNext (T : CpuTable C) (s : BigLockState C X) :
    BigLockEvent C X → Option (BigLockState C X)
  | .drain c => (lockNext T s.lock (.drain c)).map fun lock => { s with lock := lock }
  | .turn c eip => (lockNext T s.lock (.turn c eip)).map fun lock => { s with lock := lock }
  | .enter c =>
      if s.place c = .starting then (s.setStatus c .started).call T c .spinLock .kernel else none
  | .trap c =>
      if s.lock.pc c ≠ .client then none
      else
        match s.place c with
        | .user => trapStart T s c true
        | .halted | .kernel => trapStart T s c false
        | _ => none
  | .dispatch c =>
      if s.lock.pc c ≠ .client then none
      else
        match s.place c with
        | .trapped true => s.call T c .spinLock .kernel
        | .trapped false => some (s.setPlace c .kernel)
        | _ => none
  | .store c x v =>
      if s.place c = .kernel then
        (lockNext T s.lock (.store c x v)).map fun lock => { s with lock := lock }
      else none
  | .startap c c' =>
      if s.place c = .kernel ∧ s.lock.pc c = .client ∧ s.place c' = .off then
        some (s.setPlace c' .starting)
      else none
  | .envRun c => if s.place c = .kernel then s.call T c .spinUnlock .user else none
  | .schedHalt c =>
      if s.place c = .kernel then (s.setStatus c .halted).call T c .spinUnlock .halted else none
  | .panic c =>
      if s.place c = .kernel ∧ s.lock.pc c = .client then
        some { s.setPlace c .stopped with panicstr := true }
      else none

/-- Boot processor `boot` is about to take the lock in `i386_init`; the others are off. -/
def bigLockSystem (T : CpuTable C) (boot : C) :
    TransitionSystem (BigLockState C X) (BigLockEvent C X) where
  init s := (lockSystem T).init s.lock ∧
    (∀ c, s.place c = if c = boot then .starting else .off) ∧ s.panicstr = false
  step s ev s' := bigLockNext T s ev = some s'

/-! ## The invariant -/

/-- A processor there has the lock. -/
def Place.holds : Place → Bool
  | .kernel => true
  | .trapped fromUser => !fromUser
  | _ => false

/-- Where a processor is in the code of the lock fits what it has and what it is to have. -/
def LockPc.Fits (acquired holds : Bool) : LockPc → Prop
  | .client => acquired = holds
  | .holdingLocked .spinLock | .holdingCpu .spinLock | .spin => acquired = false ∧ holds = true
  | .setCpu | .setPcs _ => acquired = true ∧ holds = true
  | .holdingLocked .spinUnlock | .holdingCpu .spinUnlock | .clearPcs | .clearCpu | .release =>
      acquired = true ∧ holds = false
  | .panicked => False

/-- What the tests of `trap` go by. -/
def Place.StatusFits (st : CpuStatus) : Place → Prop
  | .user | .kernel | .trapped _ => st = .started
  | .halted => st = .halted
  | _ => True

structure BigLockInv (s : BigLockState C X) : Prop where
  fits : ∀ c, s.place c ≠ .stopped → (s.lock.pc c).Fits (s.lock.acquired c) (s.place c).holds
  status : ∀ c, (s.place c).StatusFits (s.cpuStatus c)
  idle : ∀ c, s.place c = .stopped ∨ s.place c = .off → s.lock.pc c = .client
  kept : s.panicstr = true → ∃ c, s.place c = .stopped ∧ s.lock.acquired c = true

variable {T : CpuTable C} {boot : C} {l l' : LockState C X} {s s' : BigLockState C X} {c c' : C}
  {place : Place} {op : LockOp}

/-! ## Steps of the lock -/

theorem lockTurn_other {eip : BitVec 32} (hs : lockTurn T l c eip = some l') (hc : c' ≠ c) :
    l'.pc c' = l.pc c' ∧ l'.acquired c' = l.acquired c' := by
  have hpc : ∀ m pc, (l.put c m pc).pc c' = l.pc c' := fun m pc => LockState.pc_put_ne hc l m pc
  unfold lockTurn at hs
  dsimp only at hs
  cases hcase : l.pc c with
  | client | panicked =>
      rw [hcase] at hs
      cases hs
  | holdingLocked op | holdingCpu op | setCpu | setPcs i | clearPcs | clearCpu =>
      rw [hcase] at hs
      cases hs
      exact ⟨hpc _ _, rfl⟩
  | spin =>
      rw [hcase] at hs
      dsimp only at hs
      split at hs
      · cases hs
      · split at hs
        · cases hs
          exact ⟨hpc _ _, rfl⟩
        · cases hs
          exact ⟨Function.update_of_ne hc _ _, Function.update_of_ne hc _ _⟩
  | release =>
      rw [hcase] at hs
      dsimp only at hs
      split at hs
      · cases hs
      · cases hs
        exact ⟨Function.update_of_ne hc _ _, Function.update_of_ne hc _ _⟩

/-- A right call stays right: it ends with the lock taken, or given back. -/
theorem LockInv.turn_fits (h : LockInv T l) {eip : BitVec 32} {holds : Bool}
    (hs : lockTurn T l c eip = some l') (hf : (l.pc c).Fits (l.acquired c) holds) :
    (l'.pc c).Fits (l'.acquired c) holds := by
  obtain ⟨hlocked, hcpu⟩ := h.holding (c := c)
  have hpc : ∀ m pc, (l.put c m pc).pc c = pc := fun m pc => LockState.pc_put_self l c m pc
  unfold lockTurn at hs
  dsimp only at hs
  cases hcase : l.pc c with
  | client | panicked =>
      rw [hcase] at hs
      cases hs
  | holdingLocked op =>
      rw [hcase] at hs hf
      cases hs
      rw [hpc]
      cases op with
      | spinLock =>
          split
          · exact hf
          · exact hf
      | spinUnlock =>
          rw [if_pos (hlocked hf.1)]
          exact hf
  | holdingCpu op =>
      have hshows := fun ha => h.shows c ha (by rw [hcase]; trivial)
      rw [hcase] at hs hf
      cases hs
      rw [hpc]
      cases op with
      | spinLock =>
          rw [beq_eq_false_iff_ne.mpr (hcpu hf.1)]
          exact hf
      | spinUnlock =>
          rw [beq_iff_eq.mpr (hshows hf.1)]
          exact hf
  | setCpu | clearPcs | clearCpu =>
      rw [hcase] at hs hf
      cases hs
      rw [hpc]
      exact hf
  | setPcs i =>
      rw [hcase] at hs hf
      cases hs
      rw [hpc]
      split
      · exact hf
      · exact hf.1.trans hf.2.symm
  | spin =>
      rw [hcase] at hs hf
      dsimp only at hs
      split at hs
      · cases hs
      · split at hs
        · cases hs
          rw [hpc]
          exact hf
        · cases hs
          rw [show LockState.pc { l.put c _ .setCpu with acquired := _ } c = .setCpu from
            Function.update_self _ _ _]
          exact ⟨Function.update_self _ _ _, hf.2⟩
  | release =>
      rw [hcase] at hs hf
      dsimp only at hs
      split at hs
      · cases hs
      · cases hs
        rw [show LockState.pc { l.put c _ .client with acquired := _ } c = .client from
          Function.update_self _ _ _]
        exact (Function.update_self _ _ _).trans hf.2.symm

/-! ## Steps of the kernel -/

omit [DecidableEq C] [DecidableEq X] in
theorem BigLockInv.acquired_eq (h : BigLockInv s) (hplace : s.place c ≠ .stopped)
    (hpc : s.lock.pc c = .client) : s.lock.acquired c = (s.place c).holds := by
  have hf := h.fits c hplace
  rw [hpc] at hf
  exact hf

omit [DecidableEq X] in
/-- A processor that is outside the lock goes to another place. -/
theorem BigLockInv.setPlace (h : BigLockInv s) (st : CpuStatus) (hold : s.place c ≠ .stopped)
    (hpc : s.lock.pc c = .client) (hfits : place ≠ .stopped → s.lock.acquired c = place.holds)
    (hstatus : place.StatusFits st) : BigLockInv ((s.setStatus c st).setPlace c place) := by
  have hself : ((s.setStatus c st).setPlace c place).place c = place := Function.update_self _ _ _
  have hst : ((s.setStatus c st).setPlace c place).cpuStatus c = st := Function.update_self _ _ _
  have hne : ∀ c', c' ≠ c → ((s.setStatus c st).setPlace c place).place c' = s.place c' :=
    fun c' hc => Function.update_of_ne hc _ _
  refine ⟨fun c' hc' => ?_, fun c' => ?_, fun c' hc' => ?_, fun hp => ?_⟩
  · by_cases hc : c' = c
    · subst hc
      rw [hself] at hc' ⊢
      show (s.lock.pc c').Fits (s.lock.acquired c') place.holds
      rw [hpc]
      exact hfits hc'
    · rw [hne c' hc] at hc' ⊢
      exact h.fits c' hc'
  · by_cases hc : c' = c
    · subst hc
      rw [hself, hst]
      exact hstatus
    · rw [hne c' hc, show ((s.setStatus c st).setPlace c place).cpuStatus c' = s.cpuStatus c' from
        Function.update_of_ne hc _ _]
      exact h.status c'
  · by_cases hc : c' = c
    · rw [hc]
      exact hpc
    · rw [hne c' hc] at hc'
      exact h.idle c' hc'
  · obtain ⟨c₀, hc₀, ha⟩ := h.kept hp
    have hc : c₀ ≠ c := fun heq => hold (heq ▸ hc₀)
    exact ⟨c₀, (hne c₀ hc).trans hc₀, ha⟩

omit [DecidableEq X] in
theorem setStatus_self (s : BigLockState C X) (c : C) : s.setStatus c (s.cpuStatus c) = s := by
  unfold BigLockState.setStatus
  rw [Function.update_eq_self]

omit [DecidableEq C] [DecidableEq X] in
/-- A step of the lock leaves everything else. -/
theorem BigLockInv.setLock (h : BigLockInv s)
    (hfits : ∀ c holds, (s.lock.pc c).Fits (s.lock.acquired c) holds →
      (l.pc c).Fits (l.acquired c) holds)
    (hout : ∀ c, s.lock.pc c = .client → l.pc c = .client ∧ l.acquired c = s.lock.acquired c) :
    BigLockInv { s with lock := l } := by
  refine ⟨fun c hc => hfits c _ (h.fits c hc), h.status, fun c hc => (hout c (h.idle c hc)).1,
    fun hp => ?_⟩
  obtain ⟨c, hc, ha⟩ := h.kept hp
  exact ⟨c, hc, (hout c (h.idle c (.inl hc))).2.trans ha⟩

/-- A call of `lock_kernel` without the lock, or of `unlock_kernel` with it. -/
theorem BigLockInv.call (h : BigLockInv s) (st : CpuStatus) (place : Place)
    (hs : (s.setStatus c st).call T c op place = some s') (hold : s.place c ≠ .stopped)
    (hop : op = .spinLock ∧ (s.place c).holds = false ∧ place.holds = true ∨
      op = .spinUnlock ∧ (s.place c).holds = true ∧ place.holds = false)
    (hplace : place ≠ .stopped ∧ place ≠ .off) (hstatus : place.StatusFits st) :
    BigLockInv s' ∧ lockNext T s.lock (.call c op) = some s'.lock := by
  obtain ⟨l, hl, rfl⟩ := Option.map_eq_some_iff.mp hs
  refine ⟨?_, hl⟩
  have hl' : lockNext T s.lock (.call c op) = some l := hl
  unfold lockNext at hl'
  dsimp only at hl'
  split at hl'
  swap
  · cases hl'
  rename_i hpc
  cases hl'
  have hacq : s.lock.acquired c = (s.place c).holds := h.acquired_eq hold hpc
  have hself : Function.update s.place c place c = place := Function.update_self _ _ _
  have hne : ∀ c', c' ≠ c → Function.update s.place c place c' = s.place c' := fun c' hc =>
    Function.update_of_ne hc _ _
  refine ⟨fun c' hc' => ?_, fun c' => ?_, fun c' hc' => ?_, fun hp => ?_⟩
  · show ((s.lock.put c s.lock.machine (.holdingLocked op)).pc c').Fits (s.lock.acquired c')
      (Function.update s.place c place c').holds
    by_cases hc : c' = c
    · subst hc
      rw [LockState.pc_put_self, hself, hacq]
      rcases hop with ⟨rfl, h₁, h₂⟩ | ⟨rfl, h₁, h₂⟩ <;> exact ⟨h₁, h₂⟩
    · rw [LockState.pc_put_ne hc, hne c' hc]
      exact h.fits c' fun heq => hc' ((hne c' hc).trans heq)
  · show (Function.update s.place c place c').StatusFits (Function.update s.cpuStatus c st c')
    by_cases hc : c' = c
    · subst hc
      rw [hself, Function.update_self]
      exact hstatus
    · rw [hne c' hc, Function.update_of_ne hc]
      exact h.status c'
  · have hc : c' ≠ c := by
      rintro rfl
      rcases hc' with hc' | hc'
      · exact hplace.1 (hself.symm.trans hc')
      · exact hplace.2 (hself.symm.trans hc')
    show (s.lock.put c s.lock.machine (.holdingLocked op)).pc c' = .client
    rw [LockState.pc_put_ne hc]
    exact h.idle c' (hc'.imp (hne c' hc).symm.trans (hne c' hc).symm.trans)
  · obtain ⟨c₀, hc₀, ha⟩ := h.kept hp
    have hc : c₀ ≠ c := fun heq => hold (heq ▸ hc₀)
    exact ⟨c₀, (hne c₀ hc).trans hc₀, ha⟩

/-- The first test of `trap` holds of a processor that was halted, and only then. -/
theorem BigLockInv.trapStart (h : BigLockInv s) {fromUser : Bool} (hpc : s.lock.pc c = .client)
    (hplace : s.place c = .user ∧ fromUser = true ∨
      fromUser = false ∧ (s.place c = .halted ∨ s.place c = .kernel))
    (hs : Jos.trapStart T s c fromUser = some s') :
    BigLockInv s' ∧ (s'.lock = s.lock ∨ lockNext T s.lock (.call c .spinLock) = some s'.lock) := by
  have hne : s.place c ≠ .stopped := by
    rcases hplace with ⟨hp, -⟩ | ⟨-, hp | hp⟩ <;> rw [hp] <;> exact Place.noConfusion
  have hacq := h.acquired_eq hne hpc
  have hst := h.status c
  unfold Jos.trapStart at hs
  split at hs
  · cases hs
    have hset := h.setPlace (s.cpuStatus c) hne hpc (fun hx => absurd rfl hx)
      (show Place.stopped.StatusFits _ from trivial)
    rw [setStatus_self] at hset
    exact ⟨hset, .inl rfl⟩
  split at hs
  · rename_i hhalted
    rw [hhalted] at hst
    have hp : s.place c = .halted ∧ fromUser = false := by
      rcases hplace with ⟨hp, -⟩ | ⟨hu, hp | hp⟩
      · rw [hp] at hst
        cases hst
      · exact ⟨hp, hu⟩
      · rw [hp] at hst
        cases hst
    obtain ⟨hi, hl⟩ := h.call .started _ hs hne (.inl ⟨rfl, by rw [hp.1]; rfl, by rw [hp.2]; rfl⟩)
      ⟨Place.noConfusion, Place.noConfusion⟩ rfl
    exact ⟨hi, .inr hl⟩
  · rename_i hhalted
    cases hs
    refine ⟨h.setPlace .started hne hpc (fun _ => hacq.trans ?_) rfl, .inl rfl⟩
    rcases hplace with ⟨hp, rfl⟩ | ⟨rfl, hp | hp⟩ <;> rw [hp]
    · rfl
    · rw [hp] at hst
      exact absurd hst hhalted
    · rfl

/-- Every step keeps the invariant, and is a step of the lock, of a disciplined caller, or none. -/
theorem BigLockInv.next (h : BigLockInv s) (hl : LockInv T s.lock) {ev : BigLockEvent C X}
    (hs : bigLockNext T s ev = some s') : BigLockInv s' ∧ (s'.lock = s.lock ∨
      ∃ e, Disciplined s.lock e ∧ lockNext T s.lock e = some s'.lock) := by
  unfold bigLockNext at hs
  cases ev with
  | drain c =>
      obtain ⟨l, hnext, rfl⟩ := Option.map_eq_some_iff.mp hs
      obtain ⟨m, hm, rfl⟩ := Option.map_eq_some_iff.mp hnext
      exact ⟨h.setLock (fun _ _ hf => hf) fun _ hc => ⟨hc, rfl⟩,
        .inr ⟨LockEvent.drain c, trivial, hnext⟩⟩
  | turn c eip =>
      obtain ⟨l, hnext, rfl⟩ := Option.map_eq_some_iff.mp hs
      refine ⟨h.setLock (fun c' holds hf => ?_) fun c' hc' => ?_,
        .inr ⟨LockEvent.turn c eip, trivial, hnext⟩⟩
      · by_cases hc : c' = c
        · subst hc
          exact hl.turn_fits hnext hf
        · obtain ⟨hpc, hacq⟩ := lockTurn_other hnext hc
          rw [hpc, hacq]
          exact hf
      · by_cases hc : c' = c
        · subst hc
          unfold lockNext lockTurn at hnext
          dsimp only at hnext
          rw [hc'] at hnext
          cases hnext
        · obtain ⟨hpc, hacq⟩ := lockTurn_other hnext hc
          exact ⟨hpc.trans hc', hacq⟩
  | enter c =>
      dsimp only at hs
      split at hs
      · rename_i hp
        obtain ⟨hi, hcall⟩ := h.call .started _ hs (by rw [hp]; exact Place.noConfusion)
          (.inl ⟨rfl, by rw [hp]; rfl, rfl⟩) ⟨Place.noConfusion, Place.noConfusion⟩ rfl
        exact ⟨hi, .inr ⟨LockEvent.call c .spinLock, trivial, hcall⟩⟩
      · cases hs
  | trap c =>
      dsimp only at hs
      split at hs
      · cases hs
      rename_i hpc
      have hentry : ∀ {fromUser}, (s.place c = .user ∧ fromUser = true ∨
          fromUser = false ∧ (s.place c = .halted ∨ s.place c = .kernel)) →
          Jos.trapStart T s c fromUser = some s' → BigLockInv s' ∧ (s'.lock = s.lock ∨
            ∃ e, Disciplined s.lock e ∧ lockNext T s.lock e = some s'.lock) := fun hp hs => by
        obtain ⟨hi, hsame | hcall⟩ := h.trapStart (not_not.mp hpc) hp hs
        · exact ⟨hi, .inl hsame⟩
        · exact ⟨hi, .inr ⟨LockEvent.call c .spinLock, trivial, hcall⟩⟩
      split at hs
      · rename_i hp
        exact hentry (.inl ⟨hp, rfl⟩) hs
      · rename_i hp
        exact hentry (.inr ⟨rfl, .inl hp⟩) hs
      · rename_i hp
        exact hentry (.inr ⟨rfl, .inr hp⟩) hs
      · cases hs
  | dispatch c =>
      dsimp only at hs
      split at hs
      · cases hs
      rename_i hpc
      have hst := h.status c
      split at hs
      · rename_i hp
        rw [hp] at hst
        rw [← setStatus_self s c] at hs
        obtain ⟨hi, hcall⟩ := h.call _ _ hs (by rw [hp]; exact Place.noConfusion)
          (.inl ⟨rfl, by rw [hp]; rfl, rfl⟩) ⟨Place.noConfusion, Place.noConfusion⟩ hst
        exact ⟨hi, .inr ⟨LockEvent.call c .spinLock, trivial, hcall⟩⟩
      · rename_i hp
        rw [hp] at hst
        cases hs
        have hold : s.place c ≠ .stopped := by
          rw [hp]
          exact Place.noConfusion
        have hacq := h.acquired_eq hold (not_not.mp hpc)
        rw [hp] at hacq
        have hset := h.setPlace (s.cpuStatus c) hold (not_not.mp hpc)
          (fun _ => show s.lock.acquired c = Place.kernel.holds from hacq) hst
        rw [setStatus_self] at hset
        exact ⟨hset, .inl rfl⟩
      · cases hs
  | store c x v =>
      dsimp only at hs
      split at hs
      · rename_i hp
        obtain ⟨l, hnext, rfl⟩ := Option.map_eq_some_iff.mp hs
        have hcopy := hnext
        unfold lockNext at hnext
        dsimp only at hnext
        split at hnext
        · rename_i hpc
          cases hnext
          have hacq := h.acquired_eq (by rw [hp]; exact Place.noConfusion) hpc
          rw [hp] at hacq
          have hsame : ∀ c', Function.update s.lock.pc c .client c' = s.lock.pc c' := fun c' => by
            rw [← hpc, Function.update_eq_self]
          refine ⟨h.setLock (fun c' holds hf => ?_) fun c' hc' => ⟨(hsame c').trans hc', rfl⟩,
            .inr ⟨LockEvent.store c x v, hacq, hcopy⟩⟩
          show (Function.update s.lock.pc c .client c').Fits (s.lock.acquired c') holds
          rw [hsame]
          exact hf
        · cases hnext
      · cases hs
  | startap c c' =>
      dsimp only at hs
      split at hs
      · rename_i hcond
        cases hs
        have hpc := h.idle c' (.inr hcond.2.2)
        have hold : s.place c' ≠ .stopped := by
          rw [hcond.2.2]
          exact Place.noConfusion
        have hacq := h.acquired_eq hold hpc
        rw [hcond.2.2] at hacq
        have hset := h.setPlace (s.cpuStatus c') hold hpc
          (fun _ => show s.lock.acquired c' = Place.starting.holds from hacq) trivial
        rw [setStatus_self] at hset
        exact ⟨hset, .inl rfl⟩
      · cases hs
  | envRun c =>
      dsimp only at hs
      split at hs
      · rename_i hp
        have hst := h.status c
        rw [hp] at hst
        rw [← setStatus_self s c] at hs
        obtain ⟨hi, hcall⟩ := h.call _ _ hs (by rw [hp]; exact Place.noConfusion)
          (.inr ⟨rfl, by rw [hp]; rfl, rfl⟩) ⟨Place.noConfusion, Place.noConfusion⟩ hst
        exact ⟨hi, .inr ⟨LockEvent.call c .spinUnlock, trivial, hcall⟩⟩
      · cases hs
  | schedHalt c =>
      dsimp only at hs
      split at hs
      · rename_i hp
        obtain ⟨hi, hcall⟩ := h.call .halted _ hs (by rw [hp]; exact Place.noConfusion)
          (.inr ⟨rfl, by rw [hp]; rfl, rfl⟩) ⟨Place.noConfusion, Place.noConfusion⟩ rfl
        exact ⟨hi, .inr ⟨LockEvent.call c .spinUnlock, trivial, hcall⟩⟩
      · cases hs
  | panic c =>
      dsimp only at hs
      split at hs
      · rename_i hcond
        cases hs
        have hold : s.place c ≠ .stopped := by
          rw [hcond.1]
          exact Place.noConfusion
        have hset := h.setPlace (s.cpuStatus c) hold hcond.2 (fun hx => absurd rfl hx)
          (show Place.stopped.StatusFits _ from trivial)
        rw [setStatus_self] at hset
        have hacq := h.acquired_eq hold hcond.2
        rw [hcond.1] at hacq
        exact ⟨⟨hset.fits, hset.status, hset.idle, fun _ => ⟨c, Function.update_self _ _ _, hacq⟩⟩,
          .inl rfl⟩
      · cases hs

theorem BigLockInv.initial (h : (bigLockSystem T boot).init s) : BigLockInv s := by
  obtain ⟨hlock, hplace, hpanic⟩ := h
  have hat : ∀ c, s.place c = .starting ∨ s.place c = .off := fun c => by
    rw [hplace]
    split
    · exact .inl rfl
    · exact .inr rfl
  refine ⟨fun c _ => ?_, fun c => ?_, fun c _ => (hlock.2.2.1 c).2.1, fun hp => ?_⟩
  · rw [(hlock.2.2.1 c).2.1, (hlock.2.2.1 c).2.2]
    rcases hat c with hp | hp <;> rw [hp] <;> rfl
  · rcases hat c with hp | hp <;> rw [hp] <;> trivial
  · rw [hpanic] at hp
    cases hp

/-- A run of the kernel is one of the lock, by callers that store only while they have it. -/
theorem bigLock_reach (h : Reach (bigLockSystem T boot) anyEvent s) :
    BigLockInv s ∧ Reach (lockSystem T) Disciplined s.lock := by
  refine h.invariant (P := fun s => BigLockInv s ∧ Reach (lockSystem T) Disciplined s.lock)
    (fun _ hi => ⟨.initial hi, .init hi.1⟩) fun s _ s' hi _ hs => ?_
  obtain ⟨hinv, hrun⟩ := hi
  obtain ⟨hinv', hsame | ⟨e, hok, hnext⟩⟩ := hinv.next (lockInv_reach hrun) hs
  · exact ⟨hinv', hsame ▸ hrun⟩
  · exact ⟨hinv', hrun.step hok hnext⟩

/-! ## One processor at a time -/

/-- Processor `c` runs what the lock is there for. -/
def BigLockState.InKernel (s : BigLockState C X) (c : C) : Prop :=
  s.place c = .kernel ∧ s.lock.pc c = .client

omit [DecidableEq C] [DecidableEq X] in
theorem BigLockInv.acquired_of_inKernel (h : BigLockInv s) (hc : s.InKernel c) :
    s.lock.acquired c = true := by
  have hacq := h.acquired_eq (by rw [hc.1]; exact Place.noConfusion) hc.2
  rw [hc.1] at hacq
  exact hacq

/-- No two processors are in the kernel, none panics in `spin_lock` or `spin_unlock`, and once
one has called `panic` none is in the kernel any more. -/
theorem kernel_exclusive (h : Reach (bigLockSystem T boot) anyEvent s) :
    (∀ c c', s.InKernel c → s.InKernel c' → c = c') ∧ (∀ c, s.lock.pc c ≠ .panicked) ∧
      (s.panicstr = true → ∀ c, ¬ s.InKernel c) := by
  obtain ⟨hi, hrun⟩ := bigLock_reach h
  have hl := lockInv_reach hrun
  refine ⟨fun c c' hc hc' => ?_, fun c hp => ?_, fun hpanic c hc => ?_⟩
  · exact hl.one c c' (hi.acquired_of_inKernel hc) (hi.acquired_of_inKernel hc')
  · by_cases hstop : s.place c = .stopped
    · rw [hi.idle c (.inl hstop)] at hp
      cases hp
    · have hf := hi.fits c hstop
      rw [hp] at hf
      exact hf
  · obtain ⟨c₀, hc₀, ha⟩ := hi.kept hpanic
    have heq : c₀ = c := hl.one c₀ c ha (hi.acquired_of_inKernel hc)
    rw [heq, hc.1] at hc₀
    cases hc₀

/-- The processor in the kernel finds what was stored last, by whichever processor. -/
theorem kernel_latest (h : Reach (bigLockSystem T boot) anyEvent s) (hc : s.InKernel c) (x : X) :
    s.lock.machine.view c (.data x) = s.lock.latest x := by
  obtain ⟨hi, hrun⟩ := bigLock_reach h
  exact (dataInv_reach hrun).held c x (hi.acquired_of_inKernel hc)

end

/-! ## Two processors -/

def twoOff : BigLockState Bool Unit where
  lock := freeLock
  place := fun c => if c = false then .starting else .off
  cpuStatus := fun _ => .unused
  panicstr := false

theorem twoOff_init : (bigLockSystem twoCpus false).init twoOff :=
  ⟨freeLock_init, fun _ => rfl, rfl⟩

def turns (c : Bool) (n : Nat) : List (BigLockEvent Bool Unit) := List.replicate n (.turn c 0#32)

/-- The second processor starts and waits while the first has the lock, which it gives back when
it goes to user mode. -/
def handOver : List (BigLockEvent Bool Unit) :=
  .enter false :: turns false 13 ++ [.store false () 7#32, .startap false true, .enter true] ++
    turns true 3 ++ .envRun false :: turns false 4 ++ List.replicate 14 (.drain false) ++
    turns false 1 ++ turns true 12

theorem exists_handOver : ∃ s, Reach (bigLockSystem twoCpus false) anyEvent s ∧ s.InKernel true ∧
    s.lock.latest () = 7#32 := by
  have hrun : ((handOver.foldlM (bigLockNext twoCpus) twoOff).map fun s =>
      (s.place true, s.lock.pc true, s.lock.latest ())) = some (.kernel, .client, 7#32) := by
    decide +kernel
  obtain ⟨s, hs, hend⟩ := Option.map_eq_some_iff.mp hrun
  obtain ⟨hplace, hrest⟩ := Prod.mk.inj hend
  obtain ⟨hpc, hlatest⟩ := Prod.mk.inj hrest
  have hreach : Reach (bigLockSystem twoCpus false) anyEvent s :=
    (Reach.init twoOff_init).foldlM (fun _ _ _ _ hn => ⟨trivial, hn⟩) hs
  exact ⟨s, hreach, ⟨hplace, hpc⟩, hlatest⟩

theorem kernel_exclusive_two : ∃ s : BigLockState Bool Unit, s.InKernel true ∧
    (∀ c c', s.InKernel c → s.InKernel c' → c = c') ∧ (∀ c, s.lock.pc c ≠ .panicked) ∧
      (s.panicstr = true → ∀ c, ¬ s.InKernel c) := by
  obtain ⟨s, hreach, hc, -⟩ := exists_handOver
  exact ⟨s, hc, kernel_exclusive hreach⟩

theorem kernel_latest_two : ∃ s : BigLockState Bool Unit, s.lock.latest () = 7#32 ∧
    s.lock.machine.view true (.data ()) = s.lock.latest () := by
  obtain ⟨s, hreach, hc, hlatest⟩ := exists_handOver
  exact ⟨s, hlatest, kernel_latest hreach hc ()⟩

end Jos
end Sisop

import Sisop.Lib.Tso
import Sisop.Lib.Reach

/-!
# The big kernel lock

`kern/spinlock.c` with `DEBUG_SPINLOCK`, on processors that hold back their stores.  Each load
and store of `spin_lock` and `spin_unlock` is a step, and so are the stores that reach memory;
the `xchg` is a locked exchange.  Any processor calls any of the two functions at any time, so
that what a wrong caller does is a run too.

`holding` loads two fields that other processors are storing to.  It is right all the same: no
other processor stores this one's address to `cpu`, and this one's own stores are in memory
once its `xchg` has released the lock.
-/

namespace Sisop
namespace Jos

open TransitionSystem Tso

/-- A field of `struct spinlock`, or what it protects. -/
inductive LockLoc (X : Type)
  | locked
  | cpu
  | pcs (i : Nat)
  | data (x : X)
  deriving DecidableEq

inductive LockOp
  | spinLock
  | spinUnlock
  deriving DecidableEq, Repr

/-- Where a processor is: outside, at one of the two loads of `holding`, or at one of the
stores of the function it is in. -/
inductive LockPc
  | client
  | holdingLocked (op : LockOp)
  | holdingCpu (op : LockOp)
  | spin
  | setCpu
  | setPcs (i : Nat)
  | clearPcs
  | clearCpu
  | release
  | panicked
  deriving DecidableEq, Repr

/-- The addresses of the `CpuInfo` of the processors. -/
structure CpuTable (C : Type) where
  thiscpu : C → BitVec 32
  injective : Function.Injective thiscpu
  ne_null : ∀ c, thiscpu c ≠ 0#32

/-- `acquired` and `latest` are records that the code does not keep: the processors whose last
exchange took the lock, and what was stored last. -/
structure LockState (C X : Type) where
  machine : StoreBuffers C (LockLoc X) (BitVec 32)
  pc : C → LockPc
  acquired : C → Bool
  latest : X → BitVec 32

inductive LockEvent (C X : Type)
  | drain (c : C)
  | call (c : C) (op : LockOp)
  | store (c : C) (x : X) (v : BitVec 32)
  | turn (c : C) (eip : BitVec 32)

/-- What follows a call of `holding`. -/
def afterHolding : LockOp → Bool → LockPc
  | .spinLock, true => .panicked
  | .spinLock, false => .spin
  | .spinUnlock, true => .clearPcs
  | .spinUnlock, false => .panicked

section

variable {C X : Type} [DecidableEq C] [DecidableEq X]

/-- Processor `c` is at `pc`, with memory `m`. -/
def LockState.put (s : LockState C X) (c : C) (m : StoreBuffers C (LockLoc X) (BitVec 32))
    (pc : LockPc) :
    LockState C X :=
  { s with machine := m, pc := Function.update s.pc c pc }

/-- The next step of processor `c` in `spin_lock` or `spin_unlock`; `eip` is what
`get_caller_pcs` finds. -/
def lockTurn (T : CpuTable C) (s : LockState C X) (c : C) (eip : BitVec 32) :
    Option (LockState C X) :=
  let m := s.machine
  match s.pc c with
  | .client | .panicked => none
  | .holdingLocked op =>
      some (s.put c m (if m.view c .locked ≠ 0#32 then .holdingCpu op else afterHolding op false))
  | .holdingCpu op => some (s.put c m (afterHolding op (m.view c .cpu == T.thiscpu c)))
  | .spin =>
      match m.xchg c .locked 1#32 with
      | none => none
      | some (old, m) =>
          if old ≠ 0#32 then some (s.put c m .spin)
          else some { s.put c m .setCpu with acquired := Function.update s.acquired c true }
  | .setCpu => some (s.put c (m.store c .cpu (T.thiscpu c)) (.setPcs 0))
  | .setPcs i =>
      some (s.put c (m.store c (.pcs i) eip) (if i + 1 < 10 then .setPcs (i + 1) else .client))
  | .clearPcs => some (s.put c (m.store c (.pcs 0) 0#32) .clearCpu)
  | .clearCpu => some (s.put c (m.store c .cpu 0#32) .release)
  | .release =>
      match m.xchg c .locked 0#32 with
      | none => none
      | some (_, m) =>
          some { s.put c m .client with acquired := Function.update s.acquired c false }

def lockNext (T : CpuTable C) (s : LockState C X) : LockEvent C X → Option (LockState C X)
  | .drain c => (s.machine.drain c).map fun m => { s with machine := m }
  | .call c op =>
      if s.pc c = .client then some (s.put c s.machine (.holdingLocked op)) else none
  | .store c x v =>
      if s.pc c = .client then
        some { s.put c (s.machine.store c (.data x) v) .client with
          latest := Function.update s.latest x v }
      else none
  | .turn c eip => lockTurn T s c eip

/-- The kernel lock is free to begin with. -/
def lockSystem (T : CpuTable C) : TransitionSystem (LockState C X) (LockEvent C X) where
  init s := s.machine.memory .locked = 0#32 ∧ s.machine.memory .cpu = 0#32 ∧
    (∀ c, s.machine.buffer c = [] ∧ s.pc c = .client ∧ s.acquired c = false) ∧
      ∀ x, s.machine.memory (.data x) = s.latest x
  step s ev s' := lockNext T s ev = some s'

/-! ## The invariant -/

/-- The processor is past the exchange that took the lock. -/
def LockPc.Inside : LockPc → Prop
  | .setCpu | .setPcs _ | .clearPcs | .clearCpu | .release => True
  | _ => False

/-- The processor has its address in `cpu`, if it has the lock. -/
def LockPc.Shows : LockPc → Prop
  | .setCpu | .release => False
  | _ => True

structure LockInv (T : CpuTable C) (s : LockState C X) : Prop where
  one : ∀ c c', s.acquired c = true → s.acquired c' = true → c = c'
  locked : s.machine.memory .locked ≠ 0#32 ↔ ∃ c, s.acquired c = true
  exchanged : ∀ c, ¬ s.machine.Pending c .locked
  quiet : ∀ c, s.acquired c = false → ¬ s.machine.Pending c .cpu
  values : ∀ c v, (.cpu, v) ∈ s.machine.buffer c → v = T.thiscpu c ∨ v = 0#32
  foreign : ∀ c, s.acquired c = false → s.machine.memory .cpu ≠ T.thiscpu c
  inside : ∀ c, (s.pc c).Inside → s.acquired c = true
  outside : ∀ c, s.pc c = .spin → s.acquired c = false
  shows : ∀ c, s.acquired c = true → (s.pc c).Shows → s.machine.view c .cpu = T.thiscpu c
  cleared : ∀ c, s.pc c = .release → s.machine.view c .cpu = 0#32

variable {T : CpuTable C} {s s' : LockState C X} {c c' : C} {op : LockOp} {pc : LockPc}
  {m : StoreBuffers C (LockLoc X) (BitVec 32)}

omit [DecidableEq C] [DecidableEq X] in
theorem LockLoc.cpu_ne_locked : (.cpu : LockLoc X) ≠ .locked := by
  rintro ⟨⟩

omit [DecidableEq C] [DecidableEq X] in
theorem LockLoc.pcs_ne (i : Nat) : (.pcs i : LockLoc X) ≠ .locked ∧ (.pcs i : LockLoc X) ≠ .cpu := by
  constructor <;> rintro ⟨⟩

omit [DecidableEq C] [DecidableEq X] in
theorem LockLoc.data_ne (x : X) : (.data x : LockLoc X) ≠ .locked ∧ (.data x : LockLoc X) ≠ .cpu := by
  constructor <;> rintro ⟨⟩

omit [DecidableEq X] in
theorem LockState.pc_put_self (s : LockState C X) (c : C) (m : StoreBuffers C (LockLoc X) (BitVec 32))
    (pc : LockPc) : (s.put c m pc).pc c = pc := Function.update_self _ _ _

omit [DecidableEq X] in
theorem LockState.pc_put_ne (h : c' ≠ c) (s : LockState C X)
    (m : StoreBuffers C (LockLoc X) (BitVec 32)) (pc : LockPc) : (s.put c m pc).pc c' = s.pc c' :=
  Function.update_of_ne h _ _

/-- Memory keeps what it holds, and the stores on their way are those of `c` and those that
were. -/
theorem LockInv.put (h : LockInv T s) (hmem : m.memory = s.machine.memory)
    (hbuf : ∀ c', c' ≠ c → m.buffer c' = s.machine.buffer c') (hlocked : ¬ m.Pending c .locked)
    (hquiet : s.acquired c = false → ¬ m.Pending c .cpu)
    (hvalues : ∀ v, (.cpu, v) ∈ m.buffer c → v = T.thiscpu c ∨ v = 0#32)
    (hinside : pc.Inside → s.acquired c = true) (houtside : pc = .spin → s.acquired c = false)
    (hshows : s.acquired c = true → pc.Shows → m.view c .cpu = T.thiscpu c)
    (hcleared : pc = .release → m.view c .cpu = 0#32) : LockInv T (s.put c m pc) := by
  have hview : ∀ c', c' ≠ c → m.view c' .cpu = s.machine.view c' .cpu := fun c' hc =>
    StoreBuffers.view_congr (hbuf c' hc) (congrFun hmem _)
  have hpending : ∀ c' x, c' ≠ c → (m.Pending c' x ↔ s.machine.Pending c' x) := fun c' x hc => by
    unfold StoreBuffers.Pending
    rw [hbuf c' hc]
  refine ⟨h.one, ?_, fun c' => ?_, fun c' hc' => ?_, fun c' v hv => ?_, fun c' hc' => ?_,
    fun c' hc' => ?_, fun c' hc' => ?_, fun c' ha hc' => ?_, fun c' hc' => ?_⟩
  · show m.memory _ ≠ _ ↔ _
    rw [hmem]
    exact h.locked
  · by_cases hc : c' = c
    · exact hc ▸ hlocked
    · exact fun hp => h.exchanged c' ((hpending c' _ hc).mp hp)
  · by_cases hc : c' = c
    · subst hc
      exact hquiet hc'
    · exact fun hp => h.quiet c' hc' ((hpending c' _ hc).mp hp)
  · by_cases hc : c' = c
    · subst hc
      exact hvalues v hv
    · exact h.values c' v (hbuf c' hc ▸ hv)
  · show m.memory _ ≠ _
    rw [hmem]
    exact h.foreign c' hc'
  · by_cases hc : c' = c
    · subst hc
      rw [LockState.pc_put_self] at hc'
      exact hinside hc'
    · rw [LockState.pc_put_ne hc] at hc'
      exact h.inside c' hc'
  · by_cases hc : c' = c
    · subst hc
      rw [LockState.pc_put_self] at hc'
      exact houtside hc'
    · rw [LockState.pc_put_ne hc] at hc'
      exact h.outside c' hc'
  · by_cases hc : c' = c
    · subst hc
      rw [LockState.pc_put_self] at hc'
      exact hshows ha hc'
    · rw [LockState.pc_put_ne hc] at hc'
      exact (hview c' hc).trans (h.shows c' ha hc')
  · by_cases hc : c' = c
    · subst hc
      rw [LockState.pc_put_self] at hc'
      exact hcleared hc'
    · rw [LockState.pc_put_ne hc] at hc'
      exact (hview c' hc).trans (h.cleared c' hc')

/-- A step that stores nothing. -/
theorem LockInv.move (h : LockInv T s) (hinside : pc.Inside → s.acquired c = true)
    (houtside : pc = .spin → s.acquired c = false)
    (hshows : s.acquired c = true → pc.Shows → s.machine.view c .cpu = T.thiscpu c)
    (hcleared : pc ≠ .release) : LockInv T (s.put c s.machine pc) :=
  h.put rfl (fun _ _ => rfl) (h.exchanged c) (h.quiet c) (h.values c) hinside houtside hshows
    fun heq => absurd heq hcleared

/-- A store that is not to `cpu`. -/
theorem LockInv.store (h : LockInv T s) {x : LockLoc X} (hx : x ≠ .locked) (hx' : x ≠ .cpu)
    (v : BitVec 32) (hinside : pc.Inside → s.acquired c = true) (houtside : pc ≠ .spin)
    (hshows : s.acquired c = true → s.machine.view c .cpu = T.thiscpu c) (hcleared : pc ≠ .release) :
    LockInv T (s.put c (s.machine.store c x v) pc) := by
  refine h.put rfl (fun c' hc => StoreBuffers.buffer_store_ne hc) (fun hp => ?_) (fun ha hp => ?_)
    (fun u hu => ?_) hinside (fun heq => absurd heq houtside) (fun ha _ => ?_)
    fun heq => absurd heq hcleared
  · rcases StoreBuffers.pending_store.mp hp with hp | ⟨-, heq⟩
    · exact h.exchanged c hp
    · exact hx heq.symm
  · rcases StoreBuffers.pending_store.mp hp with hp | ⟨-, heq⟩
    · exact h.quiet c ha hp
    · exact hx' heq.symm
  · rcases StoreBuffers.mem_buffer_store.mp hu with hu | ⟨-, heq⟩
    · exact h.values c u hu
    · exact absurd (congrArg Prod.fst heq).symm hx'
  · rw [StoreBuffers.view_store_self, Function.update_of_ne hx'.symm]
    exact hshows ha

/-- A store to `cpu`, by the processor that has the lock. -/
theorem LockInv.storeCpu (h : LockInv T s) (ha : s.acquired c = true) {v : BitVec 32}
    (hv : v = T.thiscpu c ∨ v = 0#32) (houtside : pc ≠ .spin)
    (hshows : pc.Shows → v = T.thiscpu c) (hcleared : pc = .release → v = 0#32) :
    LockInv T (s.put c (s.machine.store c .cpu v) pc) := by
  have hview : (s.machine.store c .cpu v).view c .cpu = v := by
    rw [StoreBuffers.view_store_self, Function.update_self]
  refine h.put rfl (fun c' hc => StoreBuffers.buffer_store_ne hc) (fun hp => ?_)
    (fun hf => ?_) (fun u hu => ?_) (fun _ => ha) (fun heq => absurd heq houtside)
    (fun _ hs => hview.trans (hshows hs)) fun heq => hview.trans (hcleared heq)
  · rcases StoreBuffers.pending_store.mp hp with hp | ⟨-, heq⟩
    · exact h.exchanged c hp
    · cases heq
  · rw [ha] at hf
    cases hf
  · rcases StoreBuffers.mem_buffer_store.mp hu with hu | ⟨-, heq⟩
    · exact h.values c u hu
    · cases heq
      exact hv

/-! ## Steps -/

/-- A store that reaches memory is of the processor with the lock, if it is to a field. -/
theorem LockInv.drain (h : LockInv T s) (hd : s.machine.drain c = some m) :
    LockInv T { s with machine := m } := by
  have hpending : ∀ {c'}, s.acquired c' = true → c' ≠ c → ¬ s.machine.Pending c .cpu :=
    fun ha hc hp => by
      cases hac : s.acquired c with
      | false => exact h.quiet c hac hp
      | true => exact hc (h.one _ _ ha hac)
  have hview : ∀ c', s.acquired c' = true → m.view c' .cpu = s.machine.view c' .cpu := by
    intro c' ha
    by_cases hc : c' = c
    · rw [hc, StoreBuffers.view_drain_self hd]
    · exact StoreBuffers.view_drain_ne hd hc (hpending ha hc)
  refine ⟨h.one, ?_, fun c' hp => h.exchanged c' (hp.of_drain hd),
    fun c' ha hp => h.quiet c' ha (hp.of_drain hd),
    fun c' v hv => h.values c' v (StoreBuffers.mem_buffer_drain hd hv), fun c' ha => ?_, h.inside,
    h.outside, fun c' ha hs => (hview c' ha).trans (h.shows c' ha hs), fun c' hc => ?_⟩
  · rcases StoreBuffers.memory_drain hd (x := .locked) with heq | hin
    · show m.memory _ ≠ _ ↔ _
      rw [heq]
      exact h.locked
    · exact absurd ⟨_, hin⟩ (h.exchanged c)
  · show m.memory _ ≠ _
    rcases StoreBuffers.memory_drain hd (x := .cpu) with heq | hin
    · rw [heq]
      exact h.foreign c' ha
    · have hne : c ≠ c' := fun hc => h.quiet c' ha ⟨_, hc ▸ hin⟩
      rcases h.values c _ hin with heq | heq <;> rw [heq]
      · exact fun hx => hne (T.injective hx)
      · exact (T.ne_null c').symm
  · have ha := h.inside c' (by rw [show s.pc c' = .release from hc]; trivial)
    exact (hview c' ha).trans (h.cleared c' hc)

omit [DecidableEq C] in
/-- What `holding` returns is whether the processor has the lock. -/
theorem LockInv.holding (h : LockInv T s) :
    (s.acquired c = true → s.machine.view c .locked ≠ 0#32) ∧
      (s.acquired c = false → s.machine.view c .cpu ≠ T.thiscpu c) := by
  refine ⟨fun ha => ?_, fun ha => ?_⟩
  · rw [StoreBuffers.view_of_not_pending (h.exchanged c)]
    exact h.locked.mpr ⟨c, ha⟩
  · rw [StoreBuffers.view_of_not_pending (h.quiet c ha)]
    exact h.foreign c ha

/-- A locked exchange of processor `c`, after which it has the lock or not. -/
theorem LockInv.exchange (h : LockInv T s) {v old : BitVec 32} {acq : Bool}
    (hx : s.machine.xchg c .locked v = some (old, m))
    (hlocked : v ≠ 0#32 ↔ ∃ c', Function.update s.acquired c acq c' = true)
    (hone : acq = true → ∀ c', s.acquired c' = true → c' = c)
    (hforeign : acq = false → s.machine.memory .cpu ≠ T.thiscpu c)
    (hinside : pc.Inside → acq = true) (houtside : pc = .spin → acq = false)
    (hshows : acq = true → ¬ pc.Shows) (hcleared : pc ≠ .release) :
    LockInv T { s.put c m pc with acquired := Function.update s.acquired c acq } := by
  obtain ⟨hempty, -, hmem, hbuf⟩ := StoreBuffers.xchg_eq_some hx
  have hpending : ∀ c' x, m.Pending c' x ↔ s.machine.Pending c' x := fun c' x => by
    unfold StoreBuffers.Pending
    rw [hbuf]
  have hcpu : m.memory .cpu = s.machine.memory .cpu := by
    rw [hmem, Function.update_of_ne LockLoc.cpu_ne_locked]
  have hview : ∀ c', m.view c' .cpu = s.machine.view c' .cpu := fun c' =>
    StoreBuffers.view_congr (congrFun hbuf c') hcpu
  have hself : Function.update s.acquired c acq c = acq := Function.update_self _ _ _
  have hother : ∀ c', c' ≠ c → Function.update s.acquired c acq c' = s.acquired c' := fun c' hc =>
    Function.update_of_ne hc _ _
  refine ⟨fun c₁ c₂ h₁ h₂ => ?_, ?_, fun c' hp => h.exchanged c' ((hpending _ _).mp hp),
    fun c' ha hp => ?_, fun c' u hu => h.values c' u (hbuf ▸ hu), fun c' ha => ?_, fun c' hc' => ?_,
    fun c' hc' => ?_, fun c' ha hc' => ?_, fun c' hc' => ?_⟩
  · dsimp only at h₁ h₂
    by_cases hc₁ : c₁ = c
    · by_cases hc₂ : c₂ = c
      · rw [hc₁, hc₂]
      · rw [hother c₂ hc₂] at h₂
        rw [hc₁, hself] at h₁
        rw [hc₁, hone h₁ c₂ h₂]
    · rw [hother c₁ hc₁] at h₁
      by_cases hc₂ : c₂ = c
      · rw [hc₂, hself] at h₂
        rw [hc₂, hone h₂ c₁ h₁]
      · rw [hother c₂ hc₂] at h₂
        exact h.one _ _ h₁ h₂
  · show m.memory _ ≠ _ ↔ _
    rw [hmem, Function.update_self]
    exact hlocked
  · dsimp only at ha
    by_cases hc : c' = c
    · subst hc
      obtain ⟨u, hu⟩ := (hpending _ _).mp hp
      rw [hempty] at hu
      cases hu
    · rw [hother c' hc] at ha
      exact h.quiet c' ha ((hpending _ _).mp hp)
  · dsimp only at ha
    show m.memory _ ≠ _
    rw [hcpu]
    by_cases hc : c' = c
    · subst hc
      exact hforeign (hself.symm.trans ha)
    · exact h.foreign c' ((hother c' hc).symm.trans ha)
  · dsimp only
    by_cases hc : c' = c
    · subst hc
      rw [hself]
      exact hinside (LockState.pc_put_self s c' m pc ▸ hc')
    · rw [hother c' hc]
      exact h.inside c' (LockState.pc_put_ne hc s m pc ▸ hc')
  · dsimp only
    by_cases hc : c' = c
    · subst hc
      rw [hself]
      exact houtside ((LockState.pc_put_self s c' m pc).symm.trans hc')
    · rw [hother c' hc]
      exact h.outside c' ((LockState.pc_put_ne hc s m pc).symm.trans hc')
  · dsimp only at ha
    by_cases hc : c' = c
    · subst hc
      exact absurd (LockState.pc_put_self s c' m pc ▸ hc') (hshows (hself.symm.trans ha))
    · exact (hview c').trans (h.shows c' ((hother c' hc).symm.trans ha)
        (LockState.pc_put_ne hc s m pc ▸ hc'))
  · by_cases hc : c' = c
    · subst hc
      exact absurd ((LockState.pc_put_self s c' m pc).symm.trans hc') hcleared
    · exact (hview c').trans (h.cleared c' ((LockState.pc_put_ne hc s m pc).symm.trans hc'))

/-- The exchange of `spin_lock`: the lock was free, or it goes round again. -/
theorem LockInv.acquire (h : LockInv T s) (hpc : s.pc c = .spin) {old : BitVec 32}
    (hx : s.machine.xchg c .locked 1#32 = some (old, m)) :
    (old ≠ 0#32 → LockInv T (s.put c m .spin)) ∧
      (old = 0#32 → (∀ c', s.acquired c' = false) ∧
        LockInv T { s.put c m .setCpu with acquired := Function.update s.acquired c true }) := by
  have ha := h.outside c hpc
  obtain ⟨-, rfl, -, -⟩ := StoreBuffers.xchg_eq_some hx
  constructor
  · intro hold
    have hsame : Function.update s.acquired c false = s.acquired := by
      rw [← ha, Function.update_eq_self]
    have hinv : LockInv T { s.put c m .spin with acquired := Function.update s.acquired c false } := by
      refine h.exchange hx (iff_of_true (by decide) ?_) (fun hf => absurd hf Bool.false_ne_true)
        (fun _ => h.foreign c ha) (fun hp => hp.elim) (fun _ => rfl)
        (fun hf => absurd hf Bool.false_ne_true) LockPc.noConfusion
      rw [hsame]
      exact h.locked.mp hold
    rwa [hsame] at hinv
  · intro hold
    have hnone : ∀ c', s.acquired c' = false := fun c' =>
      Bool.eq_false_iff.mpr fun ht => h.locked.mpr ⟨c', ht⟩ hold
    refine ⟨hnone, h.exchange hx (iff_of_true (by decide) ⟨c, Function.update_self _ _ _⟩)
      (fun _ c' ht => ?_) (fun hf => absurd hf.symm Bool.false_ne_true) (fun _ => rfl)
      (fun heq => LockPc.noConfusion heq) (fun _ hp => hp) LockPc.noConfusion⟩
    rw [hnone c'] at ht
    cases ht

/-- The exchange of `spin_unlock`: now nobody has the lock. -/
theorem LockInv.release (h : LockInv T s) (hpc : s.pc c = .release) {old : BitVec 32}
    (hx : s.machine.xchg c .locked 0#32 = some (old, m)) :
    (∀ c', Function.update s.acquired c false c' = false) ∧
      LockInv T { s.put c m .client with acquired := Function.update s.acquired c false } := by
  have ha : s.acquired c = true := h.inside c (by rw [hpc]; trivial)
  obtain ⟨hempty, -, -, -⟩ := StoreBuffers.xchg_eq_some hx
  have hnone : ∀ c', Function.update s.acquired c false c' = false := by
    intro c'
    by_cases hc : c' = c
    · rw [hc, Function.update_self]
    · rw [Function.update_of_ne hc]
      exact Bool.eq_false_iff.mpr fun ht => hc (h.one _ _ ht ha)
  refine ⟨hnone, h.exchange hx (iff_of_false (fun hne => hne rfl) ?_)
    (fun hf => absurd hf Bool.false_ne_true) (fun _ => ?_) (fun hp => hp.elim)
    (fun heq => LockPc.noConfusion heq) (fun hf => absurd hf Bool.false_ne_true)
    LockPc.noConfusion⟩
  · rintro ⟨c', ht⟩
    rw [hnone c'] at ht
    cases ht
  · have hview : s.machine.view c .cpu = s.machine.memory .cpu := by
      rw [StoreBuffers.view_of_not_pending]
      rintro ⟨u, hu⟩
      rw [hempty] at hu
      cases hu
    rw [← hview, h.cleared c hpc]
    exact (T.ne_null c).symm

theorem LockInv.turn (h : LockInv T s) {eip : BitVec 32} (hs : lockTurn T s c eip = some s') :
    LockInv T s' := by
  obtain ⟨hlocked, hcpu⟩ := h.holding (c := c)
  unfold lockTurn at hs
  dsimp only at hs
  cases hpc : s.pc c with
  | client | panicked =>
      rw [hpc] at hs
      cases hs
  | holdingLocked op =>
      rw [hpc] at hs
      cases hs
      have hshows := fun ha => h.shows c ha (by rw [hpc]; trivial)
      split
      · exact h.move (fun hp => hp.elim) LockPc.noConfusion (fun ha _ => hshows ha)
          LockPc.noConfusion
      · rename_i hz
        have ha : s.acquired c = false := Bool.eq_false_iff.mpr fun ht => hz (hlocked ht)
        cases op with
        | spinLock =>
            show LockInv T (s.put c s.machine .spin)
            exact h.move (fun hp => hp.elim) (fun _ => ha) (fun ha _ => hshows ha) LockPc.noConfusion
        | spinUnlock =>
            show LockInv T (s.put c s.machine .panicked)
            exact h.move (fun hp => hp.elim) LockPc.noConfusion (fun ha _ => hshows ha)
              LockPc.noConfusion
  | holdingCpu op =>
      rw [hpc] at hs
      cases hs
      have hshows := fun ha => h.shows c ha (by rw [hpc]; trivial)
      cases hheld : s.machine.view c .cpu == T.thiscpu c with
      | false =>
          have ha : s.acquired c = false := Bool.eq_false_iff.mpr fun ht =>
            beq_eq_false_iff_ne.mp hheld (hshows ht)
          cases op with
          | spinLock =>
              show LockInv T (s.put c s.machine .spin)
              exact h.move (fun hp => hp.elim) (fun _ => ha) (fun ha _ => hshows ha)
                LockPc.noConfusion
          | spinUnlock =>
              show LockInv T (s.put c s.machine .panicked)
              exact h.move (fun hp => hp.elim) LockPc.noConfusion (fun ha _ => hshows ha)
                LockPc.noConfusion
      | true =>
          have ha : s.acquired c = true := eq_true_of_ne_false fun hf =>
            hcpu hf (beq_iff_eq.mp hheld)
          cases op with
          | spinLock =>
              show LockInv T (s.put c s.machine .panicked)
              exact h.move (fun hp => hp.elim) LockPc.noConfusion (fun ha _ => hshows ha)
                LockPc.noConfusion
          | spinUnlock =>
              show LockInv T (s.put c s.machine .clearPcs)
              exact h.move (fun _ => ha) LockPc.noConfusion (fun ha _ => hshows ha)
                LockPc.noConfusion
  | spin =>
      rw [hpc] at hs
      dsimp only at hs
      cases hx : s.machine.xchg c .locked 1#32 with
      | none =>
          rw [hx] at hs
          cases hs
      | some x =>
          obtain ⟨hagain, hgot⟩ := h.acquire hpc hx
          rw [hx] at hs
          dsimp only at hs
          split at hs
          · rename_i hold
            cases hs
            exact hagain hold
          · rename_i hold
            cases hs
            exact (hgot (not_not.mp hold)).2
  | setCpu =>
      have ha := h.inside c (by rw [hpc]; trivial)
      rw [hpc] at hs
      cases hs
      exact h.storeCpu ha (.inl rfl) LockPc.noConfusion (fun _ => rfl)
        fun heq => LockPc.noConfusion heq
  | setPcs i =>
      have ha := h.inside c (by rw [hpc]; trivial)
      have hshows := h.shows c ha (by rw [hpc]; trivial)
      rw [hpc] at hs
      cases hs
      split
      · exact h.store (LockLoc.pcs_ne _).1 (LockLoc.pcs_ne _).2 eip (fun _ => ha) LockPc.noConfusion
          (fun _ => hshows) LockPc.noConfusion
      · exact h.store (LockLoc.pcs_ne _).1 (LockLoc.pcs_ne _).2 eip (fun _ => ha) LockPc.noConfusion
          (fun _ => hshows) LockPc.noConfusion
  | clearPcs =>
      have ha := h.inside c (by rw [hpc]; trivial)
      have hshows := h.shows c ha (by rw [hpc]; trivial)
      rw [hpc] at hs
      cases hs
      exact h.store (LockLoc.pcs_ne _).1 (LockLoc.pcs_ne _).2 _ (fun _ => ha) LockPc.noConfusion
        (fun _ => hshows) LockPc.noConfusion
  | clearCpu =>
      have ha := h.inside c (by rw [hpc]; trivial)
      rw [hpc] at hs
      cases hs
      exact h.storeCpu ha (.inr rfl) LockPc.noConfusion (fun hp => hp.elim) fun _ => rfl
  | release =>
      rw [hpc] at hs
      dsimp only at hs
      cases hx : s.machine.xchg c .locked 0#32 with
      | none =>
          rw [hx] at hs
          cases hs
      | some x =>
          rw [hx] at hs
          cases hs
          exact (h.release hpc hx).2

theorem LockInv.next (h : LockInv T s) {ev : LockEvent C X} (hs : lockNext T s ev = some s') :
    LockInv T s' := by
  unfold lockNext at hs
  cases ev with
  | drain c =>
      obtain ⟨m, hm, rfl⟩ := Option.map_eq_some_iff.mp hs
      exact h.drain hm
  | call c op =>
      dsimp only at hs
      split at hs
      · rename_i hpc
        cases hs
        exact h.move (fun hp => hp.elim) LockPc.noConfusion
          (fun ha _ => h.shows c ha (by rw [hpc]; trivial)) LockPc.noConfusion
      · cases hs
  | store c x v =>
      dsimp only at hs
      split at hs
      · rename_i hpc
        cases hs
        have hput := h.store (LockLoc.data_ne x).1 (LockLoc.data_ne x).2 v
          (fun hp : LockPc.Inside .client => hp.elim) LockPc.noConfusion
          (fun ha => h.shows c ha (by rw [hpc]; trivial)) LockPc.noConfusion
        exact ⟨hput.one, hput.locked, hput.exchanged, hput.quiet, hput.values, hput.foreign,
          hput.inside, hput.outside, hput.shows, hput.cleared⟩
      · cases hs
  | turn c eip => exact h.turn hs

theorem LockInv.initial (h : (lockSystem T).init s) : LockInv T s := by
  obtain ⟨hlocked, hcpu, hall, -⟩ := h
  have hempty : ∀ c w, w ∉ s.machine.buffer c := fun c w hw => by
    rw [(hall c).1] at hw
    cases hw
  have hfree : ∀ c, s.acquired c ≠ true := fun c => by
    rw [(hall c).2.2]
    exact Bool.false_ne_true
  refine ⟨fun c _ ha => absurd ha (hfree c), iff_of_false (not_not.mpr hlocked) ?_,
    fun c ⟨u, hu⟩ => hempty c _ hu, fun c _ ⟨u, hu⟩ => hempty c _ hu,
    fun c v hv => absurd hv (hempty c _), fun c _ => ?_, fun c hp => ?_, fun c hp => ?_,
    fun c ha => absurd ha (hfree c), fun c hp => ?_⟩
  · rintro ⟨c, ha⟩
    exact hfree c ha
  · rw [hcpu]
    exact (T.ne_null c).symm
  · rw [(hall c).2.1] at hp
    exact hp.elim
  · rw [(hall c).2.1] at hp
    cases hp
  · rw [(hall c).2.1] at hp
    cases hp

theorem lockInv_reach {guard : LockState C X → LockEvent C X → Prop}
    (h : Reach (lockSystem T) guard s) : LockInv T s :=
  h.invariant (fun _ => LockInv.initial) fun _ _ _ hi _ hs => hi.next hs

/-! ## Mutual exclusion -/

/-- The call is one that `holding` is there to catch. -/
def Misused (op : LockOp) (acquired : Bool) : Prop :=
  op = .spinLock ∧ acquired = true ∨ op = .spinUnlock ∧ acquired = false

/-- The check of a call ends in a panic when the call is wrong, and only then. -/
theorem LockInv.check (h : LockInv T s) {eip : BitVec 32}
    (hpc : s.pc c = .holdingLocked op ∨ s.pc c = .holdingCpu op)
    (hs : lockTurn T s c eip = some s') (hend : s'.pc c ≠ .holdingCpu op) :
    s'.pc c = .panicked ↔ Misused op (s.acquired c) := by
  have hafter : ∀ held, held = s.acquired c → s'.pc c = afterHolding op held →
      (s'.pc c = .panicked ↔ Misused op (s.acquired c)) := by
    rintro held rfl heq
    rw [heq]
    unfold Misused afterHolding
    cases op <;> cases s.acquired c <;> decide
  obtain ⟨hlocked, hcpu⟩ := h.holding (c := c)
  unfold lockTurn at hs
  dsimp only at hs
  rcases hpc with hpc | hpc
  · rw [hpc] at hs
    cases hs
    split at hend
    · exact absurd (LockState.pc_put_self s c _ _) hend
    · rename_i hz
      refine hafter false ?_ ?_
      · exact (Bool.eq_false_iff.mpr fun ht => hz (hlocked ht)).symm
      · rw [if_neg hz, LockState.pc_put_self]
  · have hshows := fun ha => h.shows c ha (by rw [hpc]; trivial)
    rw [hpc] at hs
    cases hs
    refine hafter _ ?_ (LockState.pc_put_self s c _ _)
    cases ha : s.acquired c with
    | true => exact beq_iff_eq.mpr (hshows ha)
    | false => exact beq_eq_false_iff_ne.mpr (hcpu ha)

/-! ## What the lock protects -/

/-- Only the processor that has the lock stores to what it protects. -/
def Disciplined (s : LockState C X) : LockEvent C X → Prop
  | .store c _ _ => s.acquired c = true
  | _ => True

/-- The processor with the lock finds what was stored last, and so does memory when nobody has
it. -/
structure DataInv (s : LockState C X) : Prop where
  quiet : ∀ c x, s.acquired c = false → ¬ s.machine.Pending c (.data x)
  held : ∀ c x, s.acquired c = true → s.machine.view c (.data x) = s.latest x
  free : (∀ c, s.acquired c = false) → ∀ x, s.machine.memory (.data x) = s.latest x

omit [DecidableEq C] in
theorem DataInv.congr (h : DataInv s) (ha : s'.acquired = s.acquired)
    (hlatest : s'.latest = s.latest)
    (hmem : ∀ x, s'.machine.memory (.data x) = s.machine.memory (.data x))
    (hview : ∀ c x, s'.machine.view c (.data x) = s.machine.view c (.data x))
    (hpending : ∀ c x, s'.machine.Pending c (.data x) → s.machine.Pending c (.data x)) :
    DataInv s' where
  quiet := fun c x hc hp => h.quiet c x (ha ▸ hc) (hpending c x hp)
  held := fun c x hc => by
    rw [hview, hlatest]
    exact h.held c x (ha ▸ hc)
  free := fun hall x => by
    rw [hmem, hlatest]
    exact h.free (ha ▸ hall) x

/-- A store to a field. -/
theorem DataInv.store (h : DataInv s) {x : LockLoc X} (hx : ∀ y, .data y ≠ x) (v : BitVec 32)
    (pc : LockPc) : DataInv (s.put c (s.machine.store c x v) pc) := by
  refine h.congr rfl rfl (fun _ => rfl) (fun c' y => ?_) fun c' y hp => ?_
  · by_cases hc : c' = c
    · subst hc
      show (s.machine.store c' x v).view c' _ = _
      rw [StoreBuffers.view_store_self, Function.update_of_ne (hx y)]
    · exact congrFun (StoreBuffers.view_store_ne hc) _
  · exact (StoreBuffers.pending_store.mp hp).resolve_right fun heq => hx y heq.2

omit [DecidableEq C] in
/-- A locked exchange leaves what is protected as it was. -/
theorem exchange_data {v old : BitVec 32} (hx : s.machine.xchg c .locked v = some (old, m)) :
    s.machine.buffer c = [] ∧ m.buffer = s.machine.buffer ∧
      (∀ x, m.memory (.data x) = s.machine.memory (.data x)) ∧
      ∀ c' x, m.view c' (.data x) = s.machine.view c' (.data x) := by
  obtain ⟨hempty, -, hmem, hbuf⟩ := StoreBuffers.xchg_eq_some hx
  have hdata : ∀ x, m.memory (.data x) = s.machine.memory (.data x) := fun x => by
    rw [hmem, Function.update_of_ne (LockLoc.data_ne x).1]
  exact ⟨hempty, hbuf, hdata, fun c' x => StoreBuffers.view_congr (congrFun hbuf c') (hdata x)⟩

theorem DataInv.turn (h : DataInv s) (hi : LockInv T s) {eip : BitVec 32}
    (hs : lockTurn T s c eip = some s') : DataInv s' := by
  have hmove : ∀ pc, DataInv (s.put c s.machine pc) := fun pc =>
    h.congr rfl rfl (fun _ => rfl) (fun _ _ => rfl) fun _ _ hp => hp
  have hfield : ∀ {x : LockLoc X}, x = .cpu ∨ (∃ i, x = .pcs i) → ∀ y, .data y ≠ x := by
    rintro x (rfl | ⟨i, rfl⟩) y ⟨⟩
  unfold lockTurn at hs
  dsimp only at hs
  cases hpc : s.pc c with
  | client | panicked =>
      rw [hpc] at hs
      cases hs
  | holdingLocked op | holdingCpu op =>
      rw [hpc] at hs
      cases hs
      exact hmove _
  | setCpu | clearCpu =>
      rw [hpc] at hs
      cases hs
      exact h.store (hfield (.inl rfl)) _ _
  | setPcs i =>
      rw [hpc] at hs
      cases hs
      exact h.store (hfield (.inr ⟨i, rfl⟩)) _ _
  | clearPcs =>
      rw [hpc] at hs
      cases hs
      exact h.store (hfield (.inr ⟨0, rfl⟩)) _ _
  | spin =>
      rw [hpc] at hs
      dsimp only at hs
      cases hx : s.machine.xchg c .locked 1#32 with
      | none =>
          rw [hx] at hs
          cases hs
      | some y =>
          obtain ⟨old, m⟩ := y
          obtain ⟨hempty, hbuf, hmem, hview⟩ := exchange_data hx
          have hpending : ∀ c' x, m.Pending c' (.data x) → s.machine.Pending c' (.data x) :=
            fun c' x hp => by
              unfold StoreBuffers.Pending at hp ⊢
              rwa [hbuf] at hp
          rw [hx] at hs
          dsimp only at hs
          split at hs
          · cases hs
            exact h.congr rfl rfl hmem hview hpending
          · rename_i hold
            cases hs
            -- The lock was free, and memory up to date.
            obtain ⟨hnone, -⟩ := (hi.acquire hpc hx).2 (not_not.mp hold)
            refine ⟨fun c' x hc' hp => ?_, fun c' x hc' => ?_, fun hall => ?_⟩
            · refine h.quiet c' x (hnone c') (hpending c' x hp)
            · have hc : c' = c := by
                by_contra hne
                have hstill : s.acquired c' = true :=
                  (Function.update_of_ne hne _ _).symm.trans hc'
                rw [hnone c'] at hstill
                cases hstill
              subst hc
              show m.view c' _ = _
              rw [hview, StoreBuffers.view_of_not_pending (h.quiet c' x (hnone c'))]
              exact h.free hnone x
            · exact absurd ((Function.update_self _ _ _).symm.trans (hall c)) Bool.noConfusion
  | release =>
      rw [hpc] at hs
      dsimp only at hs
      cases hx : s.machine.xchg c .locked 0#32 with
      | none =>
          rw [hx] at hs
          cases hs
      | some y =>
          obtain ⟨old, m⟩ := y
          obtain ⟨hempty, hbuf, hmem, hview⟩ := exchange_data hx
          obtain ⟨hnone, -⟩ := hi.release hpc hx
          have ha : s.acquired c = true := hi.inside c (by rw [hpc]; trivial)
          rw [hx] at hs
          cases hs
          refine ⟨fun c' x hc' hp => ?_, fun c' x hc' => ?_, fun _ x => ?_⟩
          · obtain ⟨u, hu⟩ := hp
            rw [show (LockState.put s c m .client).machine.buffer c' = s.machine.buffer c' from
              congrFun hbuf c'] at hu
            by_cases hc : c' = c
            · rw [hc, hempty] at hu
              cases hu
            · refine h.quiet c' x ?_ ⟨u, hu⟩
              exact Bool.eq_false_iff.mpr fun ht => hc (hi.one _ _ ht ha)
          · exact absurd ((hnone c').symm.trans hc') Bool.noConfusion
          · -- Its own stores are in memory, since its buffer is empty.
            show m.memory _ = s.latest x
            rw [hmem, ← h.held c x ha, StoreBuffers.view_of_not_pending]
            rintro ⟨u, hu⟩
            rw [hempty] at hu
            cases hu

theorem DataInv.next (h : DataInv s) (hi : LockInv T s) {ev : LockEvent C X}
    (hok : Disciplined s ev) (hs : lockNext T s ev = some s') : DataInv s' := by
  unfold lockNext at hs
  cases ev with
  | drain c =>
      obtain ⟨m, hm, rfl⟩ := Option.map_eq_some_iff.mp hs
      refine ⟨fun c' x ha hp => h.quiet c' x ha (hp.of_drain hm), fun c' x ha => ?_,
        fun hall x => ?_⟩
      · refine Eq.trans ?_ (h.held c' x ha)
        by_cases hc : c' = c
        · subst hc
          exact congrFun (StoreBuffers.view_drain_self hm) _
        · refine StoreBuffers.view_drain_ne hm hc (h.quiet c x ?_)
          exact Bool.eq_false_iff.mpr fun ht => hc (hi.one _ _ ha ht)
      · refine ((StoreBuffers.memory_drain hm).resolve_right fun hin => ?_).trans (h.free hall x)
        exact h.quiet c x (hall c) ⟨_, hin⟩
  | call c op =>
      dsimp only at hs
      split at hs
      · cases hs
        exact h.congr rfl rfl (fun _ => rfl) (fun _ _ => rfl) fun _ _ hp => hp
      · cases hs
  | store c x v =>
      have ha : s.acquired c = true := hok
      dsimp only at hs
      split at hs
      · cases hs
        refine ⟨fun c' y hc' hp => ?_, fun c' y hc' => ?_, fun hall => ?_⟩
        · rcases StoreBuffers.pending_store.mp hp with hp | ⟨rfl, -⟩
          · exact h.quiet c' y hc' hp
          · rw [show s.acquired c' = false from hc'] at ha
            cases ha
        · have hc : c' = c := hi.one _ _ hc' ha
          subst hc
          show (s.machine.store c' (.data x) v).view c' (.data y) = Function.update s.latest x v y
          rw [StoreBuffers.view_store_self]
          by_cases hy : y = x
          · subst hy
            rw [Function.update_self, Function.update_self]
          · rw [Function.update_of_ne fun heq => hy (LockLoc.data.inj heq),
              Function.update_of_ne hy]
            exact h.held c' y ha
        · rw [show s.acquired c = false from hall c] at ha
          cases ha
      · cases hs
  | turn c eip => exact h.turn hi hs

theorem DataInv.initial (h : (lockSystem T).init s) : DataInv s where
  quiet := fun c x _ ⟨u, hu⟩ => by
    rw [(h.2.2.1 c).1] at hu
    cases hu
  held := fun c x ha => by
    rw [(h.2.2.1 c).2.2] at ha
    cases ha
  free := fun _ => h.2.2.2

theorem dataInv_reach (h : Reach (lockSystem T) Disciplined s) : DataInv s := by
  have hboth : LockInv T s ∧ DataInv s :=
    h.invariant (P := fun s => LockInv T s ∧ DataInv s)
      (fun _ hi => ⟨LockInv.initial hi, DataInv.initial hi⟩)
      fun _ _ _ hi hok hs => ⟨hi.1.next hs, hi.2.next hi.1 hok hs⟩
  exact hboth.2

/-- Whoever calls what: two processors never have the lock, and the checks panic on wrong calls
and on no others. -/
theorem spinlock_checks (h : Reach (lockSystem T) anyEvent s) :
    (∀ c c', s.acquired c = true → s.acquired c' = true → c = c') ∧
      ∀ c op eip s', s.pc c = .holdingLocked op ∨ s.pc c = .holdingCpu op →
        lockTurn T s c eip = some s' → s'.pc c ≠ .holdingCpu op →
          (s'.pc c = .panicked ↔ Misused op (s.acquired c)) :=
  ⟨(lockInv_reach h).one, fun _ _ _ _ hpc hs hend => (lockInv_reach h).check hpc hs hend⟩

end

/-! ## Two processors -/

/-- `struct CpuInfo` is 116 bytes long. -/
def twoCpus : CpuTable Bool where
  thiscpu c := if c then 0xf0240094#32 else 0xf0240020#32
  injective := by
    have hall : ∀ c c' : Bool, (if c then 0xf0240094#32 else 0xf0240020#32) =
        (if c' then 0xf0240094#32 else 0xf0240020#32) → c = c' := by decide
    exact hall
  ne_null := by decide

def freeLock : LockState Bool Unit where
  machine := { memory := fun _ => 0#32, buffer := fun _ => [] }
  pc := fun _ => .client
  acquired := fun _ => false
  latest := fun _ => 0#32

theorem freeLock_init : (lockSystem twoCpus).init freeLock :=
  ⟨rfl, rfl, fun _ => ⟨rfl, rfl, rfl⟩, fun _ => rfl⟩

/-- The first processor takes the lock, and the second gives it back before the address of the
first is in memory. -/
def wrongRelease : List (LockEvent Bool Unit) :=
  [.call false .spinLock, .turn false 0#32, .turn false 0#32, .turn false 0#32,
    .call true .spinUnlock, .turn true 0#32]

theorem spinlock_checks_two : ∃ s s' : LockState Bool Unit, s.acquired false = true ∧
    (s'.pc true = .panicked ↔ Misused .spinUnlock (s.acquired true)) := by
  have hrun : ((wrongRelease.foldlM (lockNext twoCpus) freeLock).map fun s =>
      (s.acquired false, s.pc true, (lockTurn twoCpus s true 0#32).map fun s' => s'.pc true)) =
        some (true, .holdingCpu .spinUnlock, some .panicked) := by decide
  obtain ⟨s, hs, hacts⟩ := Option.map_eq_some_iff.mp hrun
  obtain ⟨hacq, hrest⟩ := Prod.mk.inj hacts
  obtain ⟨hpc, hmap⟩ := Prod.mk.inj hrest
  obtain ⟨s', hs', hend⟩ := Option.map_eq_some_iff.mp hmap
  have hreach : Reach (lockSystem twoCpus) anyEvent s :=
    (Reach.init freeLock_init).foldlM (fun _ _ _ _ hn => ⟨trivial, hn⟩) hs
  refine ⟨s, s', hacq, (spinlock_checks hreach).2 true .spinUnlock 0#32 s' (.inr hpc) hs' ?_⟩
  rw [hend]
  exact LockPc.noConfusion

end Jos
end Sisop

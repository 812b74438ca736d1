import Sisop.Lib.Reach
import Sisop.Jos.Trap

/-!
# The kernel as a transition system

Every entry into the kernel runs under the big kernel lock, so a step is a whole
entry: a CPU traps and leaves again.  The store of `env_cpunum`, which `env_run`
makes behind `unlock_kernel`, counts as part of it.  Between entries, CPUs in user mode store
to memory through their own CR3.  Boot creates the first environments before any
CPU enters the scheduler, and then each CPU enters it once on its own.

A CPU in user mode reaches what the page tables say at that moment: stale entries
of its TLB are left out.

Behaviour that C leaves undefined may end in any state at all.

The second half says what a step is about: which environment it destroys, which
one it makes runnable, and which page it maps.  The conditions under which the
claims hold are put together from these.
-/

namespace Sisop
namespace Jos

open TransitionSystem

inductive Event
  | create (elf : Elf)
  | start (c : Nat)
  | wake (c : Nat) (trapno : Word)
  | trap (c : Nat) (tf : Trapframe) (inp : Inputs)
  | store (c : Nat) (va : Word) (b : BitVec 8)

/-- What the link script promises of an image compiled into the kernel. -/
def Elf.Linked (elf : Elf) : Prop :=
  ∀ ph ∈ elf.phdrs, ph.pFilesz.toNat ≤ ph.pMemsz.toNat ∧
    ph.pVa.toNat + ph.pMemsz.toNat ≤ utop.toNat

variable (M : Machine)

def Event.enabled (s : KState) : Event → Prop
  | .create elf => elf.Linked ∧
      ∀ c, c < M.ncpu → (s.cpus c).cpuStatus = .started ∧ s.curenv c = none
  | .start c => c < M.ncpu ∧ (s.cpus c).cpuStatus = .started ∧ s.curenv c = none
  | .wake c _ => c < M.ncpu ∧ (s.cpus c).cpuStatus = .halted
  | .trap c tf _ => c < M.ncpu ∧ s.curenv c ≠ none ∧ tf.cs &&& 3#16 = 3#16
  | .store c va _ => c < M.ncpu ∧ s.curenv c ≠ none ∧ va < utop ∧
      translate s.pm (s.cpus c).cr3 userStore va ≠ none

def Event.outcome (s : KState) : Event → Stop
  | .create elf => endOf do
      let s ← envCreate M s 0 elf
      pure (.left s)
  | .start c => schedYield M s c
  | .wake c trapno => Jos.wake M s c trapno
  | .trap c tf inp => Jos.trap M s c tf inp
  | .store c va b =>
      match storeByte s.pm (s.cpus c).cr3 userStore va b with
      | some m => .left { s with pm := m }
      | none => .undefined "store not allowed"

/-- The states an outcome allows. -/
def Stop.allows (s' : KState) : Stop → Prop
  | .left s => s' = s
  | .panic _ => False
  | .monitor => False
  | .undefined _ => True

/-- The state boot leaves: the page allocator of `page_init` with the pages of `K`
taken since for the kernel's own page tables, and an environment table fresh from
`env_init`. -/
structure Booted (K : Nat → Prop) (s : KState) : Prop where
  pages : ∃ free, LinkChain.Visits s.pm.ppLink s.pm.pageFreeList free ∧
    (∀ p, p ∈ free ↔ Pool M K p) ∧ ∀ p, p ∉ free → s.pm.ppLink p = none
  ref_zero : ∀ p, ¬ K p → s.pm.ppRef p = 0#16
  kern_low : ∀ i, i < pdxUtop → s.pm.mem M.kernPgdir i = 0#32
  envs : ∃ envs, (∀ e, (envs e).envPgdir = none ∧ (envs e).envIpcDstva = 0#32) ∧
    s.envs = envInit envs
  envFreeList : s.envFreeList = some 0
  cpus : ∀ c, (s.cpus c).cpuEnv = none ∧ (s.cpus c).cr3 = M.kernPgdir ∧
    (c < M.ncpu → (s.cpus c).cpuStatus = .started)

def kernel (K : Nat → Prop) : TransitionSystem KState Event where
  init := Booted M K
  step s ev s' := ev.enabled M s ∧ (ev.outcome M s).allows s'

/-! ## What a step is about -/

/-- Whether `user_mem_assert` destroys the environment. -/
def checkFails (s : KState) (e : Nat) (va len perm : Word) : Bool :=
  match userMemCheck M s.pm (s.envs e).envPgdir va len (perm ||| pteU) with
  | .ok (some _) => true
  | _ => false

/-- The environment a system call passes to `env_destroy`. -/
def syscallDestroys (s : KState) (cur : Nat) (r : PushRegs) : Option Nat :=
  match sysno r.eax with
  | some .cputs =>
      if checkFails M s cur r.edx r.ecx (pteP ||| pteW ||| pteU) then some cur else none
  | some .envDestroy => (envid2env s cur r.edx true).toOption
  | some .envSetPgfaultUpcall =>
      match envid2env s cur r.edx true with
      | .ok e => if checkFails M s e r.ecx 4096#32 (pteP ||| pteU) then some e else none
      | .error _ => none
  | _ => none

/-- The environment a trap passes to `env_destroy`, with `s` the state in which
it is dispatched. -/
def destroys (s : KState) (cur : Nat) (tf : Trapframe) : Option Nat :=
  if tf.trapno = tBrkpt then none
  else if tf.trapno = tPgflt then
    if (s.envs cur).envPgfaultUpcall ≠ 0#32 then
      if checkFails M s cur exstk 4096#32 (pteU ||| pteW) then some cur else none
    else some cur
  else if tf.trapno = tSyscall then syscallDestroys M s cur tf.regs
  else if tf.trapno = irqSpurious ∨ tf.trapno = irqTimer then none
  else some cur

/-- The environment and the status of a `sys_env_set_status` that is carried out. -/
def setsStatus (s : KState) (cur : Nat) (tf : Trapframe) : Option (Nat × EnvStatus) :=
  if tf.trapno = tSyscall ∧ sysno tf.regs.eax = some .envSetStatus then
    match settableStatus tf.regs.ecx, envid2env s cur tf.regs.edx true with
    | some st, .ok e => some (e, st)
    | _, _ => none
  else none

/-- The environment and the priority of a `sys_env_set_priority` that is carried out. -/
def setsPriority (s : KState) (cur : Nat) (tf : Trapframe) : Option (Nat × Int) :=
  if tf.trapno = tSyscall ∧ sysno tf.regs.eax = some .envSetPriority then
    if (tf.regs.edx = 0#32 ∨ tf.regs.edx = (s.envs cur).envId) ∧
        tf.regs.ecx.toInt < (s.envs cur).envPriority then none
    else
      match envid2env s cur tf.regs.edx false with
      | .ok e => some (e, tf.regs.ecx.toInt)
      | .error _ => none
  else none

/-- The environment a `sys_ipc_try_send` is for, when its `env_ipc_recving` is set. -/
def sendsTo (s : KState) (cur : Nat) (tf : Trapframe) : Option Nat :=
  if tf.trapno = tSyscall ∧ sysno tf.regs.eax = some .ipcTrySend then
    match envid2env s cur tf.regs.edx false with
    | .ok dst => if (s.envs dst).envIpcRecving then some dst else none
    | .error _ => none
  else none

/-- The argument of a `sys_ipc_recv`. -/
def recvVa (tf : Trapframe) : Option Word :=
  if tf.trapno = tSyscall ∧ sysno tf.regs.eax = some .ipcRecv then some tf.regs.edx else none

/-- `e` is the current environment of a CPU other than `c`. -/
def elsewhere (s : KState) (c e : Nat) : Prop := ∃ c', c' ≠ c ∧ s.curenv c' = some e

/-- The page of a word of a page table can be mapped once more, with `perm`: the
permission has no address bit outside the frame, and the count has room. -/
def Sharable (s : KState) (w perm : Word) : Prop :=
  w ≠ 0#32 → pgnum w ||| pgnum perm = pgnum w ∧
    RefCount.refs slots (target s.pm s.dirs) (pgnum w) < 65535

/-- The page of `e` at `va`. -/
def wordAt (s : KState) (e : Nat) (va : Word) : Word := pteWord s.pm s.dirs e (pdx va) (ptx va)

/-- A `sys_page_map` that reaches `page_insert` maps a page that fits. -/
def MapFits (s : KState) (cur : Nat) (srcenvid srcva dstenvid dstva perm : Word) : Prop :=
  ¬ badVa srcva → ¬ badVa dstva → ∀ src dst, envid2env s cur srcenvid true = .ok src →
    envid2env s cur dstenvid true = .ok dst →
    (perm &&& pteW ≠ 0#32 → wordAt s src srcva &&& pteW ≠ 0#32) →
    Sharable s (wordAt s src srcva) perm

/-- A `sys_ipc_try_send` that transfers a page transfers one that can be mapped
once more. -/
def SendFits (s : KState) (cur : Nat) (envid srcva : Word) : Prop :=
  ∀ dst, envid2env s cur envid false = .ok dst → (s.envs dst).envIpcRecving →
    (s.envs dst).envIpcDstva ≠ 0#32 → ¬ badVa srcva → Sharable s (wordAt s cur srcva) 0#32

/-- The condition on a system call under which page tables stay what they are. -/
def PagesFit (s : KState) (cur : Nat) (r : PushRegs) : Prop :=
  match sysno r.eax with
  | some .pageMap => MapFits s cur r.edx r.ecx r.ebx r.edi r.esi
  | some .ipcTrySend => SendFits s cur r.edx r.ebx
  | _ => True

/-- The state in which `trap` dispatches. -/
def trapState (s : KState) (c cur : Nat) (tf : Trapframe) : KState := saveTf (cpuStarted s c) cur tf

/-- A system call that reaches `sched_yield` with its caller still current: it calls it, or
the caller does not go on running. -/
def syscallYields (s : KState) (cur : Nat) (r : PushRegs) : Prop :=
  match sysno r.eax with
  | some .yield => True
  | some .ipcRecv => ¬ badVa r.edx
  | some .envSetStatus => settableStatus r.ecx ≠ none ∧ envid2env s cur r.edx true = .ok cur
  | some .ipcTrySend => envid2env s cur r.edx false = .ok cur ∧ (s.envs cur).envIpcRecving = true
  | _ => False

/-- A trap that reaches `sched_yield` with its environment still current. -/
def Yields (s : KState) (cur : Nat) (tf : Trapframe) : Prop :=
  (s.envs cur).envStatus ≠ .running ∨ tf.trapno = irqTimer ∨
    tf.trapno = tSyscall ∧ syscallYields s cur tf.regs

/-- Every page a step maps fits, and no environment in the last slot yields its CPU:
`sched_yield` would read past the end of `envs`. -/
def Fits (s : KState) : Event → Prop
  | .trap c tf _ => ∀ cur, s.curenv c = some cur → (s.envs cur).envStatus ≠ .dying →
      (Yields (trapState s c cur tf) cur tf → cur + 1 < nenv) ∧
      (tf.trapno = tSyscall → PagesFit (trapState s c cur tf) cur tf.regs)
  | _ => True

/-- A step frees no environment that another CPU runs: a dying environment that
traps runs on this CPU alone, and so does one that is destroyed, unless it is
only marked as dying. -/
def FreesOwn (s : KState) : Event → Prop
  | .trap c tf _ => ∀ cur, s.curenv c = some cur →
      ((s.envs cur).envStatus = .dying → ¬ elsewhere s c cur) ∧
      ((s.envs cur).envStatus ≠ .dying → ∀ e, destroys M (trapState s c cur tf) cur tf = some e →
        ¬ ((s.envs e).envStatus = .running ∧ e ≠ cur) → ¬ elsewhere s c e)
  | _ => True

end Jos
end Sisop

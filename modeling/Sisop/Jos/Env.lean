import Sisop.Jos.PageGraph

/-!
# Environments

The environment table, the CPUs and `kern/env.c`.  An environment is a slot of
`envs`, and `env_link`, `env_free_list` and `cpu_env` are slots too.  The page
directory of an environment and the one a CPU has in CR3 are physical pages.

A kernel path that does not return to its caller ends in a `Stop`: the CPU goes
back to user mode or halts with the state it leaves behind, or the kernel
panics, or it enters the monitor for good, or it does what C leaves undefined.
`env_run` and the scheduler never return, and are of type `Stop`.
-/

namespace Sisop
namespace Jos

inductive EnvStatus
  | free
  | dying
  | runnable
  | running
  | notRunnable
  deriving DecidableEq, Repr

structure PushRegs where
  edi : Word
  esi : Word
  ebp : Word
  oesp : Word
  ebx : Word
  edx : Word
  ecx : Word
  eax : Word
  deriving DecidableEq, Repr

structure Trapframe where
  regs : PushRegs
  es : BitVec 16
  ds : BitVec 16
  trapno : Word
  err : Word
  eip : Word
  cs : BitVec 16
  eflags : Word
  esp : Word
  ss : BitVec 16
  deriving DecidableEq, Repr

structure Env where
  envTf : Trapframe
  envLink : Option Nat
  envId : Word
  envParentId : Word
  envStatus : EnvStatus
  envRuns : Word
  envCpunum : Nat
  envPriority : Int
  envPgdir : Option Nat
  envPgfaultUpcall : Word
  envIpcRecving : Bool
  envIpcDstva : Word
  envIpcValue : Word
  envIpcFrom : Word
  envIpcPerm : Word

inductive CpuStatus
  | unused
  | started
  | halted
  deriving DecidableEq, Repr

structure CpuInfo where
  cpuStatus : CpuStatus
  cpuEnv : Option Nat
  cr3 : Nat

structure SchedStats where
  numberOfYields : Word
  numberOfSwitches : Word
  numberOfBoosts : Word

structure KState where
  pm : PMap
  envs : Nat → Env
  envFreeList : Option Nat
  cpus : Nat → CpuInfo
  stats : SchedStats

/-- How a kernel path ends when it does not return. -/
inductive Stop
  | left (s : KState)
  | panic (msg : String)
  | monitor
  | undefined (why : String)

def panics {α : Type} : Except String α → Except Stop α
  | .ok a => .ok a
  | .error msg => .error (.panic msg)

namespace KState

def setEnv (s : KState) (e : Nat) (f : Env → Env) : KState :=
  { s with envs := Function.update s.envs e (f (s.envs e)) }

def setCpu (s : KState) (c : Nat) (f : CpuInfo → CpuInfo) : KState :=
  { s with cpus := Function.update s.cpus c (f (s.cpus c)) }

def curenv (s : KState) (c : Nat) : Option Nat := (s.cpus c).cpuEnv

def setCurenv (s : KState) (c : Nat) (e : Option Nat) : KState :=
  s.setCpu c fun cpu => { cpu with cpuEnv := e }

def lcr3 (s : KState) (c : Nat) (dir : Nat) : KState :=
  s.setCpu c fun cpu => { cpu with cr3 := dir }

def setStatus (s : KState) (e : Nat) (st : EnvStatus) : KState :=
  s.setEnv e fun env => { env with envStatus := st }

/-- The page directory of each environment. -/
def dirs (s : KState) (e : Nat) : Option Nat := (s.envs e).envPgdir

section

variable (s : KState) (e x c c' : Nat) (f : Env → Env) (g : CpuInfo → CpuInfo) (v : Option Nat)

@[simp] theorem pm_setEnv : (s.setEnv e f).pm = s.pm := rfl
@[simp] theorem cpus_setEnv : (s.setEnv e f).cpus = s.cpus := rfl
@[simp] theorem envFreeList_setEnv : (s.setEnv e f).envFreeList = s.envFreeList := rfl
@[simp] theorem curenv_setEnv : (s.setEnv e f).curenv c = s.curenv c := rfl
@[simp] theorem pm_setCpu : (s.setCpu c g).pm = s.pm := rfl
@[simp] theorem envs_setCpu : (s.setCpu c g).envs = s.envs := rfl
@[simp] theorem envFreeList_setCpu : (s.setCpu c g).envFreeList = s.envFreeList := rfl
@[simp] theorem dirs_setCpu : (s.setCpu c g).dirs = s.dirs := rfl
@[simp] theorem pm_setCurenv : (s.setCurenv c v).pm = s.pm := rfl
@[simp] theorem envs_setCurenv : (s.setCurenv c v).envs = s.envs := rfl
@[simp] theorem pm_lcr3 : (s.lcr3 c e).pm = s.pm := rfl
@[simp] theorem envs_lcr3 : (s.lcr3 c e).envs = s.envs := rfl

theorem envs_setEnv : (s.setEnv e f).envs x = if x = e then f (s.envs e) else s.envs x :=
  Function.update_apply _ _ _ _

@[simp] theorem envs_setEnv_self : (s.setEnv e f).envs e = f (s.envs e) :=
  Function.update_self _ _ _

theorem envs_setEnv_of_ne (h : x ≠ e) : (s.setEnv e f).envs x = s.envs x :=
  Function.update_of_ne h _ _

theorem cpus_setCpu : (s.setCpu c g).cpus c' = if c' = c then g (s.cpus c) else s.cpus c' :=
  Function.update_apply _ _ _ _

theorem curenv_setCurenv : (s.setCurenv c v).curenv c' = if c' = c then v else s.curenv c' := by
  rw [curenv, setCurenv, cpus_setCpu]
  split <;> rfl

@[simp] theorem curenv_setCurenv_self : (s.setCurenv c v).curenv c = v := by
  rw [curenv_setCurenv, if_pos rfl]

@[simp] theorem curenv_lcr3 : (s.lcr3 c e).curenv c' = s.curenv c' := by
  rw [curenv, lcr3, cpus_setCpu]
  split
  · rename_i h
    rw [h]
    rfl
  · rfl

theorem cr3_lcr3 : ((s.lcr3 c e).cpus c').cr3 = if c' = c then e else (s.cpus c').cr3 := by
  rw [lcr3, cpus_setCpu]
  split <;> rfl

@[simp] theorem cr3_setCurenv : ((s.setCurenv c v).cpus c').cr3 = (s.cpus c').cr3 := by
  rw [setCurenv, cpus_setCpu]
  split
  · rename_i h
    rw [h]
  · rfl

/-- An update of a field other than `env_pgdir` leaves the directories alone. -/
theorem dirs_setEnv (h : (f (s.envs e)).envPgdir = (s.envs e).envPgdir) :
    (s.setEnv e f).dirs = s.dirs := by
  funext x
  rw [dirs, envs_setEnv]
  split
  · rename_i hx
    rw [h, hx, dirs]
  · rfl

end

end KState

def eBadEnv : Int := 2
def eInval : Int := 3
def eNoFreeEnv : Int := 5
def eIpcNotRecv : Int := 7

theorem eInval_neg : -eInval < 0 := by decide
theorem eIpcNotRecv_neg : -eIpcNotRecv < 0 := by decide
theorem eNoMem_neg : -eNoMem < 0 := by decide

def envgenshift : Nat := 12
def gdUt : BitVec 16 := 0x18#16
def gdUd : BitVec 16 := 0x20#16
def gdKt : BitVec 16 := 0x08#16
def flIf : Word := 0x200#32
def pdxUvpt : Nat := 957

/-- `ENVX`: the slot an environment id names. -/
def envx (envid : Word) : Nat := (envid &&& 1023#32).toNat

/-! ## Access through a page directory -/

/-- The page the hardware finds for `va`, when the entries at both levels have
all the bits of `need`. -/
def translate (m : PMap) (dir : Nat) (need va : Word) : Option Nat :=
  let pde := m.mem dir (pdx va)
  if pde &&& need = need then
    let pte := m.mem (pgnum pde) (ptx va)
    if pte &&& need = need then some (pgnum pte) else none
  else none

/-- What a store in kernel mode needs: `CR0_WP` is set, so it needs `PTE_W`. -/
def kernelStore : Word := pteP ||| pteW

def userStore : Word := pteP ||| pteW ||| pteU
def userLoad : Word := pteP ||| pteU

def setByte (w : Word) (k : Nat) (b : BitVec 8) : Word :=
  (w &&& ~~~(0xFF#32 <<< (8 * k))) ||| (b.zeroExtend 32 <<< (8 * k))

def getByte (w : Word) (k : Nat) : BitVec 8 := (w >>> (8 * k)).truncate 8

def PMap.writeByte (m : PMap) (page off : Nat) (b : BitVec 8) : PMap :=
  m.write ⟨page, off / 4⟩ (setByte (m.mem page (off / 4)) (off % 4) b)

/-- The byte at an offset of a physical page. -/
def PMap.byte (m : PMap) (page off : Nat) : BitVec 8 := getByte (m.mem page (off / 4)) (off % 4)

def storeByte (m : PMap) (dir : Nat) (need va : Word) (b : BitVec 8) : Option PMap :=
  (translate m dir need va).map fun page => m.writeByte page (va.toNat % pgsize) b

/-- A run of bytes, from `va` up. -/
def storeBytes (m : PMap) (dir : Nat) (need va : Word) : List (BitVec 8) → Option PMap
  | [] => some m
  | b :: bs => do
      let m ← storeByte m dir need va b
      storeBytes m dir need (va + 1#32) bs

/-- A word in memory order. -/
def wordBytes (w : Word) : List (BitVec 8) := [getByte w 0, getByte w 1, getByte w 2, getByte w 3]

/-- Whether a store in kernel mode to an address of the kernel goes through.  A directory
entry there may map 4 MB. -/
def KernelWritable (m : PMap) (dir : Nat) (va : Word) : Prop :=
  let pde := m.mem dir (pdx va)
  pde &&& kernelStore = kernelStore ∧
    (pde &&& ptePs ≠ 0#32 ∨ m.mem (pgnum pde) (ptx va) &&& kernelStore = kernelStore)

instance (m : PMap) (dir : Nat) (va : Word) : Decidable (KernelWritable m dir va) :=
  inferInstanceAs (Decidable (_ ∧ _))

/-- A store by the kernel to a user address, from `va` up.  What the kernel has at its own
addresses is not part of the model. -/
def kernelStoreBytes (m : PMap) (dir : Nat) (va : Word) : List (BitVec 8) → Except Stop PMap
  | [] => .ok m
  | b :: bs =>
      if va < utop then
        match storeByte m dir kernelStore va b with
        | none => .error (.panic "page fault in kernel mode")
        | some m => kernelStoreBytes m dir (va + 1#32) bs
      else if KernelWritable m dir va then .error (.undefined "store to a kernel address")
      else .error (.panic "page fault in kernel mode")

/-! ## `kern/env.c` -/

/-- `env_init` on a cleared table. -/
def envInit (envs : Nat → Env) : Nat → Env := fun i =>
  { envs i with
    envId := 0#32
    envStatus := .free
    envLink := if i + 1 < nenv then some (i + 1) else none }

/-- `envid2env`, with `cur` for `curenv`; an error is what it returns. -/
def envid2env (s : KState) (cur : Nat) (envid : Word) (checkperm : Bool) : Except Int Nat :=
  if envid = 0#32 then .ok cur
  else
    let e := envx envid
    if (s.envs e).envStatus = .free ∨ (s.envs e).envId ≠ envid then .error (-eBadEnv)
    else if checkperm ∧ e ≠ cur ∧ (s.envs e).envParentId ≠ (s.envs cur).envId then
      .error (-eBadEnv)
    else .ok e

variable (M : Machine)

/-- Page `p` made a page directory: a copy of `kern_pgdir`, counted once, which
maps itself at `UVPT`. -/
def initPgdir (m : PMap) (p : Nat) : PMap :=
  let m := { m with mem := Function.update m.mem p (m.mem M.kernPgdir) }
  (m.incref p).write ⟨p, pdxUvpt⟩ (page2pa p ||| pteP ||| pteU)

/-- `env_setup_vm`; when it fails nothing has changed. -/
def envSetupVm (s : KState) (e : Nat) : Except Int KState :=
  match pageAlloc s.pm allocZero with
  | (none, _) => .error (-eNoMem)
  | (some p, m) =>
      .ok ({ s with pm := initPgdir M m p }.setEnv e fun env => { env with envPgdir := some p })

/-- The id of the next environment in slot `e`. -/
def nextEnvId (envId : Word) (e : Nat) : Word :=
  let generation := (envId + 1#32 <<< envgenshift) &&& ~~~1023#32
  let generation := if generation.toInt ≤ 0 then 1#32 <<< envgenshift else generation
  generation ||| BitVec.ofNat 32 e

def zeroRegs : PushRegs := ⟨0, 0, 0, 0, 0, 0, 0, 0⟩

/-- The registers `env_alloc` gives a new environment. -/
def initTf : Trapframe :=
  { regs := zeroRegs, es := gdUd ||| 3#16, ds := gdUd ||| 3#16, trapno := 0#32, err := 0#32,
    eip := 0#32, cs := gdUt ||| 3#16, eflags := flIf, esp := ustacktop, ss := gdUd ||| 3#16 }

/-- `env_alloc`; when it fails nothing has changed. -/
def envAlloc (s : KState) (parentId : Word) : Except Int (Nat × KState) :=
  match s.envFreeList with
  | none => .error (-eNoFreeEnv)
  | some e => do
      let s ← envSetupVm M s e
      let s := s.setEnv e fun env =>
        { env with
          envId := nextEnvId env.envId e
          envParentId := parentId
          envStatus := .runnable
          envRuns := 0#32
          envPriority := 0
          envTf := initTf
          envPgfaultUpcall := 0#32
          envIpcRecving := false }
      pure (e, { s with envFreeList := (s.envs e).envLink })

/-- The pages of `region_alloc`, from the address rounded down. -/
def regionAllocPages (m : PMap) (pgdir : Option Nat) (va : Word) : Nat → Except String PMap
  | 0 => .ok m
  | n + 1 =>
      match pageAlloc m 0 with
      | (none, _) => .error "region_alloc: could not alloc page"
      | (some p, m) => do
          let (r, m) ← pageInsert M m pgdir p va (pteU ||| pteW)
          if r ≠ 0 then .error "region_alloc: page_insert falied"
          else regionAllocPages m pgdir (va + 4096#32) n

def regionAlloc (m : PMap) (pgdir : Option Nat) (va len : Word) : Except String PMap :=
  let vaLo := rounddown va
  let vaHi := roundup (va + len)
  if utop < vaHi then .error "region_alloc: cannot map in high va"
  else regionAllocPages M m pgdir vaLo ((vaHi.toNat - vaLo.toNat) / pgsize)

structure Proghdr where
  pType : Word
  pOffset : Word
  pVa : Word
  pFilesz : Word
  pMemsz : Word

/-- A binary image: the fields of its header that are used, its program headers,
and its bytes. -/
structure Elf where
  eMagic : Word
  eEntry : Word
  phdrs : List Proghdr
  binary : Nat → BitVec 8

def elfMagic : Word := 0x464C457F#32
def elfProgLoad : Word := 1#32

/-- One segment of `load_icode`. -/
def loadSegment (elf : Elf) (m : PMap) (dir : Nat) (ph : Proghdr) : Except Stop PMap :=
  if ph.pType ≠ elfProgLoad then .ok m
  else do
    let m ← panics (regionAlloc M m (some dir) ph.pVa ph.pMemsz)
    let m ← kernelStoreBytes m dir ph.pVa (List.replicate ph.pMemsz.toNat 0)
    kernelStoreBytes m dir ph.pVa
      ((List.range ph.pFilesz.toNat).map fun k => elf.binary (ph.pOffset.toNat + k))

/-- `load_icode` on CPU `c`, which has the page directory of `e` in CR3 meanwhile. -/
def loadIcode (s : KState) (c e : Nat) (elf : Elf) : Except Stop KState :=
  if elf.eMagic ≠ elfMagic then .error (.panic "load_icode: not an elf file")
  else
    match (s.envs e).envPgdir with
    | none => .error (.panic "PADDR called with invalid kva")
    | some dir => do
        let s := s.lcr3 c dir
        let m ← elf.phdrs.foldlM (fun m ph => loadSegment M elf m dir ph) s.pm
        let m ← panics (regionAlloc M m (some dir) (ustacktop - 4096#32) 4096#32)
        let s := { s with pm := m }
        let s := s.setEnv e fun env => { env with envTf := { env.envTf with eip := elf.eEntry } }
        pure (s.lcr3 c M.kernPgdir)

def envCreate (s : KState) (c : Nat) (elf : Elf) : Except Stop KState :=
  match envAlloc M s 0#32 with
  | .error _ => .error (.panic "env_create")
  | .ok (env, s) => loadIcode M s c env elf

/-- The turn of the inner loop of `env_free` for one entry of a page table. -/
def envFreePte (dir pt pdeno : Nat) (m : PMap) (pteno : Nat) : Except String PMap :=
  if m.mem pt pteno &&& pteP ≠ 0#32 then pageRemove M m (some dir) (pgaddr pdeno pteno 0)
  else .ok m

/-- The turn of the loop of `env_free` for one directory entry. -/
def envFreeTable (dir : Nat) (m : PMap) (pdeno : Nat) : Except String PMap :=
  if m.mem dir pdeno &&& pteP = 0#32 then .ok m
  else do
    let pa := m.mem dir pdeno
    let pt ← kaddr M pa
    let m ← (List.range nptentries).foldlM (envFreePte M dir pt pdeno) m
    let m := m.write ⟨dir, pdeno⟩ 0#32
    let p ← pa2page M pa
    pageDecref m p

/-- What `env_free` does to memory: every user page, every page table and the
directory lose a reference. -/
def envFreePages (m : PMap) (dir : Nat) : Except String PMap := do
  let m ← (List.range pdxUtop).foldlM (envFreeTable M dir) m
  pageDecref m dir

def envFree (s : KState) (c e : Nat) : Except Stop KState :=
  let s := if s.curenv c = some e then s.lcr3 c M.kernPgdir else s
  match (s.envs e).envPgdir with
  | none => .error (.panic "page fault in kernel mode")
  | some dir => do
      let m ← panics (envFreePages M s.pm dir)
      let s := { s with pm := m }
      let s := s.setEnv e fun env =>
        { env with envPgdir := none, envStatus := .free, envLink := s.envFreeList }
      pure { s with envFreeList := some e }

/-- The first step of `env_run`: an environment that is still running becomes
runnable. -/
def preempt (s : KState) (c : Nat) : KState :=
  match s.curenv c with
  | some old => if (s.envs old).envStatus = .running then s.setStatus old .runnable else s
  | none => s

/-- `env_run` on CPU `c`, up to `context_switch`. -/
def envRun (s : KState) (c e : Nat) : Stop :=
  let s := preempt s c
  let s := s.setCurenv c (some e)
  let s := s.setEnv e fun env =>
    { env with envRuns := env.envRuns + 1#32, envStatus := .running }
  match (s.envs e).envPgdir with
  | none => .panic "PADDR called with invalid kva"
  | some dir => .left ((s.lcr3 c dir).setEnv e fun env => { env with envCpunum := c })

end Jos
end Sisop

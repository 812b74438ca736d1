import Sisop.Jos.UserMem

/-!
# System calls

`kern/syscall.c`.  `c` is the CPU in the kernel and `cur` the slot of its
`curenv`.  A call returns its result and the state, or does not return.

`sys_ipc_try_send` reads through `srcpte` even when `page_lookup` found no page
and left it uninitialised.  What such a read gives is an input, `junk`: a word,
or nothing if the read faults.  `cons_getc` is an input too.
-/

namespace Sisop
namespace Jos

/-- What a kernel entry reads besides the state: the faulting address in CR2, the
word behind an uninitialised pointer, and the next console character. -/
structure Inputs where
  cr2 : Word
  junk : Option Word
  consGetc : Int

def checkPerm (perm : Word) (pte : Option Word) : Int :=
  if perm &&& ~~~pteSyscall ≠ 0#32 then -eInval
  else if perm &&& pteP = 0#32 ∨ perm &&& pteU = 0#32 then -eInval
  else
    match pte with
    | none => 0
    | some pte =>
        if pte ≠ 0#32 ∧ pte &&& pteP = 0#32 then -eInval
        else if perm &&& pteW ≠ 0#32 ∧ pte &&& pteW = 0#32 then -eInval
        else 0

variable (M : Machine)

def envPageAlloc (m : PMap) (pgdir : Option Nat) (va perm : Word) : Except String (Int × PMap) :=
  let err := checkPerm perm none
  if err < 0 then .ok (err, m)
  else
    match pageAlloc m allocZero with
    | (none, m) => .ok (-eNoMem, m)
    | (some p, m) => pageInsert M m pgdir p va perm

def envPageMap (m : PMap) (srcdir : Option Nat) (srcva : Word) (dstdir : Option Nat)
    (dstva perm : Word) : Except String (Int × PMap) := do
  match ← pageLookup M m srcdir srcva with
  | none => pure (-eInval, m)
  | some (page, srcpte) =>
      if (perm &&& pteW) &&& ~~~(pteW &&& m.read srcpte) ≠ 0#32 then pure (-eInval, m)
      else pageInsert M m dstdir page dstva perm

/-- The test the page calls make on a user address. -/
def badVa (va : Word) : Prop := utop ≤ va ∨ va % 4096#32 ≠ 0#32

instance (va : Word) : Decidable (badVa va) := inferInstanceAs (Decidable (_ ∨ _))

def withPm (s : KState) (x : Except String (Int × PMap)) : Except Stop (Int × KState) := do
  let (r, m) ← panics x
  pure (r, { s with pm := m })

def sysCputs (s : KState) (c cur : Nat) (a len : Word) : Except Stop (Int × KState) := do
  let s ← userMemAssert M s c cur a len (pteP ||| pteW ||| pteU)
  pure (0, s)

def sysGetenvid (s : KState) (cur : Nat) : Int := (s.envs cur).envId.toInt

def sysEnvDestroy (s : KState) (c cur : Nat) (envid : Word) : Except Stop (Int × KState) :=
  match envid2env s cur envid true with
  | .error r => .ok (r, s)
  | .ok e => do
      let s ← envDestroy M s c e
      pure (0, s)

def sysExofork (s : KState) (cur : Nat) : Int × KState :=
  match envAlloc M s (s.envs cur).envId with
  | .error r => (r, s)
  | .ok (newenv, s) =>
      let tf := (s.envs cur).envTf
      let s := s.setEnv newenv fun env =>
        { env with
          envStatus := .notRunnable
          envTf := { tf with regs := { tf.regs with eax := 0#32 } } }
      ((s.envs newenv).envId.toInt, s)

/-- The statuses `sys_env_set_status` accepts, by their numbers in `inc/env.h`. -/
def settableStatus (status : Word) : Option EnvStatus :=
  if status = 2#32 then some .runnable
  else if status = 4#32 then some .notRunnable
  else none

def sysEnvSetStatus (s : KState) (cur : Nat) (envid status : Word) : Int × KState :=
  match settableStatus status with
  | none => (-eInval, s)
  | some st =>
      match envid2env s cur envid true with
      | .error r => (r, s)
      | .ok env => (0, s.setStatus env st)

def sysEnvSetPgfaultUpcall (s : KState) (c cur : Nat) (envid func : Word) :
    Except Stop (Int × KState) :=
  match envid2env s cur envid true with
  | .error r => .ok (r, s)
  | .ok env => do
      let s ← userMemAssert M s c env func 4096#32 (pteP ||| pteU)
      pure (0, s.setEnv env fun x => { x with envPgfaultUpcall := func })

def sysPageAlloc (s : KState) (cur : Nat) (envid va perm : Word) : Except Stop (Int × KState) :=
  if badVa va then .ok (-eInval, s)
  else
    match envid2env s cur envid true with
    | .error r => .ok (r, s)
    | .ok env =>
        withPm s (envPageAlloc M s.pm (s.envs env).envPgdir va (perm ||| pteU ||| pteP))

def sysPageMap (s : KState) (cur : Nat) (srcenvid srcva dstenvid dstva perm : Word) :
    Except Stop (Int × KState) :=
  if badVa srcva then .ok (-eInval, s)
  else if badVa dstva then .ok (-eInval, s)
  else
    match envid2env s cur srcenvid true with
    | .error r => .ok (r, s)
    | .ok srcenv =>
        match envid2env s cur dstenvid true with
        | .error r => .ok (r, s)
        | .ok dstenv =>
            withPm s (envPageMap M s.pm (s.envs srcenv).envPgdir srcva (s.envs dstenv).envPgdir
              dstva (pteP ||| pteU ||| perm))

def sysPageUnmap (s : KState) (cur : Nat) (envid va : Word) : Except Stop (Int × KState) :=
  if badVa va then .ok (-eInval, s)
  else
    match envid2env s cur envid true with
    | .error r => .ok (r, s)
    | .ok env => do
        let m ← panics (pageRemove M s.pm (s.envs env).envPgdir va)
        pure (0, { s with pm := m })

/-- The end of a send that succeeds. -/
def ipcDeliver (s : KState) (cur dst : Nat) (value : Word) : KState :=
  s.setEnv dst fun env =>
    { env with
      envIpcFrom := (s.envs cur).envId
      envIpcRecving := false
      envIpcValue := value
      envTf := { env.envTf with regs := { env.envTf.regs with eax := 0#32 } }
      envStatus := .runnable }

/-- `*srcpte` after the call of `page_lookup` in `sys_ipc_try_send`. -/
def ipcSrcpte (s : KState) (cur : Nat) (srcva : Word) (junk : Option Word) : Except Stop Word := do
  match ← panics (pageLookup M s.pm (s.envs cur).envPgdir srcva) with
  | some (_, srcpte) => pure (s.pm.read srcpte)
  | none =>
      match junk with
      | none => .error (.panic "page fault in kernel mode")
      | some w => pure w

/-- The transfer of a page to a receiver that asks for one: a zeroed page is
mapped first, and then the sender's in its place. -/
def ipcTransfer (s : KState) (cur dst : Nat) (srcva perm : Word) :
    Except Stop (Int × KState) := do
  let dstva := (s.envs dst).envIpcDstva
  let (r, s) ← withPm s (envPageAlloc M s.pm (s.envs dst).envPgdir dstva perm)
  if r < 0 then pure (r, s)
  else
    withPm s (envPageMap M s.pm (s.envs cur).envPgdir srcva (s.envs dst).envPgdir dstva perm)

def sysIpcTrySend (s : KState) (cur : Nat) (envid value srcva perm : Word)
    (junk : Option Word) : Except Stop (Int × KState) :=
  match envid2env s cur envid false with
  | .error r => .ok (r, s)
  | .ok dst =>
      if ¬ (s.envs dst).envIpcRecving then .ok (-eIpcNotRecv, s)
      else if utop ≤ srcva then
        let s := s.setEnv dst fun env => { env with envIpcPerm := 0#32 }
        .ok (0, ipcDeliver s cur dst value)
      else if srcva % 4096#32 ≠ 0#32 then .ok (-eInval, s)
      else do
        let srcpte ← ipcSrcpte M s cur srcva junk
        if srcpte ≠ 0#32 ∧ srcpte &&& pteP = 0#32 then pure (-eInval, s)
        else if perm &&& pteW ≠ 0#32 ∧ srcpte &&& pteW = 0#32 then pure (-eInval, s)
        else
          let perm := perm ||| pteU ||| pteP
          if (s.envs dst).envIpcDstva = 0#32 then pure (0, ipcDeliver s cur dst value)
          else do
            let (r, s) ← ipcTransfer M s cur dst srcva perm
            if r < 0 then pure (r, s)
            else
              let s := s.setEnv dst fun env => { env with envIpcPerm := perm }
              pure (0, ipcDeliver s cur dst value)

def sysIpcRecv (s : KState) (c cur : Nat) (dstva : Word) : Except Stop (Int × KState) :=
  let s := s.setEnv cur fun env => { env with envIpcRecving := true }
  if badVa dstva then .ok (-eInval, s)
  else
    let s := s.setEnv cur fun env =>
      { env with envIpcDstva := dstva, envStatus := .notRunnable }
    .error (schedYield M s c)

def sysEnvGetPriority (s : KState) (cur : Nat) (envid : Word) : Int :=
  if envid = 0#32 ∨ envid = (s.envs cur).envId then (s.envs cur).envPriority
  else
    match envid2env s cur envid false with
    | .error _ => -eBadEnv
    | .ok env => (s.envs env).envPriority

def sysEnvSetPriority (s : KState) (cur : Nat) (envid : Word) (priority : Int) : Int × KState :=
  if (envid = 0#32 ∨ envid = (s.envs cur).envId) ∧ priority < (s.envs cur).envPriority then
    (-eInval, s)
  else
    match envid2env s cur envid false with
    | .error _ => (-eBadEnv, s)
    | .ok env => (0, s.setEnv env fun x => { x with envPriority := priority })

/-- The system call numbers of `inc/syscall.h`. -/
inductive Sysno
  | cputs
  | cgetc
  | getenvid
  | envDestroy
  | pageAlloc
  | pageMap
  | pageUnmap
  | exofork
  | envSetStatus
  | envSetPgfaultUpcall
  | yield
  | ipcTrySend
  | ipcRecv
  | envGetPriority
  | envSetPriority
  deriving DecidableEq, Repr

def Sysno.all : List Sysno :=
  [.cputs, .cgetc, .getenvid, .envDestroy, .pageAlloc, .pageMap, .pageUnmap, .exofork,
    .envSetStatus, .envSetPgfaultUpcall, .yield, .ipcTrySend, .ipcRecv, .envGetPriority,
    .envSetPriority]

def sysno (w : Word) : Option Sysno := Sysno.all[w.toNat]?

/-- `syscall`: the call made with the saved registers `r`. -/
def syscall (s : KState) (c cur : Nat) (r : PushRegs) (inp : Inputs) :
    Except Stop (Int × KState) :=
  match sysno r.eax with
  | some .cputs => sysCputs M s c cur r.edx r.ecx
  | some .getenvid => .ok (sysGetenvid s cur, s)
  | some .envDestroy => sysEnvDestroy M s c cur r.edx
  | some .cgetc => .ok (inp.consGetc, s)
  | some .exofork => .ok (sysExofork M s cur)
  | some .envSetStatus => .ok (sysEnvSetStatus s cur r.edx r.ecx)
  | some .pageAlloc => sysPageAlloc M s cur r.edx r.ecx r.ebx
  | some .pageMap => sysPageMap M s cur r.edx r.ecx r.ebx r.edi r.esi
  | some .pageUnmap => sysPageUnmap M s cur r.edx r.ecx
  | some .ipcRecv => sysIpcRecv M s c cur r.edx
  | some .ipcTrySend => sysIpcTrySend M s cur r.edx r.ecx r.ebx r.edi inp.junk
  | some .envSetPgfaultUpcall => sysEnvSetPgfaultUpcall M s c cur r.edx r.ecx
  | some .envGetPriority => .ok (sysEnvGetPriority s cur r.edx, s)
  | some .envSetPriority => .ok (sysEnvSetPriority s cur r.edx r.ecx.toInt)
  | some .yield => .error (schedYield M s c)
  | none => .ok (-eInval, s)

end Jos
end Sisop

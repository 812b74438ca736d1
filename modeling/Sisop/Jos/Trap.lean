import Sisop.Jos.Syscall

/-!
# Traps

`trap` and `page_fault_handler` of `kern/trap.c`, for a trap from user mode and
for an interrupt that wakes a halted CPU.
-/

namespace Sisop
namespace Jos

def tBrkpt : Word := 3#32
def tPgflt : Word := 14#32
def tSyscall : Word := 48#32
def irqTimer : Word := 32#32
def irqSpurious : Word := 39#32

/-- `struct UTrapframe`. -/
structure UTrapframe where
  utfFaultVa : Word
  utfErr : Word
  utfRegs : PushRegs
  utfEip : Word
  utfEflags : Word
  utfEsp : Word

def PushRegs.words (r : PushRegs) : List Word :=
  [r.edi, r.esi, r.ebp, r.oesp, r.ebx, r.edx, r.ecx, r.eax]

/-- The structure in memory order. -/
def UTrapframe.bytes (u : UTrapframe) : List (BitVec 8) :=
  ([u.utfFaultVa, u.utfErr] ++ u.utfRegs.words ++ [u.utfEip, u.utfEflags, u.utfEsp]).flatMap
    wordBytes

def sizeofUTrapframe : Nat := 52

def exstk : Word := uxstacktop - 4096#32
def exstkTop : Word := uxstacktop - 1#32

variable (M : Machine)

/-- Where `page_fault_handler` pushes, for the trap-time stack pointer `esp`. -/
def utfAddr (esp : Word) : Word :=
  if esp < exstk ∨ exstkTop < esp then exstkTop - 52#32 else esp - 4#32 - 52#32

/-- The first store of `page_fault_handler`: a scratch word, when the trap-time
stack is the exception stack. -/
def pushScratch (m : PMap) (dir : Nat) (esp : Word) : Except Stop PMap :=
  if esp < exstk ∨ exstkTop < esp then .ok m
  else kernelStoreBytes m dir (esp - 4#32) (wordBytes 0#32)

/-- Both stores: the scratch word and the frame. -/
def pushUtf (m : PMap) (dir : Nat) (u : UTrapframe) : Except Stop PMap := do
  let m ← pushScratch m dir u.utfEsp
  kernelStoreBytes m dir (utfAddr u.utfEsp) u.bytes

/-- `page_fault_handler` for a fault in user mode, with `cur` the current
environment and its saved registers the trap frame. -/
def pageFaultHandler (s : KState) (c cur : Nat) (faultVa : Word) : Except Stop KState :=
  if (s.envs cur).envPgfaultUpcall ≠ 0#32 then do
    let s ← userMemAssert M s c cur exstk 4096#32 (pteU ||| pteW)
    let tf := (s.envs cur).envTf
    let utf : UTrapframe :=
      { utfFaultVa := faultVa, utfErr := tf.err, utfRegs := tf.regs, utfEip := tf.eip,
        utfEflags := tf.eflags, utfEsp := tf.esp }
    let m ← pushUtf s.pm (s.cpus c).cr3 utf
    let s := { s with pm := m }
    let tmp := utfAddr tf.esp
    if tmp < exstk ∨ exstkTop < tmp then
      .error (.panic "page_fault_handler: exception stack overflow")
    else
      let s := s.setEnv cur fun env =>
        { env with envTf := { env.envTf with esp := tmp, eip := env.envPgfaultUpcall } }
      .error (envRun s c cur)
  else envDestroy M s c cur

/-- The result of a system call goes to the saved `eax`. -/
def setEax (s : KState) (cur : Nat) (r : Int) : KState :=
  s.setEnv cur fun env =>
    { env with
      envTf := { env.envTf with regs := { env.envTf.regs with eax := BitVec.ofInt 32 r } } }

/-- `trap_dispatch` for a trap from user mode. -/
def trapDispatch (s : KState) (c cur : Nat) (tf : Trapframe) (inp : Inputs) :
    Except Stop KState :=
  if tf.trapno = tBrkpt then .ok s
  else if tf.trapno = tPgflt then pageFaultHandler M s c cur inp.cr2
  else if tf.trapno = tSyscall then do
    let (r, s) ← syscall M s c cur tf.regs inp
    pure (setEax s cur r)
  else if tf.trapno = irqSpurious then .ok s
  else if tf.trapno = irqTimer then .error (schedYield M s c)
  else envDestroy M s c cur

def endOf : Except Stop Stop → Stop
  | .ok stop => stop
  | .error stop => stop

/-- The end of `trap`: back to the current environment if it is still running. -/
def trapReturn (s : KState) (c : Nat) : Stop :=
  match s.curenv c with
  | some cur => if (s.envs cur).envStatus = .running then envRun s c cur else schedYield M s c
  | none => schedYield M s c

/-- The trap frame is saved in the environment. -/
def saveTf (s : KState) (cur : Nat) (tf : Trapframe) : KState :=
  s.setEnv cur fun env => { env with envTf := tf }

/-- The CPU is no longer halted. -/
def cpuStarted (s : KState) (c : Nat) : KState :=
  s.setCpu c fun cpu => { cpu with cpuStatus := .started }

/-- `trap` from user mode. -/
def trap (s : KState) (c : Nat) (tf : Trapframe) (inp : Inputs) : Stop :=
  let s := cpuStarted s c
  match s.curenv c with
  | none => .panic "assertion failed: curenv"
  | some cur =>
      if (s.envs cur).envStatus = .dying then
        endOf do
          let s ← envFree M s c cur
          pure (schedYield M (s.setCurenv c none) c)
      else
        let s := saveTf s cur tf
        endOf do
          let s ← trapDispatch M s c cur tf inp
          pure (trapReturn M s c)

/-- `trap` for an interrupt on a halted CPU. -/
def wake (s : KState) (c : Nat) (trapno : Word) : Stop :=
  let s := cpuStarted s c
  if trapno = irqTimer then schedYield M s c
  else if trapno = irqSpurious then trapReturn M s c
  else .panic "unhandled trap in kernel"

end Jos
end Sisop

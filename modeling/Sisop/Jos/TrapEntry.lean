import Sisop.Lib.X86
import Sisop.Jos.Trap

/-!
# Entering and leaving the kernel

`kern/trapentry.S` and `kern/switch.S`, with the part of a trap the processor does.
The kernel's memory is byte memory, in which `struct Trapframe` has the layout of
`inc/trap.h`.
-/

namespace Sisop
namespace Jos

open X86 (Selector Instr Platform readWord flat)

def gdKd : Selector := 0x10#16

/-- The data segments the descriptor table of `kern/env.c` lets code load.  The null
selector is one, the local table is empty, and the readable segments of the kernel
are for its level. -/
def gdtLoadable (cpl : Nat) (sel : Selector) : Bool :=
  if sel &&& 4#16 ≠ 0#16 then false
  else
    match (sel >>> 3).toNat with
    | 0 => true
    | 1 | 2 => max cpl (X86.rpl sel) == 0
    | 3 | 4 => true
    | _ => false

/-! ## Entry -/

/-- Whether the processor pushes an error code. -/
def pushesErrorCode (trapno : Nat) : Bool :=
  trapno == 8 || (10 ≤ trapno && trapno ≤ 14) || trapno == 17

/-- `TRAPHANDLER` -/
def trapHandler (num : Nat) : List Instr := [.pushlImm (BitVec.ofNat 32 num)]

/-- `TRAPHANDLER_NOEC` -/
def trapHandlerNoec (num : Nat) : List Instr := [.pushlImm 0#32, .pushlImm (BitVec.ofNat 32 num)]

/-- The entry points `trap_init` puts in `idt`. -/
def idt : Nat → Option (List Instr)
  | 0 => some (trapHandlerNoec 0)
  | 1 => some (trapHandlerNoec 1)
  | 2 => some (trapHandlerNoec 2)
  | 3 => some (trapHandlerNoec 3)
  | 4 => some (trapHandlerNoec 4)
  | 5 => some (trapHandlerNoec 5)
  | 6 => some (trapHandlerNoec 6)
  | 7 => some (trapHandlerNoec 7)
  | 8 => some (trapHandler 8)
  | 10 => some (trapHandler 10)
  | 11 => some (trapHandler 11)
  | 12 => some (trapHandler 12)
  | 13 => some (trapHandler 13)
  | 14 => some (trapHandler 14)
  | 16 => some (trapHandlerNoec 16)
  | 17 => some (trapHandler 17)
  | 18 => some (trapHandlerNoec 18)
  | 19 => some (trapHandlerNoec 19)
  | 32 => some (trapHandlerNoec 32)
  | 48 => some (trapHandlerNoec 48)
  | _ => none

/-- `_alltraps`, with the address of `trap` and the one after the call. -/
def alltraps (trapAddr next : Word) : List Instr :=
  [.pushlSeg .ds, .pushlSeg .es, .pushal, .pushl .esp, .call trapAddr next]

/-- What an interrupt gate to the kernel's code does to the registers of a program,
`esp0` being the stack pointer in the task state segment. -/
def kernelCpu (c : X86.Cpu) (esp0 : Word) : X86.Cpu :=
  X86.Cpu.setReg
    { c with
      cs := gdKt
      ss := gdKd
      eflags := c.eflags &&& ~~~(X86.flTf ||| X86.flIf ||| X86.flNt ||| X86.flVm) }
    .esp esp0

/-- What the processor pushes for a trap from user mode. -/
def hardwareWords (c : X86.Cpu) (trapno : Nat) (err : Word) : List Word :=
  [c.ss.zeroExtend 32, c.esp, c.eflags, c.cs.zeroExtend 32, c.eip] ++
    if pushesErrorCode trapno then [err] else []

variable {μ : Type}

/-- A trap from user mode, up to the call of `trap`. -/
def trapEntry (P : Platform μ) (trapno : Nat) (stub : List Instr)
    (err esp0 trapAddr next : Word) (s : X86.State μ) : Option (X86.State μ) := do
  let k ← X86.pushAll P (hardwareWords s.cpu trapno err) { s with cpu := kernelCpu s.cpu esp0 }
  X86.run P (stub ++ alltraps trapAddr next) k

/-! ## Exit -/

def contextSwitch : List Instr :=
  [.movlFrom 4#32 .esp .esp, .popal, .poplSeg .es, .poplSeg .ds, .addl 8#32 .esp, .iret]

/-! ## The trap frame -/

/-- `struct Trapframe` at an address. -/
def trapframeAt (word : Word → Word) (p : Word) : Trapframe where
  regs :=
    { edi := word (X86.above p 0)
      esi := word (X86.above p 1)
      ebp := word (X86.above p 2)
      oesp := word (X86.above p 3)
      ebx := word (X86.above p 4)
      edx := word (X86.above p 5)
      ecx := word (X86.above p 6)
      eax := word (X86.above p 7) }
  es := (word (X86.above p 8)).truncate 16
  ds := (word (X86.above p 9)).truncate 16
  trapno := word (X86.above p 10)
  err := word (X86.above p 11)
  eip := word (X86.above p 12)
  cs := (word (X86.above p 13)).truncate 16
  eflags := word (X86.above p 14)
  esp := word (X86.above p 15)
  ss := (word (X86.above p 16)).truncate 16

/-- The frame of a trap.  `reg_oesp` is the kernel's stack pointer before `pushal`. -/
def savedTf (c : X86.Cpu) (trapno : Nat) (err esp0 : Word) : Trapframe where
  regs :=
    { edi := c.reg .edi
      esi := c.reg .esi
      ebp := c.reg .ebp
      oesp := esp0 - 36#32
      ebx := c.reg .ebx
      edx := c.reg .edx
      ecx := c.reg .ecx
      eax := c.reg .eax }
  es := c.es
  ds := c.ds
  trapno := BitVec.ofNat 32 trapno
  err := if pushesErrorCode trapno then err else 0#32
  eip := c.eip
  cs := c.cs
  eflags := c.eflags
  esp := c.esp
  ss := c.ss

/-- The words from the top of the kernel stack to the frame. -/
def frameWords (c : X86.Cpu) (trapno : Nat) (err esp0 : Word) : List Word :=
  [c.ss.zeroExtend 32, c.esp, c.eflags, c.cs.zeroExtend 32, c.eip,
    if pushesErrorCode trapno then err else 0#32, BitVec.ofNat 32 trapno,
    c.ds.zeroExtend 32, c.es.zeroExtend 32, c.reg .eax, c.reg .ecx, c.reg .edx, c.reg .ebx,
    esp0 - 36#32, c.reg .ebp, c.reg .esi, c.reg .edi]

/-- Every entry point completes the frame the processor began. -/
theorem hardwareWords_idt {trapno : Nat} {stub : List Instr} (h : idt trapno = some stub)
    (c : X86.Cpu) (err : Word) :
    ∃ ws, hardwareWords c trapno err ++ ws =
        [c.ss.zeroExtend 32, c.esp, c.eflags, c.cs.zeroExtend 32, c.eip,
          if pushesErrorCode trapno then err else 0#32, BitVec.ofNat 32 trapno] ∧
      stub = ws.map .pushlImm := by
  unfold idt at h
  split at h
  all_goals cases h
  all_goals first
    | exact ⟨[0#32, BitVec.ofNat 32 _], rfl, rfl⟩
    | exact ⟨[BitVec.ofNat 32 _], rfl, rfl⟩

/-! ## The entry path on the kernel stack -/

section

variable {A : List Word} {c : X86.Cpu} {v : Word → Word} {trapno : Nat} {stub : List Instr}
  {err esp0 trapAddr next : Word}

theorem and_cleared {w mask bits : Word} (h : ~~~mask &&& bits = 0#32) :
    w &&& ~~~mask &&& bits = 0#32 := by
  rw [BitVec.and_assoc, h, BitVec.and_zero]

theorem kernelCpu_noTraps (c : X86.Cpu) (esp0 : Word) : (kernelCpu c esp0).NoTraps := by
  refine ⟨and_cleared (by decide), .inl ?_⟩
  show X86.rpl gdKt ≠ 3
  decide

theorem run_alltraps {k : X86.Cpu} {ws : List Word} (hk : k.NoTraps) (hlen : ws.length = 7)
    (hA : ∀ i, i < 19 → X86.below esp0 i ∈ A) :
    X86.run (X86.slots A gdtLoadable) (alltraps trapAddr next) (X86.onStack k v esp0 ws) =
      some (X86.onStack { k with eip := trapAddr } v esp0
        (ws ++ [k.ds.zeroExtend 32] ++ [k.es.zeroExtend 32] ++
          [k.reg .eax, k.reg .ecx, k.reg .edx, k.reg .ebx, esp0 - 36#32, k.reg .ebp, k.reg .esi,
            k.reg .edi] ++ [esp0 - 68#32] ++ [next])) := by
  unfold alltraps
  rw [X86.run_cons, X86.exec_onStack hk (fun i hi => hA i ?_) (X86.pushed_seg .ds),
    Option.bind_eq_bind, Option.bind_some, X86.run_cons,
    X86.exec_onStack hk (fun i hi => hA i ?_) (X86.pushed_seg .es), Option.bind_eq_bind,
    Option.bind_some, X86.run_cons, X86.exec_onStack hk (fun i hi => hA i ?_) X86.pushed_pushal,
    Option.bind_eq_bind, Option.bind_some, X86.run_cons,
    X86.exec_onStack hk (fun i hi => hA i ?_) X86.pushed_esp, Option.bind_eq_bind,
    Option.bind_some, X86.run_cons, X86.exec_call hk fun i hi => hA i ?_]
  · simp only [List.length_append, List.length_cons, List.length_nil, hlen]
    rfl
  all_goals
    simp only [List.length_append, List.length_cons, List.length_nil, hlen] at hi
    omega

/-- The processor, the entry point and `_alltraps` push the frame, its address and a
return address. -/
theorem trapEntry_slots (hstub : idt trapno = some stub)
    (hA : ∀ i, i < 19 → X86.below esp0 i ∈ A) :
    trapEntry (X86.slots A gdtLoadable) trapno stub err esp0 trapAddr next ⟨c, v⟩ =
      some (X86.onStack { kernelCpu c esp0 with eip := trapAddr } v esp0
        (frameWords c trapno err esp0 ++ [esp0 - 68#32, next])) := by
  have hk := kernelCpu_noTraps c esp0
  obtain ⟨ws, hws, rfl⟩ := hardwareWords_idt hstub c err
  have hlen := congrArg List.length hws
  have hstart : (⟨kernelCpu c esp0, v⟩ : X86.State (Word → Word)) =
      X86.onStack (kernelCpu c esp0) v esp0 [] := by
    simp [X86.onStack, X86.stacked, kernelCpu]
  unfold trapEntry
  dsimp only
  rw [hstart, X86.pushAll_onStack hk fun i hi => hA i ?_]
  · rw [Option.bind_eq_bind, Option.bind_some, X86.run_append, List.nil_append,
      X86.run_pushImms hk fun i hi => hA i ?_, Option.bind_eq_bind, Option.bind_some, hws,
      run_alltraps hk rfl hA]
    · rfl
    · rw [hlen] at hi
      exact Nat.lt_trans hi (show 7 < 19 by decide)
  · rw [List.length_append] at hlen
    rw [List.nil_append] at hi
    have hseven : (hardwareWords c trapno err).length + ws.length = 7 := hlen
    omega

end

/-- The frame reads back as the state at the trap. -/
theorem trapframeAt_frameWords {word : Word → Word} {p : Word} {c : X86.Cpu} {trapno : Nat}
    {err esp0 : Word}
    (h : ∀ i (hi : i < 17), word (X86.above p (16 - i)) = (frameWords c trapno err esp0)[i]) :
    trapframeAt word p = savedTf c trapno err esp0 := by
  have hsel : ∀ sel : Selector, (sel.zeroExtend 32).truncate 16 = sel := fun sel => by simp
  unfold trapframeAt savedTf
  rw [h 0 (by decide), h 1 (by decide), h 2 (by decide), h 3 (by decide), h 4 (by decide),
    h 5 (by decide), h 6 (by decide), h 7 (by decide), h 8 (by decide), h 9 (by decide),
    h 10 (by decide), h 11 (by decide), h 12 (by decide), h 13 (by decide), h 14 (by decide),
    h 15 (by decide), h 16 (by decide)]
  unfold frameWords
  simp only [List.getElem_cons_zero, List.getElem_cons_succ, hsel]

theorem trapEntry_matches {ν : Type} {P : Platform μ} {Q : Platform ν} {R : μ → ν → Prop}
    (h : X86.Simulates P Q R) {s : X86.State μ} {t : X86.State ν} (hs : X86.Alike R s t)
    (trapno : Nat) (stub : List Instr) (err esp0 trapAddr next : Word) :
    X86.Matches (X86.Alike R) (trapEntry P trapno stub err esp0 trapAddr next s)
      (trapEntry Q trapno stub err esp0 trapAddr next t) := by
  unfold trapEntry
  rw [hs.1]
  exact (h.pushAll_matches _ (hs.setCpu _)).bind fun _ _ hk => h.run_matches _ hk

/-! ## The kernel called, the program restored -/

structure UserMode (c : X86.Cpu) : Prop where
  cpl : c.cpl = 3
  protectedMode : c.eflags &&& X86.flVm = 0#32
  ds : gdtLoadable 3 c.ds = true
  es : gdtLoadable 3 c.es = true

structure KernelMode (c : X86.Cpu) : Prop where
  cpl : c.cpl = 0
  noStep : c.eflags &&& X86.flTf = 0#32
  noTask : c.eflags &&& X86.flNt = 0#32

/-- The kernel is at `trap`, with the frame of the trap as its argument. -/
structure CallsTrap (c : X86.Cpu) (trapno : Nat) (err esp0 trapAddr : Word)
    (k : X86.State (Word → X86.Byte)) : Prop where
  mode : KernelMode k.cpu
  eip : k.cpu.eip = trapAddr
  tf : readWord k.mem (k.cpu.esp + 4#32) = esp0 - 68#32
  frame : trapframeAt (readWord k.mem) (esp0 - 68#32) = savedTf c trapno err esp0

/-- `context_switch` on a copy of the frame, wherever the kernel keeps it, restores the
registers and leaves the memory as it is. -/
def Restores (tf : Trapframe) (c : X86.Cpu) : Prop :=
  ∀ s : X86.State (Word → X86.Byte), KernelMode s.cpu →
    trapframeAt (readWord s.mem) (readWord s.mem (s.cpu.esp + 4#32)) = tf →
      X86.run (flat gdtLoadable) contextSwitch s = some { s with cpu := c }

theorem gdtLoadable_kernel {sel : Selector} (h : gdtLoadable 3 sel = true) :
    gdtLoadable 0 sel = true := by
  unfold gdtLoadable at h ⊢
  split at h
  · cases h
  · rename_i hlocal
    rw [if_neg hlocal]
    split at h
    · rfl
    · simp at h
    · simp at h
    · rfl
    · rfl
    · cases h

/-- The registers `context_switch` loads from the words of a frame. -/
def frameCpu (w : Nat → Word) (ds es : Selector) : X86.Cpu where
  reg
    | .edi => w 0
    | .esi => w 1
    | .ebp => w 2
    | .esp => w 15
    | .ebx => w 4
    | .edx => w 5
    | .ecx => w 6
    | .eax => w 7
  eip := w 12
  eflags := w 14
  cs := (w 13).truncate 16
  ss := (w 16).truncate 16
  ds := ds
  es := es

theorem run_contextSwitch {P : Platform μ} {s : X86.State μ} {p : Word} {w : Nat → Word}
    (hs : KernelMode s.cpu) (hp : P.load s.mem (s.cpu.esp + 4#32) = some p)
    (hw : ∀ i, i < 17 → P.load s.mem (X86.above p i) = some (w i))
    (hes : P.loadable 0 ((w 8).truncate 16) = true)
    (hds : P.loadable 0 ((w 9).truncate 16) = true)
    (hrpl : 0 < X86.rpl ((w 13).truncate 16)) :
    X86.run P contextSwitch s =
      some ⟨frameCpu w
        (X86.keepSeg P (X86.rpl ((w 13).truncate 16)) ((w 9).truncate 16))
        (X86.keepSeg P (X86.rpl ((w 13).truncate 16)) ((w 8).truncate 16)), s.mem⟩ := by
  obtain ⟨c, m⟩ := s
  have hzero : c.cpl = 0 := hs.cpl
  have h₀ : c.NoTraps := ⟨hs.noStep, .inl (by rw [hzero]; decide)⟩
  have hbase : (c.setReg .esp p).esp = X86.above p 0 := by
    rw [X86.above_zero]
    exact X86.Cpu.esp_setReg _ _
  have h₁ : (c.setReg .esp p).NoTraps := h₀
  have hpopal := X86.popal_above (P := P) (m := m) (w := w) h₁ hbase fun j hj => by
    rw [Nat.zero_add]
    exact hw j (Nat.lt_trans hj (by decide))
  unfold contextSwitch
  rw [X86.run_cons, X86.exec_movlFrom h₀ hp, Option.bind_eq_bind, Option.bind_some, X86.run_cons,
    X86.exec_popal h₁, hpopal, Option.bind_eq_bind, Option.bind_some]
  generalize hc₂ : (c.setReg .esp p).popped w (X86.above p (0 + 8)) = c₂
  have h₂ : c₂.NoTraps := hc₂ ▸ h₀
  have hzero₂ : c₂.cpl = 0 := hc₂ ▸ hzero
  have hesp₂ : c₂.esp = X86.above p 8 := by rw [← hc₂]; rfl
  rw [X86.run_cons, X86.exec_poplSeg h₂ hesp₂ (hw 8 (by decide)) (by rw [hzero₂]; exact hes),
    Option.bind_eq_bind, Option.bind_some]
  generalize hc₃ : (c₂.setReg .esp (X86.above p (8 + 1))).setSeg ((w 8).truncate 16) .es = c₃
  have h₃ : c₃.NoTraps := hc₃ ▸ h₂
  have hzero₃ : c₃.cpl = 0 := hc₃ ▸ hzero₂
  have hesp₃ : c₃.esp = X86.above p 9 := by rw [← hc₃]; exact X86.Cpu.esp_setReg c₂ _
  rw [X86.run_cons, X86.exec_poplSeg h₃ hesp₃ (hw 9 (by decide)) (by rw [hzero₃]; exact hds),
    Option.bind_eq_bind, Option.bind_some]
  generalize hc₄ : (c₃.setReg .esp (X86.above p (9 + 1))).setSeg ((w 9).truncate 16) .ds = c₄
  have h₄ : c₄.NoTraps := hc₄ ▸ h₃
  have hesp₄ : c₄.reg .esp = X86.above p 10 := by rw [← hc₄]; exact X86.Cpu.esp_setReg c₃ _
  rw [X86.run_cons, X86.exec_addl h₄, hesp₄, Option.bind_eq_bind, Option.bind_some]
  generalize hc₅ : (c₄.setReg .esp (X86.above p 10 + 8#32)).setFlags X86.flArith
    (X86.addFlags (X86.above p 10) 8#32) = c₅
  have h₅ : c₅.NoTraps := by
    rw [← hc₅, X86.Cpu.noTraps_setArith]
    exact h₄
  have hzero₅ : c₅.cpl = 0 := by rw [← hc₅, ← hc₄]; exact hzero₃
  have hesp₅ : c₅.esp = X86.above p 12 := by
    rw [← hc₅]
    refine (X86.Cpu.esp_setReg c₄ _).trans ?_
    unfold X86.above
    rw [BitVec.add_assoc]
    rfl
  rw [X86.run_cons, X86.exec_iret h₅,
    X86.iret_above (w := fun j => w (12 + j)) h₅ hzero₅ hesp₅
      (fun j hj => hw _ (by omega)) hrpl]
  refine congrArg some (congrArg (X86.State.mk · m) ?_)
  rw [← hc₅, ← hc₄, ← hc₃, ← hc₂]
  ext1
  · funext r
    cases r <;> rfl
  all_goals rfl

/-- The frame of a trap restores the registers at the trap. -/
theorem contextSwitch_restores {c : X86.Cpu} (hc : UserMode c) (trapno : Nat) (err esp0 : Word) :
    Restores (savedTf c trapno err esp0) c := by
  intro s hs hframe
  generalize hp : readWord s.mem (s.cpu.esp + 4#32) = p at hframe
  have hregs := congrArg Trapframe.regs hframe
  have hes : (readWord s.mem (X86.above p 8)).truncate 16 = c.es := congrArg Trapframe.es hframe
  have hds : (readWord s.mem (X86.above p 9)).truncate 16 = c.ds := congrArg Trapframe.ds hframe
  have hcs : (readWord s.mem (X86.above p 13)).truncate 16 = c.cs := congrArg Trapframe.cs hframe
  have hlevel : X86.rpl c.cs = 3 := hc.cpl
  rw [run_contextSwitch (p := p) (w := fun i => readWord s.mem (X86.above p i)) hs
    (congrArg some hp) (fun _ _ => rfl) (by rw [hes]; exact gdtLoadable_kernel hc.es)
    (by rw [hds]; exact gdtLoadable_kernel hc.ds) (by rw [hcs, hlevel]; decide)]
  refine congrArg some (congrArg (X86.State.mk · s.mem) ?_)
  rw [hes, hds, hcs, hlevel]
  ext1
  · funext r
    cases r with
    | edi => exact congrArg PushRegs.edi hregs
    | esi => exact congrArg PushRegs.esi hregs
    | ebp => exact congrArg PushRegs.ebp hregs
    | esp => exact congrArg Trapframe.esp hframe
    | ebx => exact congrArg PushRegs.ebx hregs
    | edx => exact congrArg PushRegs.edx hregs
    | ecx => exact congrArg PushRegs.ecx hregs
    | eax => exact congrArg PushRegs.eax hregs
  · exact congrArg Trapframe.eip hframe
  · exact congrArg Trapframe.eflags hframe
  · exact hcs
  · exact congrArg Trapframe.ss hframe
  · exact if_pos hc.ds
  · exact if_pos hc.es

/-- `trap` is called with the frame, in whatever data segments the program had. -/
theorem trapEntry_calls {trapno : Nat} {stub : List Instr} (hstub : idt trapno = some stub)
    (err esp0 trapAddr next : Word) (u : X86.State (Word → X86.Byte)) :
    ∃ k, trapEntry (flat gdtLoadable) trapno stub err esp0 trapAddr next u = some k ∧
      CallsTrap u.cpu trapno err esp0 trapAddr k ∧ k.cpu.ds = u.cpu.ds ∧ k.cpu.es = u.cpu.es := by
  have hslots := X86.flat_slots gdtLoadable (X86.apart_stackSlots esp0 (n := 19) (by decide)) u.mem
  obtain ⟨v, hv⟩ := hslots.exists_holds (m := u.mem) fun _ _ => rfl
  have hrun : trapEntry (X86.slots (X86.stackSlots esp0 19) gdtLoadable) trapno stub err esp0
      trapAddr next ⟨u.cpu, v⟩ =
        some (X86.onStack { kernelCpu u.cpu esp0 with eip := trapAddr } v esp0
          (frameWords u.cpu trapno err esp0 ++ [esp0 - 68#32, next])) :=
    trapEntry_slots hstub fun _ hi => X86.below_mem hi
  have halike : X86.Alike _ u ⟨u.cpu, v⟩ := ⟨rfl, hv⟩
  obtain ⟨k, hk, hcpu, _, hheld⟩ :=
    trapEntry_matches hslots.simulates halike trapno stub err esp0 trapAddr next _ hrun
  have hread : ∀ i (hi : i < 19), readWord k.mem (X86.below esp0 i) =
      (frameWords u.cpu trapno err esp0 ++ [esp0 - 68#32, next])[i] := by
    intro i hi
    have hload := Option.some.inj (hheld _ (X86.below_mem hi))
    refine hload.trans (X86.stacked_read ?_ hi)
    show 4 * (19 + 1) < 2 ^ 32
    decide
  have hesp : k.cpu.esp = esp0 - 76#32 := by rw [hcpu]; rfl
  have hmode : KernelMode k.cpu := by
    rw [hcpu]
    exact ⟨show X86.rpl gdKt = 0 by decide, and_cleared (by decide), and_cleared (by decide)⟩
  have htf : k.cpu.esp + 4#32 = X86.below esp0 17 := by
    rw [hesp]
    refine BitVec.eq_of_toNat_eq ?_
    simp only [X86.below, BitVec.toNat_add, BitVec.toNat_sub, BitVec.toNat_ofNat]
    omega
  refine ⟨k, hk, ⟨hmode, by rw [hcpu]; rfl, by rw [htf]; exact hread 17 (by decide), ?_⟩,
    by rw [hcpu]; rfl, by rw [hcpu]; rfl⟩
  refine trapframeAt_frameWords fun i hi => ?_
  have haddr : X86.above (esp0 - 68#32) (16 - i) = X86.below esp0 i := by
    refine (X86.above_below esp0 (Nat.sub_le 16 i)).trans ?_
    rw [Nat.sub_sub_self (Nat.le_of_lt_succ hi)]
  rw [haddr, hread i (by omega)]
  exact List.getElem_append_left hi

/-- What the entry path and `context_switch` are for. -/
def EntersAndLeaves (u : X86.State (Word → X86.Byte)) (trapno : Nat) (stub : List Instr)
    (err esp0 trapAddr next : Word) : Prop :=
  ∃ k, trapEntry (flat gdtLoadable) trapno stub err esp0 trapAddr next u = some k ∧
    CallsTrap u.cpu trapno err esp0 trapAddr k ∧ (k.cpu.ds = gdKd ∧ k.cpu.es = gdKd) ∧
    Restores (savedTf u.cpu trapno err esp0) u.cpu

theorem gdKd_not_loadable : gdtLoadable 3 gdKd = false := by decide

/-- A program cannot have the kernel's data segment, and nothing loads it. -/
theorem not_entersAndLeaves {u : X86.State (Word → X86.Byte)} {trapno : Nat} {stub : List Instr}
    (hu : UserMode u.cpu) (hstub : idt trapno = some stub) (err esp0 trapAddr next : Word) :
    ¬ EntersAndLeaves u trapno stub err esp0 trapAddr next := by
  rintro ⟨k, hk, _, ⟨hds, _⟩, _⟩
  obtain ⟨k', hk', _, hkeep, _⟩ := trapEntry_calls hstub err esp0 trapAddr next u
  have hsame : k' = k := Option.some.inj (hk'.symm.trans hk)
  have hloadable := hu.ds
  rw [← hkeep, hsame, hds, gdKd_not_loadable] at hloadable
  cases hloadable

/-- The entry path and `context_switch` are inverse to each other, but `trap` runs in the
program's data segments. -/
theorem user_segments_in_trap {u : X86.State (Word → X86.Byte)} {trapno : Nat}
    {stub : List Instr} (hu : UserMode u.cpu) (hstub : idt trapno = some stub)
    (err esp0 trapAddr next : Word) :
    ¬ EntersAndLeaves u trapno stub err esp0 trapAddr next ∧
      (∃ k, trapEntry (flat gdtLoadable) trapno stub err esp0 trapAddr next u = some k ∧
        CallsTrap u.cpu trapno err esp0 trapAddr k ∧
        k.cpu.ds = u.cpu.ds ∧ k.cpu.es = u.cpu.es) ∧
      Restores (savedTf u.cpu trapno err esp0) u.cpu :=
  ⟨not_entersAndLeaves hu hstub err esp0 trapAddr next,
    trapEntry_calls hstub err esp0 trapAddr next u,
    contextSwitch_restores hu trapno err esp0⟩

/-- A program that loaded the null selector. -/
def nullSegments : X86.State (Word → X86.Byte) where
  cpu :=
    { reg := fun _ => 0#32
      eip := 0x800020#32
      eflags := flIf
      cs := gdUt ||| 3#16
      ss := gdUd ||| 3#16
      ds := 0#16
      es := 0#16 }
  mem := fun _ => 0#8

theorem nullSegments_userMode : UserMode nullSegments.cpu :=
  ⟨by decide, by decide, by decide, by decide⟩

/-- A page fault of the program. -/
theorem user_segments_in_trap_null :
    ¬ EntersAndLeaves nullSegments 14 (trapHandler 14) 4#32 0xf0000000#32 0xf0104000#32
        0xf0104100#32 ∧
      (∃ k, trapEntry (flat gdtLoadable) 14 (trapHandler 14) 4#32 0xf0000000#32 0xf0104000#32
          0xf0104100#32 nullSegments = some k ∧
        CallsTrap nullSegments.cpu 14 4#32 0xf0000000#32 0xf0104000#32 k ∧
        k.cpu.ds = 0#16 ∧ k.cpu.es = 0#16) ∧
      Restores (savedTf nullSegments.cpu 14 4#32 0xf0000000#32) nullSegments.cpu :=
  user_segments_in_trap nullSegments_userMode rfl 4#32 0xf0000000#32 0xf0104000#32 0xf0104100#32

theorem null_segments_reach_trap :
    ¬ ∀ (u : X86.State (Word → X86.Byte)) (trapno : Nat) (stub : List Instr),
        UserMode u.cpu → idt trapno = some stub → ∀ err esp0 trapAddr next,
          EntersAndLeaves u trapno stub err esp0 trapAddr next := by
  intro h
  exact not_entersAndLeaves nullSegments_userMode rfl 4#32 0xf0000000#32 0xf0104000#32
    0xf0104100#32 (h nullSegments 14 (trapHandler 14) nullSegments_userMode rfl 4#32
      0xf0000000#32 0xf0104000#32 0xf0104100#32)

end Jos
end Sisop

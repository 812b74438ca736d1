import Mathlib.Algebra.Group.Nat.Defs
import Mathlib.Logic.Function.Basic
import Mathlib.Tactic.Common

/-!
# A fragment of the 32-bit x86

Straight-line code made of the stack and move instructions with which a kernel and
its user programs save and restore registers.  A `Platform` supplies the memory, in
words, and says which segment selectors can be loaded; an access it does not allow
makes the instruction fault, and then the run has no result.

`eip` is kept only where an instruction loads it.  Of the processor's debug and
alignment traps, a set `TF` stops every instruction and a set `AC` every misaligned
access of a program, as with `CR0.AM`.  The resume flag, which the processor sets
and clears around single instructions, is not part of the flags.

`Simulates.run_matches` moves a run from one memory to another one that represents it.
-/

namespace X86

abbrev Word := BitVec 32
abbrev Selector := BitVec 16

inductive Reg
  | edi
  | esi
  | ebp
  | esp
  | ebx
  | edx
  | ecx
  | eax
  deriving DecidableEq, Repr

inductive Seg
  | es
  | ds
  deriving DecidableEq, Repr

/-! ## Flags -/

def flTf : Word := 0x100#32
def flIf : Word := 0x200#32
def flIopl : Word := 0x3000#32
def flNt : Word := 0x4000#32
def flVm : Word := 0x20000#32
def flAc : Word := 0x40000#32

/-- The flags arithmetic sets: carry, parity, adjust, zero, sign and overflow. -/
def flArith : Word := 0x8d5#32

/-- The flags `popfl` loads at every privilege level: those of arithmetic, `TF`, `DF`,
`NT`, `AC` and `ID`. -/
def flUser : Word := 0x244dd5#32

/-- The bits of `old`, with those of `mask` from `new`. -/
def blend (mask old new : Word) : Word := (old &&& ~~~mask) ||| (new &&& mask)

def flagIf (c : Prop) [Decidable c] (bit : Word) : Word := if c then bit else 0#32

/-- The flags of a result, but for carry, adjust and overflow. -/
def resultFlags (r : Word) : Word :=
  flagIf (((List.range 8).filter fun i => r.getLsbD i).length % 2 = 0) 0x4#32 |||
    flagIf (r = 0#32) 0x40#32 ||| flagIf (r.msb = true) 0x80#32

def addFlags (a b : Word) : Word :=
  resultFlags (a + b) ||| flagIf (2 ^ 32 ≤ a.toNat + b.toNat) 0x1#32 |||
    flagIf (16 ≤ a.toNat % 16 + b.toNat % 16) 0x10#32 |||
    flagIf (a.msb = b.msb ∧ (a + b).msb ≠ a.msb) 0x800#32

def subFlags (a b : Word) : Word :=
  resultFlags (a - b) ||| flagIf (a.toNat < b.toNat) 0x1#32 |||
    flagIf (a.toNat % 16 < b.toNat % 16) 0x10#32 |||
    flagIf (a.msb ≠ b.msb ∧ (a - b).msb ≠ a.msb) 0x800#32

/-! ## States -/

@[ext] structure Cpu where
  reg : Reg → Word
  eip : Word
  eflags : Word
  cs : Selector
  ss : Selector
  ds : Selector
  es : Selector

structure State (μ : Type) where
  cpu : Cpu
  mem : μ

structure Platform (μ : Type) where
  load : μ → Word → Option Word
  store : μ → Word → Word → Option μ
  /-- Whether a data segment register can be loaded with a selector at a privilege
  level. -/
  loadable : Nat → Selector → Bool

def rpl (sel : Selector) : Nat := (sel &&& 3#16).toNat

namespace Cpu

variable (c : Cpu)

/-- The current privilege level. -/
def cpl : Nat := rpl c.cs

def iopl : Nat := ((c.eflags &&& flIopl) >>> 12).toNat

def esp : Word := c.reg .esp

def setReg (r : Reg) (w : Word) : Cpu := { c with reg := Function.update c.reg r w }

def setFlags (mask w : Word) : Cpu := { c with eflags := blend mask c.eflags w }

def seg : Seg → Selector
  | .es => c.es
  | .ds => c.ds

def setSeg (sel : Selector) : Seg → Cpu
  | .es => { c with es := sel }
  | .ds => { c with ds := sel }

/-- An access that the alignment check of a program stops. -/
def misaligned (a : Word) : Prop := c.cpl = 3 ∧ c.eflags &&& flAc ≠ 0#32 ∧ a.toNat % 4 ≠ 0

instance (a : Word) : Decidable (c.misaligned a) := inferInstanceAs (Decidable (_ ∧ _ ∧ _))

/-- What `popfl` loads at this privilege level. -/
def popMask : Word :=
  flUser ||| flagIf (c.cpl ≤ c.iopl) flIf ||| flagIf (c.cpl = 0) flIopl

end Cpu

/-! ## Instructions -/

inductive Instr
  | pushl (r : Reg)
  | pushlImm (w : Word)
  | pushlSeg (seg : Seg)
  | pushal
  | popl (r : Reg)
  | poplSeg (seg : Seg)
  | popal
  | popfl
  | addl (w : Word) (dst : Reg)
  | subl (w : Word) (dst : Reg)
  /-- `movl disp(base), dst` -/
  | movlFrom (disp : Word) (base dst : Reg)
  /-- `movl src, disp(base)` -/
  | movlTo (src : Reg) (disp : Word) (base : Reg)
  /-- `movl addr, dst` -/
  | movlAbs (addr : Word) (dst : Reg)
  /-- `call *r`, with the address after the instruction. -/
  | callReg (r : Reg) (next : Word)
  /-- `call target`, with the address after the instruction. -/
  | call (target next : Word)
  | ret
  | iret
  deriving DecidableEq, Repr

section

variable {μ : Type} (P : Platform μ)

def load (s : State μ) (a : Word) : Option Word :=
  if s.cpu.misaligned a then none else P.load s.mem a

def store (s : State μ) (a w : Word) : Option (State μ) :=
  if s.cpu.misaligned a then none
  else (P.store s.mem a w).map fun m => { s with mem := m }

def push (s : State μ) (w : Word) : Option (State μ) := do
  let s' ← store P s (s.cpu.esp - 4#32) w
  pure { s' with cpu := s'.cpu.setReg .esp (s.cpu.esp - 4#32) }

/-- The word on top of the stack, and the state without it. -/
def pop (s : State μ) : Option (Word × State μ) := do
  let w ← load P s s.cpu.esp
  pure (w, { s with cpu := s.cpu.setReg .esp (s.cpu.esp + 4#32) })

/-- A selector that cannot be used at the level `iret` returns to is cleared. -/
def keepSeg (level : Nat) (sel : Selector) : Selector := if P.loadable level sel then sel else 0#16

/-- Words pushed one after the other. -/
def pushAll (ws : List Word) (s : State μ) : Option (State μ) := ws.foldlM (push P) s

def pushal (s : State μ) : Option (State μ) :=
  pushAll P ([.eax, .ecx, .edx, .ebx, .esp, .ebp, .esi, .edi].map s.cpu.reg) s

/-- `popal`, which pops the saved `esp` and drops it. -/
def popal (s : State μ) : Option (State μ) := do
  let (edi, s) ← pop P s
  let (esi, s) ← pop P s
  let (ebp, s) ← pop P s
  let (_, s) ← pop P s
  let (ebx, s) ← pop P s
  let (edx, s) ← pop P s
  let (ecx, s) ← pop P s
  let (eax, s) ← pop P s
  pure { s with
    cpu := ((((((s.cpu.setReg .edi edi).setReg .esi esi).setReg .ebp ebp).setReg .ebx ebx).setReg
      .edx edx).setReg .ecx ecx).setReg .eax eax }

def iret (s : State μ) : Option (State μ) := do
  let (eip, s) ← pop P s
  let (cs, s) ← pop P s
  let (eflags, s) ← pop P s
  let sel : Selector := cs.truncate 16
  let flags := if s.cpu.cpl = 0 then eflags else blend s.cpu.popMask s.cpu.eflags eflags
  let cpu := { s.cpu with eip := eip, cs := sel, eflags := flags }
  if rpl sel ≤ s.cpu.cpl then pure { s with cpu := cpu }
  else do
    let (esp, s) ← pop P s
    let (ss, s) ← pop P s
    pure { s with
      cpu := { cpu with
        reg := Function.update s.cpu.reg .esp esp
        ss := ss.truncate 16
        ds := keepSeg P (rpl sel) s.cpu.ds
        es := keepSeg P (rpl sel) s.cpu.es } }

def exec (i : Instr) (s : State μ) : Option (State μ) :=
  if s.cpu.eflags &&& flTf ≠ 0#32 then none
  else
    match i with
    | .pushl r => push P s (s.cpu.reg r)
    | .pushlImm w => push P s w
    | .pushlSeg seg => push P s ((s.cpu.seg seg).zeroExtend 32)
    | .pushal => pushal P s
    | .popl r => do
        let (w, s) ← pop P s
        pure { s with cpu := s.cpu.setReg r w }
    | .poplSeg seg => do
        let (w, s) ← pop P s
        let sel : Selector := w.truncate 16
        if P.loadable s.cpu.cpl sel then pure { s with cpu := s.cpu.setSeg sel seg } else none
    | .popal => popal P s
    | .popfl => do
        let (w, s) ← pop P s
        pure { s with cpu := s.cpu.setFlags s.cpu.popMask w }
    | .addl w dst =>
        some { s with
          cpu := (s.cpu.setReg dst (s.cpu.reg dst + w)).setFlags flArith
            (addFlags (s.cpu.reg dst) w) }
    | .subl w dst =>
        some { s with
          cpu := (s.cpu.setReg dst (s.cpu.reg dst - w)).setFlags flArith
            (subFlags (s.cpu.reg dst) w) }
    | .movlFrom disp base dst => do
        let w ← load P s (s.cpu.reg base + disp)
        pure { s with cpu := s.cpu.setReg dst w }
    | .movlTo src disp base => store P s (s.cpu.reg base + disp) (s.cpu.reg src)
    | .movlAbs addr dst => do
        let w ← load P s addr
        pure { s with cpu := s.cpu.setReg dst w }
    | .callReg r next => do
        let target := s.cpu.reg r
        let s ← push P s next
        pure { s with cpu := { s.cpu with eip := target } }
    | .call target next => do
        let s ← push P s next
        pure { s with cpu := { s.cpu with eip := target } }
    | .ret => do
        let (w, s) ← pop P s
        pure { s with cpu := { s.cpu with eip := w } }
    | .iret => iret P s

/-- A run of straight-line code. -/
def run (code : List Instr) (s : State μ) : Option (State μ) :=
  code.foldlM (fun s i => exec P i s) s

end

/-! ## Runs on another memory -/

/-- What `y` can do `x` can do, with results that `R` relates. -/
def Matches {α β : Type} (R : α → β → Prop) (x : Option α) (y : Option β) : Prop :=
  ∀ b, y = some b → ∃ a, x = some a ∧ R a b

/-- The memory of `Q` represents that of `P` through `R`. -/
structure Simulates {μ ν : Type} (P : Platform μ) (Q : Platform ν) (R : μ → ν → Prop) : Prop where
  load : ∀ {m n} (a : Word), R m n → Matches Eq (P.load m a) (Q.load n a)
  store : ∀ {m n} (a w : Word), R m n → Matches R (P.store m a w) (Q.store n a w)
  loadable : P.loadable = Q.loadable

section

variable {μ ν : Type} {P : Platform μ} {Q : Platform ν} {R : μ → ν → Prop}

/-- The same registers, and memories that `R` relates. -/
def Alike (R : μ → ν → Prop) (s : State μ) (t : State ν) : Prop :=
  s.cpu = t.cpu ∧ R s.mem t.mem

theorem Matches.some {α β : Type} {R : α → β → Prop} {a : α} {b : β} (h : R a b) :
    Matches R (some a) (some b) := by
  intro b' hb
  cases hb
  exact ⟨a, rfl, h⟩

theorem Matches.none {α β : Type} {R : α → β → Prop} {x : Option α} :
    Matches R x (Option.none : Option β) := fun _ h => by cases h

theorem Matches.bind {α β α' β' : Type} {R : α → β → Prop} {R' : α' → β' → Prop} {x : Option α}
    {y : Option β} {f : α → Option α'} {g : β → Option β'} (h : Matches R x y)
    (hf : ∀ a b, R a b → Matches R' (f a) (g b)) : Matches R' (x >>= f) (y >>= g) := by
  intro b' hb'
  rw [Option.bind_eq_bind, Option.bind_eq_some_iff] at hb'
  obtain ⟨b, hb, hb'⟩ := hb'
  obtain ⟨a, ha, hr⟩ := h b hb
  obtain ⟨a', ha', hr'⟩ := hf a b hr b' hb'
  exact ⟨a', by rw [ha]; exact ha', hr'⟩

theorem Simulates.load_matches (h : Simulates P Q R) {s : State μ} {t : State ν}
    (hs : Alike R s t) (a : Word) : Matches Eq (X86.load P s a) (X86.load Q t a) := by
  unfold X86.load
  rw [hs.1]
  split
  · exact .none
  · exact h.load a hs.2

theorem Simulates.store_matches (h : Simulates P Q R) {s : State μ} {t : State ν}
    (hs : Alike R s t) (a w : Word) :
    Matches (Alike R) (X86.store P s a w) (X86.store Q t a w) := by
  unfold X86.store
  rw [hs.1]
  split
  · exact .none
  · intro t' ht'
    rw [Option.map_eq_some_iff] at ht'
    obtain ⟨n, hn, rfl⟩ := ht'
    obtain ⟨m, hm, hr⟩ := h.store a w hs.2 n hn
    exact ⟨{ cpu := t.cpu, mem := m }, by rw [hm]; rfl, rfl, hr⟩

theorem Alike.setCpu {s : State μ} {t : State ν} (h : Alike R s t) (c : Cpu) :
    Alike R { s with cpu := c } { t with cpu := c } := ⟨rfl, h.2⟩

theorem Simulates.push_matches (h : Simulates P Q R) {s : State μ} {t : State ν}
    (hs : Alike R s t) (w : Word) : Matches (Alike R) (X86.push P s w) (X86.push Q t w) := by
  unfold X86.push
  rw [hs.1]
  refine (h.store_matches hs _ w).bind fun s' t' hs' => ?_
  rw [hs'.1]
  exact .some (hs'.setCpu _)

/-- The same word, and states that are alike. -/
def AlikePair (R : μ → ν → Prop) (x : Word × State μ) (y : Word × State ν) : Prop :=
  x.1 = y.1 ∧ Alike R x.2 y.2

theorem Simulates.pop_matches (h : Simulates P Q R) {s : State μ} {t : State ν}
    (hs : Alike R s t) : Matches (AlikePair R) (X86.pop P s) (X86.pop Q t) := by
  unfold X86.pop
  rw [hs.1]
  refine (h.load_matches hs _).bind fun w w' hw => ?_
  exact .some ⟨hw, hs.setCpu _⟩

theorem Simulates.pushAll_matches (h : Simulates P Q R) (ws : List Word) {s : State μ}
    {t : State ν} (hs : Alike R s t) :
    Matches (Alike R) (X86.pushAll P ws s) (X86.pushAll Q ws t) := by
  induction ws generalizing s t with
  | nil => exact .some hs
  | cons w ws ih =>
      unfold X86.pushAll
      rw [List.foldlM_cons, List.foldlM_cons]
      exact (h.push_matches hs w).bind fun s' t' hs' => ih hs'

/-- Eight words popped are the same eight words. -/
theorem Simulates.popal_matches (h : Simulates P Q R) {s : State μ} {t : State ν}
    (hs : Alike R s t) : Matches (Alike R) (X86.popal P s) (X86.popal Q t) := by
  unfold X86.popal
  refine (h.pop_matches hs).bind ?_
  rintro ⟨edi, s₁⟩ ⟨_, t₁⟩ ⟨rfl, h₁⟩
  refine (h.pop_matches h₁).bind ?_
  rintro ⟨esi, s₂⟩ ⟨_, t₂⟩ ⟨rfl, h₂⟩
  refine (h.pop_matches h₂).bind ?_
  rintro ⟨ebp, s₃⟩ ⟨_, t₃⟩ ⟨rfl, h₃⟩
  refine (h.pop_matches h₃).bind ?_
  rintro ⟨oesp, s₄⟩ ⟨_, t₄⟩ ⟨rfl, h₄⟩
  refine (h.pop_matches h₄).bind ?_
  rintro ⟨ebx, s₅⟩ ⟨_, t₅⟩ ⟨rfl, h₅⟩
  refine (h.pop_matches h₅).bind ?_
  rintro ⟨edx, s₆⟩ ⟨_, t₆⟩ ⟨rfl, h₆⟩
  refine (h.pop_matches h₆).bind ?_
  rintro ⟨ecx, s₇⟩ ⟨_, t₇⟩ ⟨rfl, h₇⟩
  refine (h.pop_matches h₇).bind ?_
  rintro ⟨eax, s₈⟩ ⟨_, t₈⟩ ⟨rfl, h₈⟩
  dsimp only at h₈ ⊢
  rw [h₈.1]
  exact .some (h₈.setCpu _)

theorem Simulates.iret_matches (h : Simulates P Q R) {s : State μ} {t : State ν}
    (hs : Alike R s t) : Matches (Alike R) (X86.iret P s) (X86.iret Q t) := by
  unfold X86.iret
  refine (h.pop_matches hs).bind ?_
  rintro ⟨eip, s₁⟩ ⟨_, t₁⟩ ⟨rfl, h₁⟩
  refine (h.pop_matches h₁).bind ?_
  rintro ⟨cs, s₂⟩ ⟨_, t₂⟩ ⟨rfl, h₂⟩
  refine (h.pop_matches h₂).bind ?_
  rintro ⟨eflags, s₃⟩ ⟨_, t₃⟩ ⟨rfl, h₃⟩
  dsimp only at h₃ ⊢
  rw [h₃.1]
  split
  · exact .some (h₃.setCpu _)
  · refine (h.pop_matches h₃).bind ?_
    rintro ⟨esp, s₄⟩ ⟨_, t₄⟩ ⟨rfl, h₄⟩
    refine (h.pop_matches h₄).bind ?_
    rintro ⟨ss, s₅⟩ ⟨_, t₅⟩ ⟨rfl, h₅⟩
    dsimp only at h₅ ⊢
    have hkeep : keepSeg P = keepSeg Q := by
      unfold keepSeg
      rw [h.loadable]
    rw [h₅.1, hkeep]
    exact .some (h₅.setCpu _)

theorem Simulates.exec_matches (h : Simulates P Q R) (i : Instr) {s : State μ} {t : State ν}
    (hs : Alike R s t) : Matches (Alike R) (exec P i s) (exec Q i t) := by
  unfold exec
  rw [hs.1]
  split
  · exact .none
  · cases i with
    | pushl r => exact h.push_matches hs _
    | pushlImm w => exact h.push_matches hs w
    | pushlSeg seg => exact h.push_matches hs _
    | pushal =>
        unfold X86.pushal
        rw [hs.1]
        exact h.pushAll_matches _ hs
    | popl r =>
        refine (h.pop_matches hs).bind ?_
        rintro ⟨w, s₁⟩ ⟨_, t₁⟩ ⟨rfl, h₁⟩
        dsimp only at h₁ ⊢
        rw [h₁.1]
        exact .some (h₁.setCpu _)
    | poplSeg seg =>
        refine (h.pop_matches hs).bind ?_
        rintro ⟨w, s₁⟩ ⟨_, t₁⟩ ⟨rfl, h₁⟩
        dsimp only at h₁ ⊢
        rw [h₁.1, h.loadable]
        split
        · exact .some (h₁.setCpu _)
        · exact .none
    | popal => exact h.popal_matches hs
    | popfl =>
        refine (h.pop_matches hs).bind ?_
        rintro ⟨w, s₁⟩ ⟨_, t₁⟩ ⟨rfl, h₁⟩
        dsimp only at h₁ ⊢
        rw [h₁.1]
        exact .some (h₁.setCpu _)
    | addl w dst => exact .some (hs.setCpu _)
    | subl w dst => exact .some (hs.setCpu _)
    | movlFrom disp base dst =>
        refine (h.load_matches hs _).bind fun w w' hw => ?_
        rw [hw]
        exact .some (hs.setCpu _)
    | movlTo src disp base => exact h.store_matches hs _ _
    | movlAbs addr dst =>
        refine (h.load_matches hs _).bind fun w w' hw => ?_
        rw [hw]
        exact .some (hs.setCpu _)
    | callReg r next =>
        refine (h.push_matches hs next).bind fun s₁ t₁ h₁ => ?_
        rw [h₁.1]
        exact .some (h₁.setCpu _)
    | call target next =>
        refine (h.push_matches hs next).bind fun s₁ t₁ h₁ => ?_
        rw [h₁.1]
        exact .some (h₁.setCpu _)
    | ret =>
        refine (h.pop_matches hs).bind ?_
        rintro ⟨w, s₁⟩ ⟨_, t₁⟩ ⟨rfl, h₁⟩
        dsimp only at h₁ ⊢
        rw [h₁.1]
        exact .some (h₁.setCpu _)
    | iret => exact h.iret_matches hs

/-- A run on the memory of `Q` is a run on every memory it represents. -/
theorem Simulates.run_matches (h : Simulates P Q R) (code : List Instr) {s : State μ}
    {t : State ν} (hs : Alike R s t) : Matches (Alike R) (run P code s) (run Q code t) := by
  induction code generalizing s t with
  | nil => exact .some hs
  | cons i code ih =>
      unfold run
      rw [List.foldlM_cons, List.foldlM_cons]
      exact (h.exec_matches i hs).bind fun s' t' hs' => ih hs'

end

/-! ## Word slots

A memory of which only the words at some addresses are known, as a function on
addresses.  Code that works on a stack runs here by computation. -/

def slots (A : List Word) (loadable : Nat → Selector → Bool) : Platform (Word → Word) where
  load v a := if a ∈ A then some (v a) else none
  store v a w := if a ∈ A then some (Function.update v a w) else none
  loadable := loadable

/-- The words at the addresses in `A` can be read and written, and are apart. -/
structure WordSlots {μ : Type} (P : Platform μ) (good : μ → Prop) (A : List Word) : Prop where
  load : ∀ {m a}, good m → a ∈ A → ∃ w, P.load m a = some w
  store : ∀ {m a} (w : Word), good m → a ∈ A → ∃ m', P.store m a w = some m' ∧ good m' ∧
    P.load m' a = some w ∧ ∀ b ∈ A, b ≠ a → P.load m' b = P.load m b

/-- The slots of a memory have the values `v`. -/
def Holds {μ : Type} (P : Platform μ) (good : μ → Prop) (A : List Word) (m : μ)
    (v : Word → Word) : Prop :=
  good m ∧ ∀ a ∈ A, P.load m a = some (v a)

section

variable {μ : Type} {P : Platform μ} {good : μ → Prop} {A : List Word}

theorem WordSlots.simulates (h : WordSlots P good A) :
    Simulates P (slots A P.loadable) (Holds P good A) where
  load := by
    intro m v a hm w hw
    unfold slots at hw
    dsimp only at hw
    split at hw
    · rename_i ha
      cases hw
      exact ⟨v a, hm.2 a ha, rfl⟩
    · cases hw
  store := by
    intro m v a w hm v' hv'
    unfold slots at hv'
    dsimp only at hv'
    split at hv'
    · rename_i ha
      cases hv'
      obtain ⟨m', hstore, hgood, hself, hother⟩ := h.store w hm.1 ha
      refine ⟨m', hstore, hgood, fun b hb => ?_⟩
      by_cases hab : b = a
      · rw [hab, Function.update_self]
        exact hself
      · rw [Function.update_of_ne hab, hother b hb hab]
        exact hm.2 b hb
    · cases hv'
  loadable := rfl

theorem WordSlots.exists_holds (h : WordSlots P good A) {m : μ} (hm : good m) :
    ∃ v, Holds P good A m v := by
  refine ⟨fun a => (P.load m a).getD 0#32, hm, fun a ha => ?_⟩
  obtain ⟨w, hw⟩ := h.load hm ha
  dsimp only
  rw [hw]
  rfl

end

/-! ## Running without traps -/

namespace Cpu

/-- No debug and no alignment trap stops the code. -/
def NoTraps (c : Cpu) : Prop := c.eflags &&& flTf = 0#32 ∧ (c.cpl ≠ 3 ∨ c.eflags &&& flAc = 0#32)

variable {c : Cpu}

theorem NoTraps.not_misaligned (h : c.NoTraps) (a : Word) : ¬ c.misaligned a := by
  rintro ⟨hcpl, hac, _⟩
  rcases h.2 with hne | hzero
  · exact hne hcpl
  · exact hac hzero

@[simp] theorem esp_setReg (c : Cpu) (w : Word) : (c.setReg .esp w).esp = w := by
  simp [setReg, esp]

@[simp] theorem setReg_setReg (c : Cpu) (r : Reg) (w w' : Word) :
    (c.setReg r w).setReg r w' = c.setReg r w' := by
  simp [setReg]

@[simp] theorem noTraps_setReg (c : Cpu) (r : Reg) (w : Word) :
    (c.setReg r w).NoTraps ↔ c.NoTraps :=
  Iff.rfl

@[simp] theorem noTraps_setSeg (c : Cpu) (sel : Selector) (seg : Seg) :
    (c.setSeg sel seg).NoTraps ↔ c.NoTraps := by
  cases seg <;> rfl

/-- Bits outside the mask stay. -/
theorem blend_and {mask old new bits : Word} (h : mask &&& bits = 0#32) :
    blend mask old new &&& bits = old &&& bits := by
  refine BitVec.eq_of_getLsbD_eq fun i hi => ?_
  have hbit := congrArg (fun w => w.getLsbD i) h
  simp only [BitVec.getLsbD_and, BitVec.getLsbD_zero] at hbit
  simp only [blend, BitVec.getLsbD_and, BitVec.getLsbD_or, BitVec.getLsbD_not, hi, decide_true,
    Bool.true_and]
  cases hm : mask.getLsbD i
  · simp
  · simp [show bits.getLsbD i = false by simpa [hm] using hbit]

/-- Two words that agree outside some bits blend to the new one when the mask has them. -/
theorem blend_eq {mask bits old new : Word} (h : old &&& ~~~bits = new &&& ~~~bits)
    (hmask : bits &&& mask = bits) : blend mask old new = new := by
  refine BitVec.eq_of_getLsbD_eq fun i hi => ?_
  have hbit := congrArg (fun w => w.getLsbD i) h
  have hin := congrArg (fun w => w.getLsbD i) hmask
  simp only [BitVec.getLsbD_and, BitVec.getLsbD_not, hi, decide_true, Bool.true_and] at hbit hin
  simp only [blend, BitVec.getLsbD_and, BitVec.getLsbD_or, BitVec.getLsbD_not, hi, decide_true,
    Bool.true_and]
  cases hm : mask.getLsbD i
  · have hout : bits.getLsbD i = false := by simpa [hm] using hin.symm
    simpa [hout] using hbit
  · simp

theorem noTraps_setArith (c : Cpu) (w : Word) : (c.setFlags flArith w).NoTraps ↔ c.NoTraps := by
  unfold NoTraps setFlags
  dsimp only
  rw [blend_and (by decide), blend_and (by decide)]
  rfl

end Cpu

section

variable {μ : Type} {P : Platform μ} {s : State μ} {w : Word}

theorem load_eq (h : s.cpu.NoTraps) (a : Word) : load P s a = P.load s.mem a :=
  if_neg (h.not_misaligned a)

theorem store_eq (h : s.cpu.NoTraps) {a : Word} {m : μ} (hm : P.store s.mem a w = some m) :
    store P s a w = some { s with mem := m } := by
  unfold store
  rw [if_neg (h.not_misaligned a), hm]
  rfl

theorem push_eq (h : s.cpu.NoTraps) {m : μ} (hm : P.store s.mem (s.cpu.esp - 4#32) w = some m) :
    push P s w = some ⟨s.cpu.setReg .esp (s.cpu.esp - 4#32), m⟩ := by
  unfold push
  rw [store_eq h hm]
  rfl

/-- A push that the memory or the alignment check refuses. -/
theorem push_none (h : s.cpu.misaligned (s.cpu.esp - 4#32) ∨
    P.store s.mem (s.cpu.esp - 4#32) w = none) : push P s w = none := by
  unfold push store
  by_cases hmis : s.cpu.misaligned (s.cpu.esp - 4#32)
  · rw [if_pos hmis]
    rfl
  · rw [if_neg hmis, h.resolve_left hmis]
    rfl

theorem pop_eq (h : s.cpu.NoTraps) (hw : P.load s.mem s.cpu.esp = some w) :
    pop P s = some (w, { s with cpu := s.cpu.setReg .esp (s.cpu.esp + 4#32) }) := by
  unfold pop
  rw [load_eq h, hw]
  rfl

end

/-- The address of the `i`th word from `base` up. -/
def above (base : Word) (i : Nat) : Word := base + BitVec.ofNat 32 (4 * i)

theorem above_zero (base : Word) : above base 0 = base := BitVec.add_zero _

theorem above_add (base : Word) (i : Nat) : above base i + 4#32 = above base (i + 1) := by
  unfold above
  refine BitVec.eq_of_toNat_eq ?_
  simp only [BitVec.toNat_add, BitVec.toNat_ofNat]
  omega

section

variable {μ : Type} {P : Platform μ} {c : Cpu} {m : μ} {base disp w : Word} {i : Nat} {dst : Reg}

theorem pop_above (hc : c.NoTraps) (hesp : c.esp = above base i)
    (hw : P.load m (above base i) = some w) :
    pop P ⟨c, m⟩ = some (w, ⟨c.setReg .esp (above base (i + 1)), m⟩) := by
  rw [pop_eq (s := ⟨c, m⟩) hc (hesp.symm ▸ hw), hesp, above_add]

/-- The registers after `popal` of the words `w`. -/
def Cpu.popped (c : Cpu) (w : Nat → Word) (esp : Word) : Cpu :=
  { c with
    reg := fun r =>
      match r with
      | .edi => w 0
      | .esi => w 1
      | .ebp => w 2
      | .esp => esp
      | .ebx => w 4
      | .edx => w 5
      | .ecx => w 6
      | .eax => w 7 }

theorem pop_moved {j : Nat} (hc : c.NoTraps) (hw : P.load m (above base (i + j)) = some w) :
    pop P ⟨c.setReg .esp (above base (i + j)), m⟩ =
      some (w, ⟨c.setReg .esp (above base (i + (j + 1))), m⟩) := by
  have hset : (c.setReg .esp (above base (i + j))).NoTraps := hc
  rw [pop_above hset (Cpu.esp_setReg _ _) hw, Cpu.setReg_setReg]
  rfl

theorem popal_above {w : Nat → Word} (hc : c.NoTraps) (hesp : c.esp = above base i)
    (hw : ∀ j, j < 8 → P.load m (above base (i + j)) = some (w j)) :
    popal P ⟨c, m⟩ = some ⟨c.popped w (above base (i + 8)), m⟩ := by
  unfold popal
  rw [pop_above hc hesp (hw 0 (by decide))]
  simp only [Option.bind_eq_bind, Option.bind_some]
  rw [pop_moved hc (hw 1 (by decide))]
  simp only [Option.bind_some]
  rw [pop_moved hc (hw 2 (by decide))]
  simp only [Option.bind_some]
  rw [pop_moved hc (hw 3 (by decide))]
  simp only [Option.bind_some]
  rw [pop_moved hc (hw 4 (by decide))]
  simp only [Option.bind_some]
  rw [pop_moved hc (hw 5 (by decide))]
  simp only [Option.bind_some]
  rw [pop_moved hc (hw 6 (by decide))]
  simp only [Option.bind_some]
  rw [pop_moved hc (hw 7 (by decide))]
  refine congrArg some (congrArg (State.mk · m) ?_)
  unfold Cpu.popped Cpu.setReg
  congr 1
  funext r
  cases r <;> simp

/-- `iret` from level 0 to an outer level. -/
theorem iret_above {w : Nat → Word} (hc : c.NoTraps) (hcpl : c.cpl = 0)
    (hesp : c.esp = above base i)
    (hw : ∀ j, j < 5 → P.load m (above base (i + j)) = some (w j))
    (hrpl : 0 < rpl ((w 1).truncate 16)) :
    iret P ⟨c, m⟩ = some
      ⟨{ reg := Function.update c.reg .esp (w 3)
         eip := w 0
         eflags := w 2
         cs := (w 1).truncate 16
         ss := (w 4).truncate 16
         ds := keepSeg P (rpl ((w 1).truncate 16)) c.ds
         es := keepSeg P (rpl ((w 1).truncate 16)) c.es }, m⟩ := by
  have hzero : ∀ a, (c.setReg .esp a).cpl = 0 := fun _ => hcpl
  unfold iret
  rw [pop_above hc hesp (hw 0 (by decide))]
  simp only [Option.bind_eq_bind, Option.bind_some]
  rw [pop_moved hc (hw 1 (by decide))]
  simp only [Option.bind_some]
  rw [pop_moved hc (hw 2 (by decide))]
  simp only [Option.bind_some]
  rw [if_neg (by rw [hzero]; omega), pop_moved hc (hw 3 (by decide))]
  simp only [Option.bind_some]
  rw [pop_moved hc (hw 4 (by decide))]
  simp only [Option.bind_some]
  rw [if_pos (hzero _)]
  simp [Cpu.setReg]

theorem exec_popal (hc : c.NoTraps) : exec P .popal ⟨c, m⟩ = popal P ⟨c, m⟩ :=
  if_neg (not_not.mpr hc.1)

theorem exec_iret (hc : c.NoTraps) : exec P .iret ⟨c, m⟩ = iret P ⟨c, m⟩ :=
  if_neg (not_not.mpr hc.1)

theorem exec_addl (hc : c.NoTraps) (w : Word) (dst : Reg) :
    exec P (.addl w dst) ⟨c, m⟩ =
      some ⟨(c.setReg dst (c.reg dst + w)).setFlags flArith (addFlags (c.reg dst) w), m⟩ :=
  if_neg (not_not.mpr hc.1)

theorem exec_movlFrom (hc : c.NoTraps) {r : Reg} (hw : P.load m (c.reg r + disp) = some w) :
    exec P (.movlFrom disp r dst) ⟨c, m⟩ = some ⟨c.setReg dst w, m⟩ := by
  have htraps : (⟨c, m⟩ : State μ).cpu.NoTraps := hc
  unfold exec
  rw [if_neg (not_not.mpr hc.1)]
  dsimp only
  rw [load_eq htraps, hw]
  rfl

theorem exec_movlAbs (hc : c.NoTraps) {addr : Word} (hw : P.load m addr = some w) :
    exec P (.movlAbs addr dst) ⟨c, m⟩ = some ⟨c.setReg dst w, m⟩ := by
  have htraps : (⟨c, m⟩ : State μ).cpu.NoTraps := hc
  unfold exec
  rw [if_neg (not_not.mpr hc.1)]
  dsimp only
  rw [load_eq htraps, hw]
  rfl

theorem exec_movlTo (hc : c.NoTraps) {src r : Reg} {m' : μ}
    (hm : P.store m (c.reg r + disp) (c.reg src) = some m') :
    exec P (.movlTo src disp r) ⟨c, m⟩ = some ⟨c, m'⟩ :=
  (if_neg (not_not.mpr hc.1)).trans (store_eq (s := ⟨c, m⟩) hc hm)

theorem exec_pushl (hc : c.NoTraps) {r : Reg} {m' : μ}
    (hm : P.store m (c.esp - 4#32) (c.reg r) = some m') :
    exec P (.pushl r) ⟨c, m⟩ = some ⟨c.setReg .esp (c.esp - 4#32), m'⟩ :=
  (if_neg (not_not.mpr hc.1)).trans (push_eq (s := ⟨c, m⟩) hc hm)

theorem exec_callReg (hc : c.NoTraps) {r : Reg} {next : Word} {m' : μ}
    (hm : P.store m (c.esp - 4#32) next = some m') :
    exec P (.callReg r next) ⟨c, m⟩ =
      some ⟨{ c.setReg .esp (c.esp - 4#32) with eip := c.reg r }, m'⟩ := by
  unfold exec
  rw [if_neg (not_not.mpr hc.1)]
  dsimp only
  rw [push_eq (s := ⟨c, m⟩) hc hm]
  rfl

theorem exec_subl (hc : c.NoTraps) (w : Word) (dst : Reg) :
    exec P (.subl w dst) ⟨c, m⟩ =
      some ⟨(c.setReg dst (c.reg dst - w)).setFlags flArith (subFlags (c.reg dst) w), m⟩ :=
  if_neg (not_not.mpr hc.1)

theorem exec_popl (hc : c.NoTraps) (hesp : c.esp = above base i)
    (hw : P.load m (above base i) = some w) :
    exec P (.popl dst) ⟨c, m⟩ =
      some ⟨(c.setReg .esp (above base (i + 1))).setReg dst w, m⟩ := by
  unfold exec
  rw [if_neg (not_not.mpr hc.1)]
  dsimp only
  rw [pop_above hc hesp hw]
  rfl

theorem exec_popfl (hc : c.NoTraps) (hesp : c.esp = above base i)
    (hw : P.load m (above base i) = some w) :
    exec P .popfl ⟨c, m⟩ =
      some ⟨(c.setReg .esp (above base (i + 1))).setFlags c.popMask w, m⟩ := by
  unfold exec
  rw [if_neg (not_not.mpr hc.1)]
  dsimp only
  rw [pop_above hc hesp hw]
  rfl

theorem exec_ret (hc : c.NoTraps) (hw : P.load m c.esp = some w) :
    exec P .ret ⟨c, m⟩ = some ⟨{ c.setReg .esp (c.esp + 4#32) with eip := w }, m⟩ := by
  unfold exec
  rw [if_neg (not_not.mpr hc.1)]
  dsimp only
  rw [pop_eq (s := ⟨c, m⟩) hc hw]
  rfl

theorem exec_poplSeg (hc : c.NoTraps) {seg : Seg} (hesp : c.esp = above base i)
    (hw : P.load m (above base i) = some w)
    (hsel : P.loadable c.cpl (w.truncate 16) = true) :
    exec P (.poplSeg seg) ⟨c, m⟩ =
      some ⟨(c.setReg .esp (above base (i + 1))).setSeg (w.truncate 16) seg, m⟩ := by
  unfold exec
  rw [if_neg (not_not.mpr hc.1)]
  dsimp only
  rw [pop_above hc hesp hw]
  exact if_pos hsel

end

/-! ## Stacks -/

/-- What a stack holds after words are pushed below `top`. -/
def stacked (v : Word → Word) (top : Word) : List Word → Word → Word
  | [] => v
  | w :: ws => stacked (Function.update v (top - 4#32) w) (top - 4#32) ws

/-- The address of the `i`th word below `top`. -/
def below (top : Word) (i : Nat) : Word := top - BitVec.ofNat 32 (4 * (i + 1))

section

variable {A : List Word} {loadable : Nat → Selector → Bool} {v : Word → Word} {top : Word}
  {ws : List Word}

theorem below_succ (top : Word) (i : Nat) : below top (i + 1) = below (top - 4#32) i := by
  unfold below
  refine BitVec.eq_of_toNat_eq ?_
  simp only [BitVec.toNat_sub, BitVec.toNat_ofNat]
  omega

theorem below_inj {i j : Nat} (hi : 4 * (i + 1) < 2 ^ 32) (hj : 4 * (j + 1) < 2 ^ 32)
    (h : below top i = below top j) : i = j := by
  unfold below at h
  have h := congrArg BitVec.toNat h
  simp only [BitVec.toNat_sub, BitVec.toNat_ofNat] at h
  have htop := top.isLt
  omega

/-- The addresses of the first `n` words below `top`. -/
def stackSlots (top : Word) (n : Nat) : List Word := (List.range n).map (below top)

theorem below_mem {i n : Nat} (h : i < n) : below top i ∈ stackSlots top n :=
  List.mem_map_of_mem (List.mem_range.mpr h)

theorem above_below (top : Word) {i n : Nat} (h : i ≤ n) :
    above (below top n) i = below top (n - i) := by
  unfold above below
  refine BitVec.eq_of_toNat_eq ?_
  simp only [BitVec.toNat_add, BitVec.toNat_sub, BitVec.toNat_ofNat]
  omega

theorem stacked_other {a : Word} (h : ∀ i, i < ws.length → a ≠ below top i) :
    stacked v top ws a = v a := by
  induction ws generalizing v top with
  | nil => rfl
  | cons w ws ih =>
      rw [stacked, ih fun i hi => ?_]
      · refine Function.update_of_ne (h 0 (Nat.succ_pos _)) _ _
      · rw [← below_succ]
        exact h (i + 1) (Nat.succ_lt_succ hi)

/-- The words can be read back. -/
theorem stacked_read {i : Nat} (hlen : 4 * (ws.length + 1) < 2 ^ 32) (hi : i < ws.length) :
    stacked v top ws (below top i) = ws[i] := by
  induction ws generalizing v top i with
  | nil => cases hi
  | cons w ws ih =>
      rw [List.length_cons] at hlen hi
      rw [stacked]
      cases i with
      | zero =>
          rw [stacked_other fun j hj heq => ?_]
          · exact Function.update_self _ _ _
          · rw [← below_succ] at heq
            have hzero := below_inj (by omega) (by omega) heq
            omega
      | succ i =>
          rw [below_succ]
          exact ih (by omega) (Nat.lt_of_succ_lt_succ hi)

theorem pushAll_slots {s : State (Word → Word)} (hs : s.cpu.NoTraps)
    (hA : ∀ i, i < ws.length → below s.cpu.esp i ∈ A) :
    pushAll (slots A loadable) ws s =
      some ⟨s.cpu.setReg .esp (s.cpu.esp - BitVec.ofNat 32 (4 * ws.length)),
        stacked s.mem s.cpu.esp ws⟩ := by
  induction ws generalizing s with
  | nil =>
      have hesp : s.cpu.esp - BitVec.ofNat 32 (4 * ([] : List Word).length) = s.cpu.reg .esp := by
        simp [Cpu.esp]
      rw [hesp, Cpu.setReg, Function.update_eq_self]
      rfl
  | cons w ws ih =>
      have hfirst : (slots A loadable).store s.mem (s.cpu.esp - 4#32) w =
          some (Function.update s.mem (s.cpu.esp - 4#32) w) := if_pos (hA 0 (Nat.succ_pos _))
      have hesp := s.cpu.esp_setReg (s.cpu.esp - 4#32)
      have hrest := @ih ⟨s.cpu.setReg .esp (s.cpu.esp - 4#32),
        Function.update s.mem (s.cpu.esp - 4#32) w⟩ hs fun i hi => ?_
      · unfold pushAll at hrest ⊢
        rw [List.foldlM_cons, push_eq hs hfirst, Option.bind_eq_bind, Option.bind_some, hrest]
        dsimp only
        rw [hesp, stacked]
        have hend : s.cpu.esp - 4#32 - BitVec.ofNat 32 (4 * ws.length) =
            s.cpu.esp - BitVec.ofNat 32 (4 * (w :: ws).length) := by
          refine BitVec.eq_of_toNat_eq ?_
          simp only [BitVec.toNat_sub, BitVec.toNat_ofNat, List.length_cons]
          omega
        rw [hend]
        simp [Cpu.setReg]
      · dsimp only
        rw [hesp, ← below_succ]
        exact hA (i + 1) (Nat.succ_lt_succ hi)

end

theorem stacked_append (v : Word → Word) (top : Word) (ws ws' : List Word) :
    stacked v top (ws ++ ws') =
      stacked (stacked v top ws) (top - BitVec.ofNat 32 (4 * ws.length)) ws' := by
  induction ws generalizing v top with
  | nil => simp [stacked]
  | cons w ws ih =>
      rw [List.cons_append, stacked, ih, stacked]
      have hend : top - 4#32 - BitVec.ofNat 32 (4 * ws.length) =
          top - BitVec.ofNat 32 (4 * (w :: ws).length) := by
        refine BitVec.eq_of_toNat_eq ?_
        simp only [BitVec.toNat_sub, BitVec.toNat_ofNat, List.length_cons]
        omega
      rw [hend]

/-- The state of a stack from `top` on which the words `ws` are pushed. -/
def onStack (c : Cpu) (v : Word → Word) (top : Word) (ws : List Word) : State (Word → Word) :=
  ⟨c.setReg .esp (top - BitVec.ofNat 32 (4 * ws.length)), stacked v top ws⟩

theorem pushAll_onStack {A : List Word} {loadable : Nat → Selector → Bool} {c : Cpu}
    {v : Word → Word} {top : Word} {ws ws' : List Word} (hc : c.NoTraps)
    (hA : ∀ i, i < (ws ++ ws').length → below top i ∈ A) :
    pushAll (slots A loadable) ws' (onStack c v top ws) = some (onStack c v top (ws ++ ws')) := by
  have hesp : (onStack c v top ws).cpu.esp = top - BitVec.ofNat 32 (4 * ws.length) :=
    Cpu.esp_setReg _ _
  rw [pushAll_slots (s := onStack c v top ws) hc fun i hi => ?_]
  · rw [hesp]
    unfold onStack
    dsimp only
    rw [stacked_append]
    have hend : top - BitVec.ofNat 32 (4 * ws.length) - BitVec.ofNat 32 (4 * ws'.length) =
        top - BitVec.ofNat 32 (4 * (ws ++ ws').length) := by
      refine BitVec.eq_of_toNat_eq ?_
      simp only [BitVec.toNat_sub, BitVec.toNat_ofNat, List.length_append]
      omega
    rw [hend]
    simp [Cpu.setReg]
  · have hadd : below (onStack c v top ws).cpu.esp i = below top (ws.length + i) := by
      rw [hesp]
      unfold below
      refine BitVec.eq_of_toNat_eq ?_
      simp only [BitVec.toNat_sub, BitVec.toNat_ofNat]
      omega
    rw [hadd]
    refine hA _ ?_
    rw [List.length_append]
    omega

/-- The words an instruction pushes. -/
def pushed (c : Cpu) : Instr → Option (List Word)
  | .pushl r => some [c.reg r]
  | .pushlImm w => some [w]
  | .pushlSeg seg => some [(c.seg seg).zeroExtend 32]
  | .pushal => some ([.eax, .ecx, .edx, .ebx, .esp, .ebp, .esi, .edi].map c.reg)
  | _ => none

section

variable {c : Cpu} {v : Word → Word} {top : Word} {ws : List Word}

theorem pushed_seg (seg : Seg) :
    pushed (onStack c v top ws).cpu (.pushlSeg seg) = some [(c.seg seg).zeroExtend 32] := by
  cases seg <;> rfl

theorem pushed_pushal :
    pushed (onStack c v top ws).cpu .pushal =
      some [c.reg .eax, c.reg .ecx, c.reg .edx, c.reg .ebx,
        top - BitVec.ofNat 32 (4 * ws.length), c.reg .ebp, c.reg .esi, c.reg .edi] := rfl

theorem pushed_esp :
    pushed (onStack c v top ws).cpu (.pushl .esp) =
      some [top - BitVec.ofNat 32 (4 * ws.length)] := rfl

end

theorem pushAll_one {μ : Type} (P : Platform μ) (s : State μ) (w : Word) :
    pushAll P [w] s = push P s w := by
  unfold pushAll
  rw [List.foldlM_cons]
  exact bind_pure _

theorem exec_pushed {μ : Type} {P : Platform μ} {s : State μ} {i : Instr} {ws : List Word}
    (hs : s.cpu.NoTraps) (h : pushed s.cpu i = some ws) : exec P i s = pushAll P ws s := by
  unfold exec
  rw [if_neg (not_not.mpr hs.1)]
  cases i with
  | pushl r => cases h; exact (pushAll_one P s _).symm
  | pushlImm w => cases h; exact (pushAll_one P s w).symm
  | pushlSeg seg => cases h; exact (pushAll_one P s _).symm
  | pushal => cases h; rfl
  | _ => cases h

theorem exec_onStack {A : List Word} {loadable : Nat → Selector → Bool} {c : Cpu}
    {v : Word → Word} {top : Word} {ws ws' : List Word} {i : Instr} (hc : c.NoTraps)
    (hA : ∀ i, i < (ws ++ ws').length → below top i ∈ A)
    (h : pushed (onStack c v top ws).cpu i = some ws') :
    exec (slots A loadable) i (onStack c v top ws) = some (onStack c v top (ws ++ ws')) := by
  rw [exec_pushed (s := onStack c v top ws) hc h]
  exact pushAll_onStack hc hA

/-- A call leaves its return address on the stack. -/
theorem exec_call {A : List Word} {loadable : Nat → Selector → Bool} {c : Cpu}
    {v : Word → Word} {top target next : Word} {ws : List Word} (hc : c.NoTraps)
    (hA : ∀ i, i < (ws ++ [next]).length → below top i ∈ A) :
    exec (slots A loadable) (.call target next) (onStack c v top ws) =
      some (onStack { c with eip := target } v top (ws ++ [next])) := by
  have hpush : push (slots A loadable) (onStack c v top ws) next =
      some (onStack c v top (ws ++ [next])) := (pushAll_one _ _ _).symm.trans (pushAll_onStack hc hA)
  have htf : (onStack c v top ws).cpu.NoTraps := hc
  unfold exec
  rw [if_neg (not_not.mpr htf.1)]
  dsimp only
  rw [hpush]
  rfl

theorem run_cons {μ : Type} (P : Platform μ) (i : Instr) (code : List Instr) (s : State μ) :
    run P (i :: code) s = exec P i s >>= run P code := List.foldlM_cons

theorem run_append {μ : Type} (P : Platform μ) (code code' : List Instr) (s : State μ) :
    run P (code ++ code') s = run P code s >>= run P code' := List.foldlM_append

theorem run_pushImms {A : List Word} {loadable : Nat → Selector → Bool} {c : Cpu}
    {v : Word → Word} {top : Word} {ws ws' : List Word} (hc : c.NoTraps)
    (hA : ∀ i, i < (ws ++ ws').length → below top i ∈ A) :
    run (slots A loadable) (ws'.map .pushlImm) (onStack c v top ws) =
      some (onStack c v top (ws ++ ws')) := by
  induction ws' generalizing ws with
  | nil =>
      rw [List.append_nil]
      rfl
  | cons w ws' ih =>
      rw [List.append_cons] at hA ⊢
      rw [List.map_cons, run_cons, exec_onStack hc (fun i hi => hA i ?_) rfl]
      · exact ih hA
      · rw [List.length_append]
        exact Nat.lt_add_right _ hi

/-! ## Words made of bytes -/

abbrev Byte := BitVec 8

/-- Byte `k` of a word in memory order. -/
def byte (w : Word) (k : Nat) : Byte := (w >>> (8 * k)).truncate 8

def ofBytes (b : Nat → Byte) : Word :=
  BitVec.ofNat 32
    ((b 0).toNat + 256 * (b 1).toNat + 65536 * (b 2).toNat + 16777216 * (b 3).toNat)

theorem toNat_byte (w : Word) (k : Nat) : (byte w k).toNat = w.toNat / 2 ^ (8 * k) % 256 := by
  unfold byte
  rw [BitVec.truncate_eq_setWidth, BitVec.toNat_setWidth, BitVec.toNat_ushiftRight,
    Nat.shiftRight_eq_div_pow]

theorem ofBytes_byte (w : Word) : ofBytes (byte w) = w := by
  have hw := w.isLt
  refine BitVec.eq_of_toNat_eq ?_
  unfold ofBytes
  simp only [toNat_byte, BitVec.toNat_ofNat]
  omega

theorem ofBytes_congr {b b' : Nat → Byte} (h : ∀ k, k < 4 → b k = b' k) :
    ofBytes b = ofBytes b' := by
  unfold ofBytes
  rw [h 0 (by decide), h 1 (by decide), h 2 (by decide), h 3 (by decide)]

/-- The word at an address. -/
def readWord (m : Word → Byte) (a : Word) : Word := ofBytes fun k => m (a + BitVec.ofNat 32 k)

/-- Byte memory without protection. -/
def flat (loadable : Nat → Selector → Bool) : Platform (Word → Byte) where
  load m a := some (readWord m a)
  store m a w := some fun x => if (x - a).toNat < 4 then byte w (x - a).toNat else m x
  loadable := loadable

/-- Addresses at least a word apart, in both directions round the address space. -/
def Apart (A : List Word) : Prop :=
  ∀ a ∈ A, ∀ b ∈ A, b ≠ a → 4 ≤ (b - a).toNat ∧ (b - a).toNat + 4 ≤ 2 ^ 32

theorem flat_slots (loadable : Nat → Selector → Bool) {A : List Word} (hA : Apart A)
    (m₀ : Word → Byte) :
    WordSlots (flat loadable)
      (fun m => ∀ x, (∀ a ∈ A, 4 ≤ (x - a).toNat) → m x = m₀ x) A where
  load := fun _ _ => ⟨_, rfl⟩
  store := by
    intro m a w hgood ha
    refine ⟨_, rfl, fun x hx => ?_, ?_, fun b hb hne => ?_⟩
    · rw [if_neg (Nat.not_lt.mpr (hx a ha))]
      exact hgood x hx
    · refine congrArg some ((ofBytes_congr fun k hk => ?_).trans (ofBytes_byte w))
      have hk' : (a + BitVec.ofNat 32 k - a).toNat = k := by
        simp only [BitVec.toNat_sub, BitVec.toNat_add, BitVec.toNat_ofNat]
        omega
      dsimp only
      rw [hk', if_pos hk]
    · refine congrArg some (ofBytes_congr fun k hk => ?_)
      obtain ⟨hlow, hhigh⟩ := hA a ha b hb hne
      refine if_neg (Nat.not_lt.mpr ?_)
      simp only [BitVec.toNat_sub, BitVec.toNat_add, BitVec.toNat_ofNat] at hlow hhigh ⊢
      omega

theorem apart_stackSlots (top : Word) {n : Nat} (hn : 4 * n ≤ 2 ^ 32) :
    Apart (stackSlots top n) := by
  intro a ha b hb hne
  obtain ⟨i, hi, rfl⟩ := List.mem_map.mp ha
  obtain ⟨j, hj, rfl⟩ := List.mem_map.mp hb
  rw [List.mem_range] at hi hj
  have hij : i ≠ j := fun h => hne (by rw [h])
  have htop := top.isLt
  unfold below
  simp only [BitVec.toNat_sub, BitVec.toNat_ofNat]
  omega

end X86

import Sisop.Jos.TrapEntry
import Sisop.Jos.UserMemory
import Sisop.Jos.Run

/-!
# Page fault upcalls

What happens between a page fault of a program and the instruction that faulted:
`page_fault_handler` pushes a `UTrapframe` on the exception stack and `_pgfault_upcall`
of `lib/pfentry.S` calls the program's handler, and then returns to the state at the
trap.

The exception stack is the page below `UXSTACKTOP`, and a place on it is its offset in
that page.
-/

namespace Sisop
namespace Jos

open X86 (Instr)

/-! ## The program's code -/

/-- Addresses the linker gives `lib/pfentry.S`: of the variable `_pgfault_handler`, and
of the instruction after the call. -/
structure PfEntry where
  pgfaultHandler : Word
  back : Word

/-- `_pgfault_upcall` up to the call. -/
def PfEntry.enter (p : PfEntry) : List Instr :=
  [.pushl .esp, .movlAbs p.pgfaultHandler .eax, .callReg .eax p.back]

/-- The part of `_pgfault_upcall` after the call that pushes `eip` on the trap-time
stack. -/
def pfPushEip : List Instr :=
  [.addl 4#32 .esp, .movlFrom 40#32 .esp .eax, .movlFrom 48#32 .esp .ebx, .subl 4#32 .ebx,
    .movlTo .eax 0#32 .ebx, .movlTo .ebx 48#32 .esp]

/-- The part that restores the registers and switches to the trap-time stack. -/
def pfRestore : List Instr :=
  [.popl .eax, .popl .eax, .popal, .addl 4#32 .esp, .popfl, .popl .esp, .ret]

/-- `_pgfault_upcall` after the call. -/
def pfLeave : List Instr := pfPushEip ++ pfRestore

/-! ## The kernel's part -/

/-- The registers a trap frame restores. -/
def tfCpu (tf : Trapframe) : X86.Cpu where
  reg
    | .edi => tf.regs.edi
    | .esi => tf.regs.esi
    | .ebp => tf.regs.ebp
    | .esp => tf.esp
    | .ebx => tf.regs.ebx
    | .edx => tf.regs.edx
    | .ecx => tf.regs.ecx
    | .eax => tf.regs.eax
  eip := tf.eip
  eflags := tf.eflags
  cs := tf.cs
  ss := tf.ss
  ds := tf.ds
  es := tf.es

/-- The frame `page_fault_handler` pushes. -/
def utfOf (tf : Trapframe) (faultVa : Word) : UTrapframe where
  utfFaultVa := faultVa
  utfErr := tf.err
  utfRegs := tf.regs
  utfEip := tf.eip
  utfEflags := tf.eflags
  utfEsp := tf.esp

/-- What `page_fault_handler` does to the trap frame and the memory of a program with a
page fault upcall and a page for the exception stack. -/
def deliver (d : Nat) (upcall faultVa : Word) (m : PMap) (tf : Trapframe) :
    Option (Trapframe × PMap) :=
  match pushUtf m d (utfOf tf faultVa) with
  | .error _ => none
  | .ok m' =>
      if utfAddr tf.esp < exstk ∨ exstkTop < utfAddr tf.esp then none
      else some ({ tf with esp := utfAddr tf.esp, eip := upcall }, m')

theorem pageFaultHandler_deliver {M : Machine} {s : KState} {c cur : Nat} {faultVa : Word}
    {tf : Trapframe} {m : PMap} (hup : (s.envs cur).envPgfaultUpcall ≠ 0#32)
    (hcheck : userMemCheck M s.pm (s.envs cur).envPgdir exstk 4096#32 (pteU ||| pteW ||| pteU) =
      .ok none)
    (hd : deliver (s.cpus c).cr3 (s.envs cur).envPgfaultUpcall faultVa s.pm (s.envs cur).envTf =
      some (tf, m)) :
    pageFaultHandler M s c cur faultVa =
      .error (envRun (({ s with pm := m } : KState).setEnv cur fun env =>
        { env with envTf := tf }) c cur) := by
  unfold deliver at hd
  cases hpush : pushUtf s.pm (s.cpus c).cr3 (utfOf (s.envs cur).envTf faultVa) with
  | error stop => simp [hpush] at hd
  | ok m' =>
      simp only [hpush] at hd
      split at hd
      · cases hd
      · rename_i hin
        cases hd
        unfold pageFaultHandler userMemAssert
        rw [if_pos hup, hcheck]
        simp only [panics, Except.ok_bind_eq, pure_bind]
        refine (congrArg (· >>= _) hpush).trans ?_
        exact (if_neg hin).trans rfl

/-! ## The exception stack -/

/-- The address at an offset of the exception stack. -/
def exstkVa (off : Nat) : Word := exstk + BitVec.ofNat 32 off

/-- The bytes of the exception stack between two offsets, in physical page `q`. -/
def exstkBytes (q lo hi : Nat) : Set (Nat × Nat) := {x | x.1 = q ∧ lo ≤ x.2 ∧ x.2 < hi}

/-- Room for the frame of a fault, and below it for what the upcall pushes to call the
handler, if the program was on the exception stack. -/
def Room (esp : Word) : Prop := esp < exstk ∨ exstk + 64#32 ≤ esp

instance (esp : Word) : Decidable (Room esp) := inferInstanceAs (Decidable (_ ∨ _))

def OnExstk (esp : Word) : Prop := exstk ≤ esp ∧ esp ≤ exstkTop

instance (esp : Word) : Decidable (OnExstk esp) := inferInstanceAs (Decidable (_ ∧ _))

section

variable {m m' : PMap} {d q off : Nat} {esp : Word}

theorem toNat_exstkVa (off : Nat) (h : off < 2 ^ 28) : (exstkVa off).toNat = 4005556224 + off := by
  have hexstk : exstk.toNat = 4005556224 := by decide
  unfold exstkVa
  rw [BitVec.toNat_add, hexstk, BitVec.toNat_ofNat]
  omega

theorem exstkVa_add (off k : Nat) : exstkVa off + BitVec.ofNat 32 k = exstkVa (off + k) := by
  unfold exstkVa
  refine BitVec.eq_of_toNat_eq ?_
  simp only [BitVec.toNat_add, BitVec.toNat_ofNat]
  omega

theorem above_exstkVa (off i : Nat) : X86.above (exstkVa off) i = exstkVa (off + 4 * i) :=
  exstkVa_add off (4 * i)

theorem exstkVa_sub {k : Nat} (h : k ≤ off) :
    exstkVa off - BitVec.ofNat 32 k = exstkVa (off - k) := by
  unfold exstkVa
  refine BitVec.eq_of_toNat_eq ?_
  simp only [BitVec.toNat_sub, BitVec.toNat_add, BitVec.toNat_ofNat]
  omega

theorem cell_exstkVa (hq : translate m d userStore exstk = some q) (h : off < pgsize) :
    cell m d (exstkVa off) = some (q, off) := by
  have hexstk : exstk.toNat = 4005556224 := by decide
  have hutop : utop.toNat = 4005560320 := rfl
  unfold pgsize at h
  have hva := toNat_exstkVa off (by omega)
  refine cell_eq_some.mpr ⟨?_, ?_, ?_⟩
  · rw [BitVec.lt_def]
    omega
  · refine (translate_page ?_).trans hq
    rw [hva, hexstk, pgsize]
    omega
  · rw [hva, pgsize]
    omega

theorem writable_exstkVa (hq : translate m d userStore exstk = some q) (h : off + 4 ≤ pgsize) :
    Writable m d (exstkVa off) := by
  intro k hk
  rw [exstkVa_add, cell_exstkVa hq (by omega)]
  exact Option.some_ne_none _

theorem wordCells_exstkVa (hq : translate m d userStore exstk = some q) (h : off + 4 ≤ pgsize) :
    wordCells m d (exstkVa off) = exstkBytes q off (off + 4) := by
  ext x
  constructor
  · rintro ⟨k, hk, hx⟩
    rw [exstkVa_add, cell_exstkVa hq (by omega)] at hx
    cases hx
    exact ⟨rfl, Nat.le_add_right _ _, Nat.add_lt_add_left hk _⟩
  · rintro ⟨rfl, hlo, hhi⟩
    refine ⟨x.2 - off, by omega, ?_⟩
    rw [exstkVa_add, Nat.add_sub_cancel' hlo, cell_exstkVa hq (by omega)]

theorem Touched.page_eq {S : Set (Nat × Nat)} (h : Touched d S m m')
    (hq : translate m d userStore exstk = some q) : translate m' d userStore exstk = some q := by
  rw [h.translate_eq _ _ (by decide) (by decide)]
  exact hq

theorem disjoint_exstkBytes {q lo hi lo' hi' : Nat} (h : hi ≤ lo' ∨ hi' ≤ lo) :
    Disjoint (exstkBytes q lo hi) (exstkBytes q lo' hi') := by
  rw [Set.disjoint_left]
  rintro x ⟨_, hlo, hhi⟩ ⟨_, hlo', hhi'⟩
  omega

theorem not_onExstk : ¬ OnExstk esp ↔ esp < exstk ∨ exstkTop < esp := by
  unfold OnExstk
  rw [not_and_or, BitVec.not_le, BitVec.not_le]

/-- Where the frame of a fault is, when it fits on the exception stack. -/
theorem utfAddr_fits (h : OnExstk esp → exstk + 56#32 ≤ esp) :
    ∃ f, utfAddr esp = exstkVa f ∧ f + 52 ≤ pgsize ∧
      (OnExstk esp → esp = exstkVa (f + 56) ∧ f + 56 < pgsize) ∧ (Room esp → 8 ≤ f) := by
  have hexstk : exstk.toNat = 4005556224 := by decide
  have htop : exstkTop.toNat = 4005560319 := by decide
  have hfit : (exstk + 56#32).toNat = 4005556280 := by decide
  have hroom : (exstk + 64#32).toNat = 4005556288 := by decide
  unfold utfAddr
  by_cases hout : esp < exstk ∨ exstkTop < esp
  · rw [if_pos hout]
    exact ⟨4043, by decide, by decide,
      fun hin => absurd hout (not_onExstk.not.mp (not_not.mpr hin)), fun _ => by decide⟩
  · rw [if_neg hout]
    have hon : OnExstk esp := not_not.mp (not_onExstk.not.mpr hout)
    have hle := h hon
    rw [BitVec.le_def, hfit] at hle
    rw [BitVec.lt_def, BitVec.lt_def, hexstk, htop] at hout
    have hva := toNat_exstkVa (esp.toNat - 4005556280) (by omega)
    have hva' := toNat_exstkVa (esp.toNat - 4005556280 + 56) (by omega)
    refine ⟨esp.toNat - 4005556280, ?_, by unfold pgsize; omega, fun _ => ⟨?_, ?_⟩, fun hr => ?_⟩
    · refine BitVec.eq_of_toNat_eq ?_
      rw [hva]
      simp only [BitVec.toNat_sub, BitVec.toNat_ofNat]
      omega
    · refine BitVec.eq_of_toNat_eq ?_
      rw [hva']
      omega
    · unfold pgsize
      omega
    · unfold Room at hr
      rw [BitVec.lt_def, BitVec.le_def, hexstk, hroom] at hr
      omega

/-- With room for the call of the handler there is room for the frame. -/
theorem fits_of_room (h : Room esp) : OnExstk esp → exstk + 56#32 ≤ esp := by
  have hexstk : exstk.toNat = 4005556224 := by decide
  have hfit : (exstk + 56#32).toNat = 4005556280 := by decide
  have hroom : (exstk + 64#32).toNat = 4005556288 := by decide
  intro hon
  unfold Room at h
  unfold OnExstk at hon
  rw [BitVec.lt_def, BitVec.le_def, hexstk, hroom] at h
  rw [BitVec.le_def, BitVec.le_def, hexstk] at hon
  rw [BitVec.le_def, hfit]
  omega

theorem exstkBytes_subset {lo hi lo' hi' : Nat} (hlo : lo' ≤ lo) (hhi : hi ≤ hi') :
    exstkBytes q lo hi ⊆ exstkBytes q lo' hi' :=
  fun _ hx => ⟨hx.1, Nat.le_trans hlo hx.2.1, Nat.lt_of_lt_of_le hx.2.2 hhi⟩

/-! ## The push of the kernel -/

/-- The words of a frame, from its address up. -/
def UTrapframe.words (u : UTrapframe) : List Word :=
  [u.utfFaultVa, u.utfErr] ++ u.utfRegs.words ++ [u.utfEip, u.utfEflags, u.utfEsp]

theorem wordBytes_getElem? (ws : List Word) {i k : Nat} (hk : k < 4) :
    (ws.flatMap wordBytes)[4 * i + k]? = ws[i]?.map (X86.byte · k) := by
  induction ws generalizing i with
  | nil => rfl
  | cons w ws ih =>
      rw [List.flatMap_cons]
      cases i with
      | zero =>
          rw [Nat.mul_zero, Nat.zero_add, List.getElem?_append_left (show k < 4 from hk)]
          match k, hk with
          | 0, _ => rfl
          | 1, _ => rfl
          | 2, _ => rfl
          | 3, _ => rfl
      | succ i =>
          have hnext : 4 * (i + 1) + k - (wordBytes w).length = 4 * i + k := by
            show 4 * (i + 1) + k - 4 = _
            omega
          rw [List.getElem?_append_right (show 4 ≤ 4 * (i + 1) + k by omega), hnext, ih]
          rfl

theorem kernelStore_exstk (hsep : Separate m d) (hq : translate m d userStore exstk = some q)
    (off : Nat) (bs : List (BitVec 8)) (hlen : off + bs.length ≤ pgsize) :
    ∃ m', kernelStoreBytes m d (exstkVa off) bs = .ok m' ∧
      Touched d (exstkBytes q off (off + bs.length)) m m' ∧
      ∀ k (hk : k < bs.length), m'.byte q (off + k) = bs[k] := by
  have hcells : ∀ k, k < bs.length →
      cell m d (exstkVa off + BitVec.ofNat 32 k) = some (q, off + k) := fun k hk => by
    rw [exstkVa_add, cell_exstkVa hq (by omega)]
  obtain ⟨m', hstore, htouched, hread⟩ := storeBytes_touched bs hsep (x := fun k => (q, off + k))
    hcells (by omega) (show userStore &&& kernelStore = kernelStore by decide)
  refine ⟨m', ?_, htouched.mono ?_, hread⟩
  · have hutop : utop.toNat = 4005560320 := rfl
    have hbound : bs = [] ∨ (exstkVa off).toNat + bs.length ≤ utop.toNat := by
      unfold pgsize at hlen
      by_cases hnil : bs = []
      · exact .inl hnil
      · have hpos := List.length_pos_of_ne_nil hnil
        rw [toNat_exstkVa _ (by omega)]
        omega
    rw [kernelStoreBytes_low hbound, hstore]
  · rintro x ⟨k, hk, rfl⟩
    exact ⟨rfl, Nat.le_add_right _ _, Nat.add_lt_add_left hk _⟩

/-- A word of the exception stack from its bytes. -/
theorem loadWord_exstkVa (hq : translate m d userStore exstk = some q) (h : off + 4 ≤ pgsize)
    {w : Word} (hbyte : ∀ k, k < 4 → m.byte q (off + k) = X86.byte w k) :
    loadWord m d (exstkVa off) = some w := by
  have hcells : ∀ k, k < 4 → cell m d (exstkVa off + BitVec.ofNat 32 k) = some (q, off + k) := by
    intro k hk
    rw [exstkVa_add, cell_exstkVa hq (by omega)]
  rw [loadWord_of_cells hcells]
  exact congrArg some ((X86.ofBytes_congr fun k hk => hbyte k hk).trans (X86.ofBytes_byte w))

/-- The scratch word, when the program was on the exception stack. -/
theorem pushScratch_exstk (hsep : Separate m d) (hq : translate m d userStore exstk = some q)
    {f : Nat} (hon : OnExstk esp → esp = exstkVa (f + 56) ∧ f + 56 < pgsize) :
    ∃ m', pushScratch m d esp = .ok m' ∧
      Touched d (exstkBytes q f (min (f + 56) pgsize)) m m' ∧
      (OnExstk esp → ∀ k, k < 4 → m'.byte q (f + 52 + k) = X86.byte 0#32 k) := by
  unfold pushScratch
  by_cases h : OnExstk esp
  · obtain ⟨hesp, hlt⟩ := hon h
    have hword : esp - 4#32 = exstkVa (f + 52) := by
      rw [hesp]
      exact exstkVa_sub (by omega)
    obtain ⟨m', hstore, htouched, hread⟩ := kernelStore_exstk hsep hq (f + 52)
      (wordBytes 0#32) (show f + 52 + 4 ≤ pgsize by omega)
    refine ⟨m', ?_, htouched.mono (exstkBytes_subset (by omega) ?_), fun _ k hk => ?_⟩
    · rw [if_neg fun hout => not_onExstk.mpr hout h, hword]
      exact hstore
    · show f + 52 + 4 ≤ min (f + 56) pgsize
      omega
    · rw [hread k hk]
      match k, hk with
      | 0, _ => rfl
      | 1, _ => rfl
      | 2, _ => rfl
      | 3, _ => rfl
  · exact ⟨m, if_pos (not_onExstk.mp h), .refl hsep, fun hin => absurd hin h⟩

/-- The kernel's stores are on the exception stack, and what they wrote can be read back. -/
theorem pushUtf_exstk (hsep : Separate m d) (hq : translate m d userStore exstk = some q)
    {u : UTrapframe} {f : Nat} (hf : utfAddr u.utfEsp = exstkVa f) (hfit : f + 52 ≤ pgsize)
    (hon : OnExstk u.utfEsp → u.utfEsp = exstkVa (f + 56) ∧ f + 56 < pgsize) :
    ∃ m', pushUtf m d u = .ok m' ∧ Touched d (exstkBytes q f (min (f + 56) pgsize)) m m' ∧
      (∀ i (hi : i < 13), loadWord m' d (exstkVa (f + 4 * i)) = some u.words[i]) ∧
      (OnExstk u.utfEsp → loadWord m' d (exstkVa (f + 52)) = some 0#32) := by
  obtain ⟨m₁, hpush, htouched₁, hscratch⟩ := pushScratch_exstk hsep hq hon
  have hq₁ : translate m₁ d userStore exstk = some q := htouched₁.page_eq hq
  obtain ⟨m', hstore, htouched, hread⟩ :=
    kernelStore_exstk htouched₁.separate hq₁ f u.bytes (show f + 52 ≤ pgsize from hfit)
  have hq' : translate m' d userStore exstk = some q := by
    rw [htouched.translate_eq _ _ (by decide) (by decide)]
    exact hq₁
  refine ⟨m', ?_, htouched₁.trans (htouched.mono
    (exstkBytes_subset (Nat.le_refl f) (show f + 52 ≤ min (f + 56) pgsize by omega))),
    fun i hi => ?_, fun h => ?_⟩
  · unfold pushUtf
    rw [hpush, Except.ok_bind_eq, hf]
    exact hstore
  · refine loadWord_exstkVa hq' (by omega) fun k hk => ?_
    have hlen : 4 * i + k < u.bytes.length := show 4 * i + k < 52 by omega
    rw [Nat.add_assoc, hread _ hlen]
    have hword := wordBytes_getElem? u.words (i := i) hk
    rw [List.getElem?_eq_getElem (show i < u.words.length from hi), Option.map_some] at hword
    exact Option.some.inj ((List.getElem?_eq_getElem hlen).symm.trans hword)
  · refine loadWord_exstkVa hq' (show f + 52 + 4 ≤ pgsize by have := (hon h).2; omega)
      fun k hk => ?_
    rw [htouched.byte]
    · exact hscratch h k hk
    · rintro ⟨_, _, hhi⟩
      exact absurd hhi (show ¬ f + 52 + k < f + 52 by omega)

/-- What the kernel pushed for the trap frame `tf`: a frame at offset `f` of the exception
stack, in physical page `q`, and under it the scratch word of a nested fault. -/
structure Pushed (d q f : Nat) (faultVa : Word) (tf : Trapframe) (m m' : PMap) : Prop where
  high : f + 52 ≤ pgsize
  addr : utfAddr tf.esp = exstkVa f
  nested : OnExstk tf.esp → tf.esp = exstkVa (f + 56) ∧ f + 56 < pgsize
  touched : Touched d (exstkBytes q f (min (f + 56) pgsize)) m m'
  words : ∀ i (hi : i < 13),
    loadWord m' d (exstkVa (f + 4 * i)) = some (utfOf tf faultVa).words[i]
  scratch : OnExstk tf.esp → loadWord m' d (exstkVa (f + 52)) = some 0#32

theorem deliver_pushed (hsep : Separate m d) (hq : translate m d userStore exstk = some q)
    {tf : Trapframe} (hfit : OnExstk tf.esp → exstk + 56#32 ≤ tf.esp) (upcall faultVa : Word) :
    ∃ f m', deliver d upcall faultVa m tf = some ({ tf with esp := exstkVa f, eip := upcall }, m') ∧
      Pushed d q f faultVa tf m m' ∧ (Room tf.esp → 8 ≤ f) := by
  obtain ⟨f, haddr, hhigh, hnested, hlow⟩ := utfAddr_fits hfit
  obtain ⟨m', hpush, htouched, hwords, hscratch⟩ :=
    pushUtf_exstk hsep hq (u := utfOf tf faultVa) haddr hhigh hnested
  have hin : ¬ (exstkVa f < exstk ∨ exstkTop < exstkVa f) := by
    have hexstk : exstk.toNat = 4005556224 := by decide
    have htop : exstkTop.toNat = 4005560319 := by decide
    unfold pgsize at hhigh
    rw [BitVec.lt_def, BitVec.lt_def, hexstk, htop, toNat_exstkVa _ (by omega)]
    omega
  refine ⟨f, m', ?_, ⟨hhigh, haddr, hnested, htouched, hwords, hscratch⟩, hlow⟩
  unfold deliver
  rw [hpush]
  dsimp only
  rw [haddr, if_neg hin]

/-- A frame on the exception stack for the trap frame `tf`. -/
structure Framed (m : PMap) (d f : Nat) (faultVa : Word) (tf : Trapframe) : Prop where
  low : 8 ≤ f
  high : f + 52 ≤ pgsize
  addr : utfAddr tf.esp = exstkVa f
  nested : OnExstk tf.esp → tf.esp = exstkVa (f + 56) ∧ f + 56 < pgsize
  words : ∀ i (hi : i < 13), loadWord m d (exstkVa (f + 4 * i)) = some (utfOf tf faultVa).words[i]

theorem deliver_exstk (hsep : Separate m d) (hq : translate m d userStore exstk = some q)
    {tf : Trapframe} (hroom : Room tf.esp) (upcall faultVa : Word) :
    ∃ f m', deliver d upcall faultVa m tf = some ({ tf with esp := exstkVa f, eip := upcall }, m') ∧
      Touched d (exstkBytes q f (min (f + 56) pgsize)) m m' ∧ Framed m' d f faultVa tf := by
  obtain ⟨f, m', hdeliver, hp, hlow⟩ := deliver_pushed hsep hq (fits_of_room hroom) upcall faultVa
  exact ⟨f, m', hdeliver, hp.touched, hlow hroom, hp.high, hp.addr, hp.nested, hp.words⟩

/-! ## The call of the handler -/

/-- The program's memory and segments. -/
def program (d : Nat) : X86.Platform PMap := userPlatform d gdtLoadable

theorem enter_exstk {p : PfEntry} {c : X86.Cpu} {f : Nat} (hsep : Separate m d)
    (hq : translate m d userStore exstk = some q) (hc : c.NoTraps) (hlow : 8 ≤ f)
    (hhigh : f ≤ pgsize) (hesp : c.esp = exstkVa f)
    (hvar : loadWord m d p.pgfaultHandler ≠ none) :
    ∃ handler m', X86.run (program d) p.enter ⟨c, m⟩ =
        some ⟨{ (c.setReg .eax handler).setReg .esp (exstkVa (f - 8)) with eip := handler }, m'⟩ ∧
      Touched d (exstkBytes q (f - 8) f) m m' ∧
      loadWord m' d (exstkVa (f - 4)) = some (exstkVa f) ∧
      loadWord m' d (exstkVa (f - 8)) = some p.back := by
  obtain ⟨m₁, hstore₁, htouched₁, hread₁⟩ :=
    (writable_exstkVa hq (show f - 4 + 4 ≤ pgsize by omega)).store hsep (exstkVa f)
  rw [wordCells_exstkVa hq (by omega)] at htouched₁
  have hq₁ : translate m₁ d userStore exstk = some q := htouched₁.page_eq hq
  obtain ⟨handler, hhandler⟩ := Option.ne_none_iff_exists'.mp (htouched₁.load_ne_none hvar)
  obtain ⟨m₂, hstore₂, htouched₂, hread₂⟩ :=
    (writable_exstkVa hq₁ (show f - 8 + 4 ≤ pgsize by omega)).store htouched₁.separate p.back
  rw [wordCells_exstkVa hq₁ (by omega)] at htouched₂
  refine ⟨handler, m₂, ?_, (htouched₁.mono (exstkBytes_subset (by omega) (by omega))).trans
    (htouched₂.mono (exstkBytes_subset (Nat.le_refl _) (by omega))), ?_, hread₂⟩
  · have hesp₁ : c.esp - 4#32 = exstkVa (f - 4) := by
      rw [hesp]
      exact exstkVa_sub (by omega)
    have hpush : (program d).store m (c.esp - 4#32) (c.reg .esp) = some m₁ := by
      rw [hesp₁, show c.reg .esp = exstkVa f from hesp]
      exact hstore₁
    have hc₁ : (c.setReg .esp (c.esp - 4#32)).NoTraps := hc
    have hload : (program d).load m₁ p.pgfaultHandler = some handler := hhandler
    have hc₂ : ((c.setReg .esp (c.esp - 4#32)).setReg .eax handler).NoTraps := hc
    have hesp₂ : ((c.setReg .esp (c.esp - 4#32)).setReg .eax handler).esp - 4#32 =
        exstkVa (f - 8) := by
      have hkeep : ((c.setReg .esp (c.esp - 4#32)).setReg .eax handler).esp = c.esp - 4#32 := by
        simp [X86.Cpu.setReg, X86.Cpu.esp]
      rw [hkeep, hesp₁]
      exact exstkVa_sub (show 4 ≤ f - 4 by omega)
    have hcall : (program d).store m₁
        (((c.setReg .esp (c.esp - 4#32)).setReg .eax handler).esp - 4#32) p.back = some m₂ := by
      rw [hesp₂]
      exact hstore₂
    unfold PfEntry.enter
    rw [X86.run_cons, X86.exec_pushl hc hpush, Option.bind_eq_bind, Option.bind_some, X86.run_cons,
      X86.exec_movlAbs hc₁ hload, Option.bind_eq_bind, Option.bind_some, X86.run_cons,
      X86.exec_callReg hc₂ hcall, hesp₂]
    refine congrArg some (congrArg (X86.State.mk · m₂) ?_)
    ext1
    · funext r
      cases r <;> simp [X86.Cpu.setReg]
    · simp [X86.Cpu.setReg]
    all_goals rfl
  · rw [htouched₂.loadWord_eq (writable_exstkVa hq₁ (by omega)), hread₁]
    rw [wordCells_exstkVa hq₁ (by omega)]
    exact disjoint_exstkBytes (.inr (by omega))

end

/-! ## The return to the program -/

section

variable {A : List Word} {loadable : Nat → X86.Selector → Bool} {v : Word → Word}
  {c : X86.Cpu} {base word : Word} {w : Nat → Word}

theorem slots_load {a : Word} (h : a ∈ A) : (X86.slots A loadable).load v a = some (v a) :=
  if_pos h

theorem slots_store {a w : Word} (h : a ∈ A) :
    (X86.slots A loadable).store v a w = some (Function.update v a w) :=
  if_pos h

theorem run_pfPushEip (hc : c.NoTraps) (hesp : c.esp = base - 4#32)
    (hA : ∀ i, i < 13 → X86.above base i ∈ A) (hv : ∀ i, i < 13 → v (X86.above base i) = w i)
    (hword : word = w 12 - 4#32) (hin : word ∈ A) :
    ∃ c', X86.run (X86.slots A loadable) pfPushEip ⟨c, v⟩ =
        some ⟨c', Function.update (Function.update v word (w 10)) (X86.above base 12) word⟩ ∧
      c'.NoTraps ∧ c'.esp = base ∧ c'.eflags &&& ~~~X86.flUser = c.eflags &&& ~~~X86.flUser ∧
      c'.cs = c.cs ∧ c'.ss = c.ss ∧ c'.ds = c.ds ∧ c'.es = c.es := by
  have hload : ∀ i, i < 13 → (X86.slots A loadable).load v (X86.above base i) = some (w i) :=
    fun i hi => by rw [slots_load (hA i hi), hv i hi]
  unfold pfPushEip
  rw [X86.run_cons, X86.exec_addl hc, Option.bind_eq_bind, Option.bind_some]
  generalize hc₁ : (c.setReg .esp (c.reg .esp + 4#32)).setFlags X86.flArith
    (X86.addFlags (c.reg .esp) 4#32) = c₁
  have h₁ : c₁.NoTraps := by
    rw [← hc₁, X86.Cpu.noTraps_setArith]
    exact hc
  have hesp₁ : c₁.reg .esp = base := by
    have hback : c.reg .esp + 4#32 = base := by
      rw [show c.reg .esp = base - 4#32 from hesp, BitVec.sub_add_cancel]
    rw [← hc₁]
    exact (X86.Cpu.esp_setReg c _).trans hback
  have heip : (X86.slots A loadable).load v (c₁.reg .esp + 40#32) = some (w 10) := by
    rw [hesp₁]
    exact hload 10 (by decide)
  rw [X86.run_cons, X86.exec_movlFrom h₁ heip, Option.bind_eq_bind, Option.bind_some]
  have h₂ : (c₁.setReg .eax (w 10)).NoTraps := h₁
  have htop : (X86.slots A loadable).load v ((c₁.setReg .eax (w 10)).reg .esp + 48#32) =
      some (w 12) := by
    rw [show (c₁.setReg .eax (w 10)).reg .esp = base from hesp₁]
    exact hload 12 (by decide)
  rw [X86.run_cons, X86.exec_movlFrom h₂ htop, Option.bind_eq_bind, Option.bind_some]
  have h₃ : ((c₁.setReg .eax (w 10)).setReg .ebx (w 12)).NoTraps := h₁
  have hebx : ((c₁.setReg .eax (w 10)).setReg .ebx (w 12)).reg .ebx = w 12 := by
    simp [X86.Cpu.setReg]
  rw [X86.run_cons, X86.exec_subl h₃, hebx, Option.bind_eq_bind, Option.bind_some, ← hword]
  generalize hc₄ : (((c₁.setReg .eax (w 10)).setReg .ebx (w 12)).setReg .ebx word).setFlags
    X86.flArith (X86.subFlags (w 12) 4#32) = c₄
  have h₄ : c₄.NoTraps := by
    rw [← hc₄, X86.Cpu.noTraps_setArith]
    exact h₁
  have heax₄ : c₄.reg .eax = w 10 := by
    rw [← hc₄]
    simp [X86.Cpu.setReg, X86.Cpu.setFlags]
  have hebx₄ : c₄.reg .ebx = word := by
    rw [← hc₄]
    simp [X86.Cpu.setReg, X86.Cpu.setFlags]
  have hesp₄ : c₄.reg .esp = base := by
    rw [← hc₄]
    exact hesp₁
  have hpush : (X86.slots A loadable).store v (c₄.reg .ebx + 0#32) (c₄.reg .eax) =
      some (Function.update v word (w 10)) := by
    rw [hebx₄, heax₄, BitVec.add_zero]
    exact slots_store hin
  have hsave : (X86.slots A loadable).store (Function.update v word (w 10))
      (c₄.reg .esp + 48#32) (c₄.reg .ebx) =
        some (Function.update (Function.update v word (w 10)) (X86.above base 12) word) := by
    rw [hebx₄, hesp₄]
    exact slots_store (hA 12 (by decide))
  rw [X86.run_cons, X86.exec_movlTo h₄ hpush, Option.bind_eq_bind, Option.bind_some, X86.run_cons,
    X86.exec_movlTo h₄ hsave, Option.bind_eq_bind, Option.bind_some]
  refine ⟨c₄, rfl, h₄, hesp₄, ?_, ?_, ?_, ?_, ?_⟩
  · rw [← hc₄, ← hc₁]
    exact (X86.Cpu.blend_and (by decide)).trans (X86.Cpu.blend_and (by decide))
  all_goals rw [← hc₄, ← hc₁]; rfl

/-- The registers `_pgfault_upcall` returns with. -/
def pfCpu (c : X86.Cpu) (w : Nat → Word) (esp eip : Word) : X86.Cpu :=
  { c.popped (fun j => w (2 + j)) esp with eip := eip, eflags := w 11 }

theorem flUser_popMask (c : X86.Cpu) : X86.flUser &&& c.popMask = X86.flUser := by
  have hor : ∀ a b : Word, a &&& (a ||| b) = a := fun a b => by
    ext i hi
    simp
    tauto
  unfold X86.Cpu.popMask
  rw [BitVec.or_assoc]
  exact hor _ _

theorem run_pfRestore (hc : c.NoTraps) (hesp : c.esp = base)
    (hA : ∀ i, i < 13 → X86.above base i ∈ A) (hv : ∀ i, i < 12 → v (X86.above base i) = w i)
    (hword : v (X86.above base 12) = word) (hin : word ∈ A)
    (hflags : c.eflags &&& ~~~X86.flUser = w 11 &&& ~~~X86.flUser)
    (htf : w 11 &&& X86.flTf = 0#32) (hac : w 11 &&& X86.flAc = 0#32) :
    X86.run (X86.slots A loadable) pfRestore ⟨c, v⟩ =
      some ⟨pfCpu c w (word + 4#32) (v word), v⟩ := by
  have hload : ∀ i, i < 12 → (X86.slots A loadable).load v (X86.above base i) = some (w i) :=
    fun i hi => by rw [slots_load (hA i (by omega)), hv i hi]
  have hstart : c.esp = X86.above base 0 := by rw [X86.above_zero, hesp]
  unfold pfRestore
  rw [X86.run_cons, X86.exec_popl hc hstart (hload 0 (by decide)), Option.bind_eq_bind,
    Option.bind_some]
  generalize hc₁ : (c.setReg .esp (X86.above base (0 + 1))).setReg .eax (w 0) = c₁
  have h₁ : c₁.NoTraps := hc₁ ▸ hc
  have hesp₁ : c₁.esp = X86.above base 1 := by
    rw [← hc₁]
    simp [X86.Cpu.setReg, X86.Cpu.esp]
  rw [X86.run_cons, X86.exec_popl h₁ hesp₁ (hload 1 (by decide)), Option.bind_eq_bind,
    Option.bind_some]
  generalize hc₂ : (c₁.setReg .esp (X86.above base (1 + 1))).setReg .eax (w 1) = c₂
  have h₂ : c₂.NoTraps := hc₂ ▸ h₁
  have hesp₂ : c₂.esp = X86.above base 2 := by
    rw [← hc₂]
    simp [X86.Cpu.setReg, X86.Cpu.esp]
  rw [X86.run_cons, X86.exec_popal h₂, X86.popal_above h₂ hesp₂
    (fun j hj => hload (2 + j) (by omega)), Option.bind_eq_bind, Option.bind_some]
  generalize hc₃ : c₂.popped (fun j => w (2 + j)) (X86.above base (2 + 8)) = c₃
  have h₃ : c₃.NoTraps := hc₃ ▸ h₂
  have hesp₃ : c₃.reg .esp = X86.above base 10 := by rw [← hc₃]; rfl
  rw [X86.run_cons, X86.exec_addl h₃, hesp₃, X86.above_add, Option.bind_eq_bind, Option.bind_some]
  generalize hc₄ : (c₃.setReg .esp (X86.above base (10 + 1))).setFlags X86.flArith
    (X86.addFlags (X86.above base 10) 4#32) = c₄
  have h₄ : c₄.NoTraps := by
    rw [← hc₄, X86.Cpu.noTraps_setArith]
    exact h₃
  have hesp₄ : c₄.esp = X86.above base 11 := by
    rw [← hc₄]
    exact X86.Cpu.esp_setReg c₃ _
  have hflags₄ : c₄.eflags &&& ~~~X86.flUser = w 11 &&& ~~~X86.flUser := by
    rw [← hflags, ← hc₄]
    refine (X86.Cpu.blend_and (by decide)).trans ?_
    rw [← hc₃, ← hc₂, ← hc₁]
    rfl
  rw [X86.run_cons, X86.exec_popfl h₄ hesp₄ (hload 11 (by decide)), Option.bind_eq_bind,
    Option.bind_some]
  generalize hc₅ : (c₄.setReg .esp (X86.above base (11 + 1))).setFlags c₄.popMask (w 11) = c₅
  have heflags₅ : c₅.eflags = w 11 := by
    rw [← hc₅]
    exact X86.Cpu.blend_eq hflags₄ (flUser_popMask c₄)
  have h₅ : c₅.NoTraps := ⟨by rw [heflags₅]; exact htf, .inr (by rw [heflags₅]; exact hac)⟩
  have hesp₅ : c₅.esp = X86.above base 12 := by
    rw [← hc₅]
    exact X86.Cpu.esp_setReg c₄ _
  have hback : (X86.slots A loadable).load v (X86.above base 12) = some word := by
    rw [slots_load (hA 12 (by decide)), hword]
  rw [X86.run_cons, X86.exec_popl h₅ hesp₅ hback, Option.bind_eq_bind, Option.bind_some]
  generalize hc₆ : (c₅.setReg .esp (X86.above base (12 + 1))).setReg .esp word = c₆
  have h₆ : c₆.NoTraps := hc₆ ▸ h₅
  have hesp₆ : c₆.esp = word := by
    rw [← hc₆]
    exact X86.Cpu.esp_setReg _ _
  have hret : (X86.slots A loadable).load v c₆.esp = some (v word) := by
    rw [hesp₆]
    exact slots_load hin
  rw [X86.run_cons, X86.exec_ret h₆ hret, hesp₆]
  refine congrArg some (congrArg (X86.State.mk · v) ?_)
  have hflags₆ : c₆.eflags = w 11 := by
    rw [← hc₆]
    exact heflags₅
  ext1
  · rw [← hc₆, ← hc₅, ← hc₄, ← hc₃]
    funext r
    cases r <;> rfl
  · rfl
  · exact hflags₆
  all_goals rw [← hc₆, ← hc₅, ← hc₄, ← hc₃, ← hc₂, ← hc₁]; rfl

/-- The two parts, on words that are apart. -/
theorem run_pfLeave (hc : c.NoTraps) (hesp : c.esp = base - 4#32)
    (hA : ∀ i, i < 13 → X86.above base i ∈ A) (hv : ∀ i, i < 13 → v (X86.above base i) = w i)
    (hword : word = w 12 - 4#32) (hin : word ∈ A)
    (hne : ∀ i, i < 13 → X86.above base i ≠ word)
    (hflags : c.eflags &&& ~~~X86.flUser = w 11 &&& ~~~X86.flUser)
    (htf : w 11 &&& X86.flTf = 0#32) (hac : w 11 &&& X86.flAc = 0#32) :
    ∃ v', X86.run (X86.slots A loadable) pfLeave ⟨c, v⟩ =
      some ⟨pfCpu c w (w 12) (w 10), v'⟩ := by
  obtain ⟨c', hpush, hc', hesp', hflags', hcs, hss, hds, hes⟩ :=
    @run_pfPushEip A loadable v c base word w hc hesp hA hv hword hin
  have hother : ∀ i, i < 12 → Function.update (Function.update v word (w 10))
      (X86.above base 12) word (X86.above base i) = w i := by
    intro i hi
    have hlast : X86.above base i ≠ X86.above base 12 := by
      intro heq
      unfold X86.above at heq
      have hnat := congrArg BitVec.toNat heq
      simp only [BitVec.toNat_add, BitVec.toNat_ofNat] at hnat
      omega
    rw [Function.update_of_ne hlast, Function.update_of_ne (hne i (by omega))]
    exact hv i (by omega)
  have hret : Function.update (Function.update v word (w 10)) (X86.above base 12) word word =
      w 10 := by
    rw [Function.update_of_ne (hne 12 (by decide)).symm, Function.update_self]
  refine ⟨Function.update (Function.update v word (w 10)) (X86.above base 12) word, ?_⟩
  unfold pfLeave
  rw [X86.run_append, hpush, Option.bind_eq_bind, Option.bind_some,
    run_pfRestore hc' hesp' hA hother (Function.update_self _ _ _) hin (hflags'.trans hflags) htf
      hac, hret, hword, BitVec.sub_add_cancel]
  refine congrArg some (congrArg (X86.State.mk · _) ?_)
  ext1
  · rfl
  · rfl
  · rfl
  · exact hcs
  · exact hss
  · exact hds
  · exact hes

end

theorem leave_exstk {m : PMap} {d q f : Nat} {c : X86.Cpu} {w : Nat → Word}
    (hsep : Separate m d) (hq : translate m d userStore exstk = some q) (hhigh : f + 52 ≤ pgsize)
    (hc : c.NoTraps) (hesp : c.esp = exstkVa f - 4#32)
    (hw : ∀ i, i < 13 → loadWord m d (exstkVa (f + 4 * i)) = some (w i))
    (hwrite : Writable m d (w 12 - 4#32))
    (hdis : Disjoint (wordCells m d (w 12 - 4#32)) (exstkBytes q f (f + 52)))
    (hflags : c.eflags &&& ~~~X86.flUser = w 11 &&& ~~~X86.flUser)
    (htf : w 11 &&& X86.flTf = 0#32) (hac : w 11 &&& X86.flAc = 0#32) :
    ∃ m', X86.run (program d) pfLeave ⟨c, m⟩ = some ⟨pfCpu c w (w 12) (w 10), m'⟩ ∧
      Touched d (exstkBytes q f (f + 52) ∪ wordCells m d (w 12 - 4#32)) m m' := by
  generalize hword : w 12 - 4#32 = word at hwrite hdis ⊢
  have hcells : ∀ i, i < 13 → wordCells m d (X86.above (exstkVa f) i) =
      exstkBytes q (f + 4 * i) (f + 4 * i + 4) := fun i hi => by
    rw [above_exstkVa, wordCells_exstkVa hq (by omega)]
  have hframe : ∀ i, i < 13 → wordCells m d (X86.above (exstkVa f) i) ⊆
      exstkBytes q f (f + 52) := fun i hi => by
    rw [hcells i hi]
    exact exstkBytes_subset (by omega) (by omega)
  have hne : ∀ i, i < 13 → X86.above (exstkVa f) i ≠ word := by
    rintro i hi rfl
    have hin : (q, f + 4 * i) ∈ wordCells m d (X86.above (exstkVa f) i) := by
      rw [hcells i hi]
      exact ⟨rfl, Nat.le_refl _, Nat.lt_add_of_pos_right (by decide)⟩
    exact Set.disjoint_left.mp hdis hin
      ⟨rfl, Nat.le_add_right _ _, Nat.add_lt_add_left (by omega) _⟩
  have hmem : ∀ a, a ∈ (List.range 13).map (X86.above (exstkVa f)) ++ [word] →
      (∃ i, i < 13 ∧ X86.above (exstkVa f) i = a) ∨ a = word := by
    intro a ha
    simpa [List.mem_append, List.mem_map, List.mem_range] using ha
  have hA : ∀ i, i < 13 →
      X86.above (exstkVa f) i ∈ (List.range 13).map (X86.above (exstkVa f)) ++ [word] :=
    fun i hi => List.mem_append_left _ (List.mem_map_of_mem (List.mem_range.mpr hi))
  have hin : word ∈ (List.range 13).map (X86.above (exstkVa f)) ++ [word] :=
    List.mem_append_right _ (List.mem_singleton.mpr rfl)
  have hslots := user_slots (m := m) (d := d)
    (A := (List.range 13).map (X86.above (exstkVa f)) ++ [word]) gdtLoadable ?_ ?_
  · obtain ⟨v, hv⟩ := hslots.exists_holds (m := m) (.refl hsep)
    have hread : ∀ i, i < 13 → v (X86.above (exstkVa f) i) = w i := by
      intro i hi
      have hload := hv.2 _ (hA i hi)
      rw [above_exstkVa] at hload ⊢
      exact Option.some.inj (hload.symm.trans (hw i hi))
    obtain ⟨v', hrun⟩ := @run_pfLeave _ gdtLoadable v c _ _ w hc hesp hA hread hword.symm hin hne
      hflags htf hac
    have halike : X86.Alike (X86.Holds (userPlatform d gdtLoadable) _ _) ⟨c, m⟩ ⟨c, v⟩ := ⟨rfl, hv⟩
    obtain ⟨u, hu, hcpu, hgood, _⟩ := hslots.simulates.run_matches pfLeave halike _ hrun
    refine ⟨u.mem, hu.trans (congrArg some (congrArg (X86.State.mk · u.mem) hcpu)), hgood.mono ?_⟩
    rintro x ⟨a, ha, hx⟩
    rcases hmem a ha with ⟨i, hi, rfl⟩ | rfl
    · exact .inl (hframe i hi hx)
    · exact .inr hx
  · intro a ha
    rcases hmem a ha with ⟨i, hi, rfl⟩ | rfl
    · rw [above_exstkVa]
      exact writable_exstkVa hq (by omega)
    · exact hwrite
  · intro a ha b hb hab
    rcases hmem a ha with ⟨i, hi, rfl⟩ | rfl
    · rcases hmem b hb with ⟨j, hj, rfl⟩ | rfl
      · rw [hcells i hi, hcells j hj]
        have hij : j ≠ i := fun h => hab (by rw [h])
        exact disjoint_exstkBytes (by omega)
      · exact hdis.mono_right (hframe i hi)
    · rcases hmem b hb with ⟨j, hj, rfl⟩ | rfl
      · exact (hdis.mono_right (hframe j hj)).symm
      · exact absurd rfl hab

/-! ## Handlers -/

/-- The exception stack is there, with the same bytes from an offset up. -/
structure Keeps (d lo : Nat) (m m' : PMap) : Prop where
  separate : Separate m' d
  page : ∃ q, translate m' d userStore exstk = some q
  bytes : ∀ off, lo ≤ off → off < pgsize → loadByte m' d (exstkVa off) = loadByte m d (exstkVa off)

/-- A handler called with the registers `c` is back with `c'`, as code that follows the
calling convention returns. -/
structure Returned (p : PfEntry) (c c' : X86.Cpu) : Prop where
  eip : c'.eip = p.back
  esp : c'.esp = c.esp + 4#32
  cs : c'.cs = c.cs
  ss : c'.ss = c.ss
  ds : c'.ds = c.ds
  es : c'.es = c.es
  flags : c'.eflags &&& ~~~X86.flUser = c.eflags &&& ~~~X86.flUser
  noTraps : c'.NoTraps

section

variable {m m' m'' : PMap} {d q lo : Nat} {S : Set (Nat × Nat)}

theorem Keeps.trans (h : Keeps d lo m m') (h' : Keeps d lo m' m'') : Keeps d lo m m'' :=
  ⟨h'.separate, h'.page, fun off hlo hhi => (h'.bytes off hlo hhi).trans (h.bytes off hlo hhi)⟩

theorem Keeps.mono {lo' : Nat} (h : Keeps d lo m m') (hlo : lo ≤ lo') : Keeps d lo' m m' :=
  ⟨h.separate, h.page, fun off hoff hhi => h.bytes off (Nat.le_trans hlo hoff) hhi⟩

theorem Touched.keeps (h : Touched d S m m') (hq : translate m d userStore exstk = some q)
    (hdis : Disjoint (exstkBytes q lo pgsize) S) : Keeps d lo m m' := by
  have hq' : translate m' d userStore exstk = some q := h.page_eq hq
  refine ⟨h.separate, ⟨q, hq'⟩, fun off hlo hhi => ?_⟩
  rw [loadByte_of_cell (cell_exstkVa hq hhi), loadByte_of_cell (cell_exstkVa hq' hhi)]
  exact congrArg some (h.byte q off (Set.disjoint_left.mp hdis ⟨rfl, hlo, hhi⟩))

theorem Keeps.loadWord_eq (h : Keeps d lo m m') {off : Nat} (hlo : lo ≤ off)
    (hhi : off + 4 ≤ pgsize) : loadWord m' d (exstkVa off) = loadWord m d (exstkVa off) := by
  have hbyte : ∀ k, k < 4 → loadByte m' d (exstkVa off + BitVec.ofNat 32 k) =
      loadByte m d (exstkVa off + BitVec.ofNat 32 k) := fun k hk => by
    rw [exstkVa_add]
    exact h.bytes _ (by omega) (by omega)
  have hall : (∀ k, k < 4 → loadByte m' d (exstkVa off + BitVec.ofNat 32 k) ≠ none) ↔
      ∀ k, k < 4 → loadByte m d (exstkVa off + BitVec.ofNat 32 k) ≠ none :=
    forall₂_congr fun k hk => by rw [hbyte k hk]
  unfold loadWord
  by_cases hm : ∀ k, k < 4 → loadByte m d (exstkVa off + BitVec.ofNat 32 k) ≠ none
  · rw [if_pos hm, if_pos (hall.mpr hm)]
    exact congrArg some (X86.ofBytes_congr fun k hk => by rw [hbyte k hk])
  · rw [if_neg hm, if_neg fun h => hm (hall.mp h)]

end

/-- Whether the word below the trap-time stack pointer can take the return address: it is
on the exception stack, above the frame, or elsewhere in memory the program can write. -/
def WordBelow (m : PMap) (d : Nat) (esp : Word) : Prop :=
  OnExstk esp ∨ Writable m d (esp - 4#32) ∧
    ∀ q, translate m d userStore exstk = some q →
      Disjoint (wordCells m d (esp - 4#32)) (exstkBytes q 0 pgsize)

/-- A handler returned with its frame as it was: the upcall restores the registers at the
fault. -/
theorem leave_framed {p : PfEntry} {m m' : PMap} {d f : Nat} {faultVa : Word} {tf : Trapframe}
    {c c' : X86.Cpu} (hframed : Framed m d f faultVa tf) (hkeep : Keeps d f m m')
    (hret : Returned p c c') (hesp : c.esp = exstkVa (f - 8)) (hcs : c.cs = tf.cs)
    (hss : c.ss = tf.ss) (hds : c.ds = tf.ds) (hes : c.es = tf.es)
    (heflags : c.eflags = tf.eflags) (htf : tf.eflags &&& X86.flTf = 0#32)
    (hac : tf.eflags &&& X86.flAc = 0#32) (hword : WordBelow m' d tf.esp) :
    ∃ q m₂, translate m' d userStore exstk = some q ∧
      X86.run (program d) pfLeave ⟨c', m'⟩ = some ⟨tfCpu tf, m₂⟩ ∧
      Touched d (exstkBytes q f (f + 52) ∪ wordCells m' d (tf.esp - 4#32)) m' m₂ := by
  obtain ⟨q, hq⟩ := hkeep.page
  have hesp' : c'.esp = exstkVa f - 4#32 := by
    have hlow := hframed.low
    rw [hret.esp, hesp]
    refine BitVec.eq_of_toNat_eq ?_
    simp only [exstkVa, BitVec.toNat_sub, BitVec.toNat_add, BitVec.toNat_ofNat]
    omega
  have hw : ∀ i, i < 13 → loadWord m' d (exstkVa (f + 4 * i)) =
      some ((utfOf tf faultVa).words.getD i 0#32) := by
    intro i hi
    have hhigh := hframed.high
    rw [hkeep.loadWord_eq (by omega) (by omega), hframed.words i hi]
    exact congrArg some (List.getD_eq_getElem _ _ hi).symm
  have hplace : Writable m' d (tf.esp - 4#32) ∧
      Disjoint (wordCells m' d (tf.esp - 4#32)) (exstkBytes q f (f + 52)) := by
    rcases hword with hon | ⟨hwrite, hdis⟩
    · obtain ⟨hat, hlt⟩ := hframed.nested hon
      have hbelow : tf.esp - 4#32 = exstkVa (f + 52) := by
        rw [hat]
        exact exstkVa_sub (by omega)
      rw [hbelow, wordCells_exstkVa hq (by omega)]
      exact ⟨writable_exstkVa hq (by omega), disjoint_exstkBytes (.inr (Nat.le_refl _))⟩
    · have hhigh := hframed.high
      exact ⟨hwrite, (hdis q hq).mono_right (exstkBytes_subset (Nat.zero_le _) hhigh)⟩
  obtain ⟨m₂, hrun, htouched⟩ := leave_exstk hkeep.separate hq hframed.high hret.noTraps hesp' hw
    hplace.1 hplace.2 (by rw [hret.flags, heflags]; rfl) htf hac
  refine ⟨q, m₂, hq, hrun.trans (congrArg some (congrArg (X86.State.mk · m₂) ?_)), htouched⟩
  ext1
  · funext r
    cases r <;> rfl
  · rfl
  · rfl
  · exact hret.cs.trans hcs
  · exact hret.ss.trans hss
  · exact hret.ds.trans hds
  · exact hret.es.trans hes

/-! ## Nested faults -/

/-- A fault in a handler whose frame is at `f`: the kernel pushes a frame below it, and
the upcall returns after a handler that did what `handler` says. -/
inductive Nested (d : Nat) (handler : Nat → X86.State PMap → X86.State PMap → Prop) (f : Nat)
    (s s' : X86.State PMap) : Prop
  | mk (p : PfEntry) (upcall faultVa : Word) (tf tf' : Trapframe) (m : PMap) (f' : Nat)
      (s₁ s₂ : X86.State PMap)
      (cpu : tfCpu tf = s.cpu)
      (noStep : tf.eflags &&& X86.flTf = 0#32)
      (noAlign : tf.eflags &&& X86.flAc = 0#32)
      (room : exstk + 64#32 ≤ tf.esp)
      (own : tf.esp ≤ exstkVa f)
      (installed : loadWord s.mem d p.pgfaultHandler ≠ none)
      (delivered : deliver d upcall faultVa s.mem tf = some (tf', m))
      (frame : tf'.esp = exstkVa f' ∧ f' < pgsize)
      (called : X86.run (program d) p.enter ⟨tfCpu tf', m⟩ = some s₁)
      (handled : handler f' s₁ s₂)
      (returned : Returned p s₁.cpu s₂.cpu)
      (left : X86.run (program d) pfLeave s₂ = some s')

/-- What happens while a handler with its frame at `f` runs: its own steps and what the
kernel does for it, which leave the exception stack from the frame up as it is, and, in
a handler that is not at depth 0, faults that a handler one level deeper serves. -/
def Move (d : Nat) : Nat → Nat → X86.State PMap → X86.State PMap → Prop
  | 0, f => fun s s' => Keeps d f s.mem s'.mem
  | n + 1, f => fun s s' =>
      Keeps d f s.mem s'.mem ∨ Nested d (fun f => Relation.ReflTransGen (Move d n f)) f s s'

/-- The upcall called with the frame of a fault: the words it pushed are below the
frame. -/
theorem enter_framed {p : PfEntry} {m : PMap} {d q f : Nat} {faultVa : Word} {tf : Trapframe}
    (upcall : Word) (hframed : Framed m d f faultVa tf) (hsep : Separate m d)
    (hq : translate m d userStore exstk = some q) (htf : tf.eflags &&& X86.flTf = 0#32)
    (hac : tf.eflags &&& X86.flAc = 0#32) (hvar : loadWord m d p.pgfaultHandler ≠ none) :
    ∃ c' m', X86.run (program d) p.enter
        ⟨tfCpu { tf with esp := exstkVa f, eip := upcall }, m⟩ = some ⟨c', m'⟩ ∧
      Touched d (exstkBytes q (f - 8) f) m m' ∧ c'.esp = exstkVa (f - 8) ∧
      c'.eflags = tf.eflags ∧ c'.cs = tf.cs ∧ c'.ss = tf.ss ∧ c'.ds = tf.ds ∧ c'.es = tf.es := by
  have hnt : (tfCpu { tf with esp := exstkVa f, eip := upcall }).NoTraps := ⟨htf, .inr hac⟩
  obtain ⟨handler, m', hrun, htouched, _, _⟩ := enter_exstk hsep hq hnt hframed.low
    (Nat.le_trans (Nat.le_add_right f 52) hframed.high) rfl hvar
  exact ⟨_, m', hrun, htouched, X86.Cpu.esp_setReg
    ((tfCpu { tf with esp := exstkVa f, eip := upcall }).setReg .eax handler) _,
    rfl, rfl, rfl, rfl, rfl⟩

section

variable {d n f : Nat} {s s' : X86.State PMap}
  {handler : Nat → X86.State PMap → X86.State PMap → Prop}

/-- A served fault restores the registers and keeps the stack from the frame of the
handler it interrupted, when the handlers that serve it keep theirs. -/
theorem Nested.keeps (h : Nested d handler f s s') (hf : f + 52 ≤ pgsize)
    (hsep : Separate s.mem d) (hpage : ∃ q, translate s.mem d userStore exstk = some q)
    (hhandler : ∀ f s s', f + 52 ≤ pgsize → Separate s.mem d →
      (∃ q, translate s.mem d userStore exstk = some q) → handler f s s' →
        Keeps d f s.mem s'.mem) : s'.cpu = s.cpu ∧ Keeps d f s.mem s'.mem := by
  obtain ⟨p, upcall, faultVa, tf, tf', m, f', s₁, s₂, hcpu, htf, hac, hroom, hown, hvar,
    hdelivered, ⟨hframe, hlt⟩, hcalled, hhandled, hreturned, hleft⟩ := h
  obtain ⟨q, hq⟩ := hpage
  have hpg : pgsize = 4096 := rfl
  have hon : OnExstk tf.esp := by
    have hfva := toNat_exstkVa f (by omega)
    have hexstk : exstk.toNat = 4005556224 := by decide
    have htop : exstkTop.toNat = 4005560319 := by decide
    have hmin : (exstk + 64#32).toNat = 4005556288 := by decide
    unfold OnExstk
    rw [BitVec.le_def] at hroom hown ⊢
    rw [BitVec.le_def]
    omega
  obtain ⟨f₀, m₀, hdeliver, htouched, hframed⟩ := deliver_exstk hsep hq (.inr hroom) upcall faultVa
  rw [hdelivered] at hdeliver
  obtain ⟨rfl, rfl⟩ := Prod.mk.inj (Option.some.inj hdeliver)
  obtain ⟨hat, hbelow⟩ := hframed.nested hon
  have hhigh := hframed.high
  have hsame : f₀ = f' := by
    have hnat := congrArg BitVec.toNat hframe
    rw [toNat_exstkVa _ (by omega), toNat_exstkVa _ (by omega)] at hnat
    omega
  subst hsame
  have hle : f₀ + 56 ≤ f := by
    rw [hat, BitVec.le_def, toNat_exstkVa _ (by omega), toNat_exstkVa _ (by omega)] at hown
    omega
  have hq₀ := htouched.page_eq hq
  obtain ⟨c', m', hrun, htouched', hesp, heflags, hcs, hss, hds, hes⟩ :=
    enter_framed upcall hframed htouched.separate hq₀ htf hac
      (htouched.load_ne_none hvar)
  obtain rfl := Option.some.inj (hcalled.symm.trans hrun)
  have hserved := hhandler f₀ _ s₂ hhigh htouched'.separate ⟨q, htouched'.page_eq hq₀⟩ hhandled
  have hkeep : Keeps d f₀ m s₂.mem :=
    (htouched'.keeps hq₀ (disjoint_exstkBytes (.inr (Nat.le_refl _)))).trans hserved
  obtain ⟨q₂, m₂, hq₂, hrun₂, htouched₂⟩ :=
    leave_framed hframed hkeep hreturned hesp hcs hss hds hes heflags htf hac (.inl hon)
  obtain rfl := Option.some.inj (hleft.symm.trans hrun₂)
  refine ⟨hcpu, (htouched.keeps hq
    (disjoint_exstkBytes (.inr (Nat.le_trans (Nat.min_le_left _ _) hle)))).trans
    ((hkeep.mono (Nat.le_trans (Nat.le_add_right f₀ 56) hle)).trans (htouched₂.keeps hq₂ ?_))⟩
  have hword : tf.esp - 4#32 = exstkVa (f₀ + 52) := by
    rw [hat]
    exact exstkVa_sub (by omega)
  rw [hword, wordCells_exstkVa hq₂ (by omega)]
  exact (disjoint_exstkBytes (.inr (by omega))).union_right (disjoint_exstkBytes (.inr (by omega)))

theorem Keeps.refl {m : PMap} {lo : Nat} (hsep : Separate m d)
    (hpage : ∃ q, translate m d userStore exstk = some q) : Keeps d lo m m :=
  ⟨hsep, hpage, fun _ _ _ => rfl⟩

/-- Whatever is nested in it, a handler keeps its frame and the stack above. -/
theorem keeps_of_moves (hf : f + 52 ≤ pgsize) (hsep : Separate s.mem d)
    (hpage : ∃ q, translate s.mem d userStore exstk = some q)
    (h : Relation.ReflTransGen (Move d n f) s s') : Keeps d f s.mem s'.mem := by
  induction n generalizing f s s' with
  | zero =>
      induction h with
      | refl => exact .refl hsep hpage
      | tail _ hmove ih => exact ih.trans hmove
  | succ n ihn =>
      induction h with
      | refl => exact .refl hsep hpage
      | tail _ hmove ih =>
          rcases hmove with hown | hnested
          · exact ih.trans hown
          · exact ih.trans (hnested.keeps hf ih.separate ih.page
              fun _ _ _ hf hsep hpage hmoves => ihn hf hsep hpage hmoves).2

end

/-- A fault of the program with the registers of `tf` pushes a frame and calls the
handler; and from every run of it that returns, with faults nested in it up to the depth
`n`, the upcall gets back to the fault.  The program's memory changes only on the
exception stack and in the word below the stack pointer. -/
def RoundTrip (p : PfEntry) (d n : Nat) (upcall faultVa : Word) (m : PMap) (tf : Trapframe) :
    Prop :=
  ∃ f q m₁ s₂,
    deliver d upcall faultVa m tf = some ({ tf with esp := exstkVa f, eip := upcall }, m₁) ∧
    X86.run (program d) p.enter ⟨tfCpu { tf with esp := exstkVa f, eip := upcall }, m₁⟩ =
      some s₂ ∧
    translate m d userStore exstk = some q ∧ Framed m₁ d f faultVa tf ∧
    Touched d (exstkBytes q 0 pgsize) m m₁ ∧ Touched d (exstkBytes q 0 pgsize) m₁ s₂.mem ∧
    ∀ s₃, Relation.ReflTransGen (Move d n f) s₂ s₃ → Returned p s₂.cpu s₃.cpu →
      WordBelow s₃.mem d tf.esp →
        ∃ q₃ m₄, translate s₃.mem d userStore exstk = some q₃ ∧
          X86.run (program d) pfLeave s₃ = some ⟨tfCpu tf, m₄⟩ ∧
          Touched d (exstkBytes q₃ 0 pgsize ∪ wordCells s₃.mem d (tf.esp - 4#32)) s₃.mem m₄

theorem roundTrip {p : PfEntry} {m : PMap} {d q : Nat} {tf : Trapframe} (hsep : Separate m d)
    (hq : translate m d userStore exstk = some q) (hroom : Room tf.esp)
    (htf : tf.eflags &&& X86.flTf = 0#32) (hac : tf.eflags &&& X86.flAc = 0#32)
    (hvar : loadWord m d p.pgfaultHandler ≠ none) (n : Nat) (upcall faultVa : Word) :
    RoundTrip p d n upcall faultVa m tf := by
  obtain ⟨f, m₁, hdeliver, htouched, hframed⟩ := deliver_exstk hsep hq hroom upcall faultVa
  have hlow := hframed.low
  have hhigh := hframed.high
  have hq₁ := htouched.page_eq hq
  obtain ⟨c₂, m₂, hrun, htouched', hesp, heflags, hcs, hss, hds, hes⟩ :=
    enter_framed upcall hframed htouched.separate hq₁ htf hac
      (htouched.load_ne_none hvar)
  refine ⟨f, q, m₁, ⟨c₂, m₂⟩, hdeliver, hrun, hq, hframed,
    htouched.mono (exstkBytes_subset (Nat.zero_le f) (Nat.min_le_right _ _)),
    htouched'.mono (exstkBytes_subset (Nat.zero_le _) (by omega)), ?_⟩
  intro s₃ hmoves hreturned hword
  have hkeep : Keeps d f m₁ s₃.mem :=
    (htouched'.keeps hq₁ (disjoint_exstkBytes (.inr (Nat.le_refl f)))).trans
      (keeps_of_moves hhigh htouched'.separate ⟨q, htouched'.page_eq hq₁⟩ hmoves)
  obtain ⟨q₃, m₄, hq₃, hleave, htouched₄⟩ :=
    leave_framed hframed hkeep hreturned hesp hcs hss hds hes heflags htf hac hword
  exact ⟨q₃, m₄, hq₃, hleave, htouched₄.mono
    (Set.union_subset_union_left _ (exstkBytes_subset (Nat.zero_le f) hhigh))⟩

theorem BaseInv.separate {M : Machine} {K : Nat → Prop} {s : KState} {c cur : Nat}
    (h : BaseInv M K s) (hcur : s.curenv c = some cur) : Separate s.pm (s.cpus c).cr3 := by
  obtain ⟨free, hp⟩ := h.pages
  exact hp.separate (h.cpu c cur hcur)

/-- A page fault of an environment that has an upcall and an exception stack: the kernel
starts the upcall, and the upcall gets back to the fault. -/
theorem upcall_restores {M : Machine} {s : KState} {c cur q : Nat} {p : PfEntry}
    (hup : (s.envs cur).envPgfaultUpcall ≠ 0#32)
    (hcheck : userMemCheck M s.pm (s.envs cur).envPgdir exstk 4096#32 (pteU ||| pteW ||| pteU) =
      .ok none)
    (hpage : translate s.pm (s.cpus c).cr3 userStore exstk = some q)
    (hsep : Separate s.pm (s.cpus c).cr3) (hroom : Room (s.envs cur).envTf.esp)
    (htf : (s.envs cur).envTf.eflags &&& X86.flTf = 0#32)
    (hac : (s.envs cur).envTf.eflags &&& X86.flAc = 0#32)
    (hvar : loadWord s.pm (s.cpus c).cr3 p.pgfaultHandler ≠ none) (n : Nat) (faultVa : Word) :
    (∃ tf m, deliver (s.cpus c).cr3 (s.envs cur).envPgfaultUpcall faultVa s.pm
        (s.envs cur).envTf = some (tf, m) ∧
      pageFaultHandler M s c cur faultVa =
        .error (envRun (({ s with pm := m } : KState).setEnv cur fun env =>
          { env with envTf := tf }) c cur)) ∧
      RoundTrip p (s.cpus c).cr3 n (s.envs cur).envPgfaultUpcall faultVa s.pm
        (s.envs cur).envTf := by
  obtain ⟨f, m, hdeliver, _, _⟩ :=
    deliver_exstk hsep hpage hroom (s.envs cur).envPgfaultUpcall faultVa
  exact ⟨⟨_, m, hdeliver, pageFaultHandler_deliver hup hcheck hdeliver⟩,
    roundTrip hsep hpage hroom htf hac hvar n _ faultVa⟩

/-! ## A program with an upcall -/

/-- A trap that destroys nothing and maps nothing it was not given is one the invariants
allow. -/
theorem guard_of_trap {M : Machine} {s : KState} {c cur : Nat} {tf : Trapframe} {inp : Inputs}
    (hcur : s.curenv c = some cur) (hlt : cur + 1 < nenv) (hst : (s.envs cur).envStatus ≠ .dying)
    (hfit : PagesFit (trapState s c cur tf) cur tf.regs)
    (hdestroys : destroys M (trapState s c cur tf) cur tf = none) :
    Fits s (.trap c tf inp) ∧ FreesOwn M s (.trap c tf inp) := by
  refine ⟨fun cur' hcur' => ?_, fun cur' hcur' => ?_⟩
  · obtain rfl := Option.some.inj (hcur.symm.trans hcur')
    exact fun _ => ⟨fun _ => hlt, fun _ => hfit⟩
  · obtain rfl := Option.some.inj (hcur.symm.trans hcur')
    refine ⟨fun hd => absurd hd hst, fun _ e he => ?_⟩
    rw [hdestroys] at he
    cases he

/-- `sys_page_alloc` of the exception stack. -/
def allocExstk : Event := call 0 4#32 0#32 exstk 7#32 0#32 0#32

/-- `sys_env_set_pgfault_upcall` to an address in the stack page. -/
def setUpcall : Event := call 0 9#32 0#32 0xeebfd000#32 0#32 0#32 0#32

/-- An environment on its stack page, with a page for the exception stack and an upcall
in the stack page. -/
structure HasUpcall (s : KState) : Prop where
  curenv : s.curenv 0 = some 0
  upcall : (s.envs 0).envPgfaultUpcall ≠ 0#32
  check : userMemCheck (pc .roundRobin) s.pm (s.envs 0).envPgdir exstk 4096#32
    (pteU ||| pteW ||| pteU) = .ok none
  page : translate s.pm (s.cpus 0).cr3 userStore exstk = some 0x7FFC
  guard : translate s.pm (s.cpus 0).cr3 userStore (exstk - 4#32) = none
  installed : loadWord s.pm (s.cpus 0).cr3 0xeebfd000#32 ≠ none
  stack : Writable s.pm (s.cpus 0).cr3 (ustacktop - 4#32)
  esp : (s.envs 0).envTf.esp = ustacktop
  eflags : (s.envs 0).envTf.eflags = flIf

/-- A step of the environment on CPU 0 with which it destroys nothing. -/
def harmless (s : KState) : Event → Bool
  | .trap c tf _ => c = 0 ∧ s.curenv 0 = some 0 ∧ (s.envs 0).envStatus = .running ∧
      destroys (pc .roundRobin) (trapState s 0 0 tf) 0 tf = none
  | _ => false

theorem guard_of_harmless {s : KState} {no a1 a2 a3 a4 a5 : Word}
    (h : harmless s (call 0 no a1 a2 a3 a4 a5) = true)
    (hfit : ∀ s, PagesFit s 0 ⟨a4, a5, 0#32, 0#32, a3, a1, a2, no⟩) :
    Fits s (call 0 no a1 a2 a3 a4 a5) ∧ FreesOwn (pc .roundRobin) s (call 0 no a1 a2 a3 a4 a5) := by
  unfold harmless call at h
  rw [decide_eq_true_eq] at h
  obtain ⟨_, hcur, hst, hnone⟩ := h
  exact guard_of_trap hcur (by decide) (by rw [hst]; decide) (hfit _) hnone

theorem upcall_pc : ∃ s, (kernel (pc .roundRobin) lowPages).Reach
    (fun s ev => Fits s ev ∧ FreesOwn (pc .roundRobin) s ev) s ∧ HasUpcall s := by
  have hrun : (run (pc .roundRobin) [.create emptyImage, .start 0] pcBoot).any (fun s =>
      harmless s allocExstk && (exec (pc .roundRobin) s allocExstk).any fun s =>
        harmless s setUpcall && (exec (pc .roundRobin) s setUpcall).any fun s =>
          s.curenv 0 = some 0 ∧ (s.envs 0).envPgfaultUpcall ≠ 0#32 ∧
            userMemCheck (pc .roundRobin) s.pm (s.envs 0).envPgdir exstk 4096#32
              (pteU ||| pteW ||| pteU) = .ok none ∧
            translate s.pm (s.cpus 0).cr3 userStore exstk = some 0x7FFC ∧
            translate s.pm (s.cpus 0).cr3 userStore (exstk - 4#32) = none ∧
            loadWord s.pm (s.cpus 0).cr3 0xeebfd000#32 ≠ none ∧
            Writable s.pm (s.cpus 0).cr3 (ustacktop - 4#32) ∧
            (s.envs 0).envTf.esp = ustacktop ∧ (s.envs 0).envTf.eflags = flIf) = true := by
    decide +kernel
  obtain ⟨s, hreach, hs⟩ := exists_reach (pcBoot_booted .roundRobin) fits_created hrun
  rw [Bool.and_eq_true, Option.any_eq_true] at hs
  obtain ⟨hharmless, s₁, hexec, hs₁⟩ := hs
  rw [Bool.and_eq_true, Option.any_eq_true] at hs₁
  obtain ⟨hharmless₁, s₂, hexec₁, hs₂⟩ := hs₁
  rw [decide_eq_true_eq] at hs₂
  obtain ⟨hcur, hup, hcheck, hpage, hlow, hvar, hstack, hesp, heflags⟩ := hs₂
  refine ⟨s₂, ?_, hcur, hup, hcheck, hpage, hlow, hvar, hstack, hesp, heflags⟩
  exact reach_exec setUpcall
    (reach_exec allocExstk hreach (guard_of_harmless hharmless fun _ => trivial) hexec)
    (guard_of_harmless hharmless₁ fun _ => trivial) hexec₁

/-- A program linked with its variables in the stack page. -/
def pcPfEntry : PfEntry := ⟨0xeebfd000#32, 0x800100#32⟩

theorem upcall_restores_pc : ∃ s, HasUpcall s ∧
    (∃ tf m, deliver (s.cpus 0).cr3 (s.envs 0).envPgfaultUpcall 0x400000#32 s.pm
        (s.envs 0).envTf = some (tf, m) ∧
      pageFaultHandler (pc .roundRobin) s 0 0 0x400000#32 =
        .error (envRun (({ s with pm := m } : KState).setEnv 0 fun env =>
          { env with envTf := tf }) 0 0)) ∧
      RoundTrip pcPfEntry (s.cpus 0).cr3 3 (s.envs 0).envPgfaultUpcall 0x400000#32 s.pm
        (s.envs 0).envTf := by
  obtain ⟨s, hreach, h⟩ := upcall_pc
  have hroom : Room (s.envs 0).envTf.esp := by
    rw [h.esp]
    decide
  have htf : (s.envs 0).envTf.eflags &&& X86.flTf = 0#32 := by
    rw [h.eflags]
    decide
  have hac : (s.envs 0).envTf.eflags &&& X86.flAc = 0#32 := by
    rw [h.eflags]
    decide
  have hvar : loadWord s.pm (s.cpus 0).cr3 pcPfEntry.pgfaultHandler ≠ none := h.installed
  exact ⟨s, h, upcall_restores (p := pcPfEntry) h.upcall h.check h.page
    ((base_reach hreach).separate h.curenv) hroom htf hac hvar 3 0x400000#32⟩

section

variable {p : PfEntry} {d n : Nat} {upcall faultVa : Word} {m : PMap} {tf : Trapframe}

/-- An upcall whose first instruction stops does not get back. -/
theorem not_roundTrip (h : ∀ f m₁, utfAddr tf.esp = exstkVa f →
    (∀ va, va < utop → translate m₁ d userStore va = translate m d userStore va) →
      X86.exec (program d) (.pushl .esp)
        ⟨tfCpu { tf with esp := exstkVa f, eip := upcall }, m₁⟩ = none) :
    ¬ RoundTrip p d n upcall faultVa m tf := by
  rintro ⟨f, q, m₁, s₂, _, henter, _, hframed, htouched, _, _⟩
  have hstop := h f m₁ hframed.addr fun va hva => htouched.translate_eq _ va (by decide) hva
  unfold PfEntry.enter at henter
  rw [X86.run_cons, hstop] at henter
  cases henter

theorem storeWord_none {va w : Word} (h : translate m d userStore va = none) :
    storeWord m d va w = none := by
  unfold storeWord
  split
  · unfold wordBytes storeBytes storeByte
    rw [h]
    rfl
  · rfl

end

/-- Three page faults from which the upcall does not return: with room for the frame but
not for the call of the handler, while single-stepping, and with alignment checks, for
which the frame is misaligned. -/
theorem upcall_stops : ∃ s, HasUpcall s ∧ Separate s.pm (s.cpus 0).cr3 ∧
    ¬ RoundTrip pcPfEntry (s.cpus 0).cr3 0 0xeebfd000#32 0x400000#32 s.pm
      { initTf with esp := exstk + 56#32 } ∧
    ¬ RoundTrip pcPfEntry (s.cpus 0).cr3 0 0xeebfd000#32 0x400000#32 s.pm
      { initTf with eflags := X86.flTf } ∧
    ¬ RoundTrip pcPfEntry (s.cpus 0).cr3 0 0xeebfd000#32 0x400000#32 s.pm
      { initTf with eflags := X86.flAc } := by
  obtain ⟨s, hreach, h⟩ := upcall_pc
  refine ⟨s, h, (base_reach hreach).separate h.curenv, ?_, ?_, ?_⟩
  · refine not_roundTrip fun f m₁ hf hsame => ?_
    have hbottom : exstkVa f = exstk := hf.symm.trans (by decide)
    have hpush : X86.push (program (s.cpus 0).cr3)
        ⟨tfCpu { initTf with esp := exstk, eip := 0xeebfd000#32 }, m₁⟩ exstk = none :=
      X86.push_none (.inr (storeWord_none ((hsame (exstk - 4#32) (by decide)).trans h.guard)))
    rw [hbottom]
    exact (if_neg (not_not.mpr (show flIf &&& X86.flTf = 0#32 by decide))).trans hpush
  · refine not_roundTrip fun f m₁ _ _ => if_pos ?_
    show X86.flTf &&& X86.flTf ≠ 0#32
    decide
  · refine not_roundTrip fun f m₁ hf _ => ?_
    have htop : exstkVa f = exstkTop - 52#32 := hf.symm.trans (by decide)
    have hmis : (tfCpu { initTf with
        eflags := X86.flAc, esp := exstkTop - 52#32, eip := 0xeebfd000#32 }).misaligned
          (exstkTop - 52#32 - 4#32) := by decide
    rw [htop]
    exact (if_neg (not_not.mpr (show X86.flAc &&& X86.flTf = 0#32 by decide))).trans
      (X86.push_none (.inl hmis))

end Jos
end Sisop

import Mathlib.Data.Set.BooleanAlgebra
import Mathlib.Order.CompletePartialOrder
import Sisop.Lib.X86
import Sisop.Jos.EnvSpec

/-!
# A program's memory

The memory below `UTOP` as a program and the kernel's pushes on its stack reach it
through the page directory, one physical byte at a time.  `userPlatform` is that
memory for the program's own instructions.

A program that could write its page directory or a page table would move its memory
with a store.  `Separate` excludes it, and holds where page tables are not mapped.
-/

namespace Sisop
namespace Jos

/-- The physical byte a program's store to `va` changes. -/
def cell (m : PMap) (d : Nat) (va : Word) : Option (Nat × Nat) :=
  if va < utop then (translate m d userStore va).map fun page => (page, va.toNat % pgsize)
  else none

def loadByte (m : PMap) (d : Nat) (va : Word) : Option (BitVec 8) :=
  if va < utop then (translate m d userLoad va).map fun page => m.byte page (va.toNat % pgsize)
  else none

def loadWord (m : PMap) (d : Nat) (va : Word) : Option Word :=
  if ∀ k, k < 4 → loadByte m d (va + BitVec.ofNat 32 k) ≠ none then
    some (X86.ofBytes fun k => (loadByte m d (va + BitVec.ofNat 32 k)).getD 0#8)
  else none

def storeWord (m : PMap) (d : Nat) (va w : Word) : Option PMap :=
  if va.toNat + 4 ≤ utop.toNat then storeBytes m d userStore va (wordBytes w) else none

/-- The memory of the environment with page directory `d`. -/
def userPlatform (d : Nat) (loadable : Nat → X86.Selector → Bool) : X86.Platform PMap where
  load m a := loadWord m d a
  store m a w := storeWord m d a w
  loadable := loadable

/-- No page the program can write is its page directory or one of its page tables. -/
def Separate (m : PMap) (d : Nat) : Prop :=
  ∀ va q, va < utop → translate m d userStore va = some q →
    q ≠ d ∧ ∀ i, i < pdxUtop → m.mem d i &&& pteP = pteP → q ≠ pgnum (m.mem d i)

section

variable {M : Machine} {K : Nat → Prop} {m m' : PMap} {dirs : Nat → Option Nat}
  {free : List Nat} {held : Nat → Nat} {e d q : Nat} {va : Word}

theorem PageInv.separate (h : PageInv M K m dirs free held) (hd : dirs e = some d) :
    Separate m d := by
  intro va q hva ht
  have hi := (pdx_lt_pdxUtop_iff va).mpr hva
  have hdata := h.data_of_pte (h.translate_target hd hi (by decide) (by decide) ht)
  refine ⟨?_, fun i hi hp => ?_⟩
  · rintro rfl
    exact hdata.2 (.dir e) hd
  · rintro rfl
    refine hdata.2 (.pde e i) ?_
    show entry (pdeWord m dirs e i) = _
    rw [pdeWord_of_dir hd hi]
    refine entry_of_ne fun hz => ?_
    rw [hz, BitVec.zero_and] at hp
    exact absurd hp (by decide)

/-! ## Translation -/

/-- A walk finds the same page for every byte of a virtual page. -/
theorem translate_page {need va' : Word} (h : va'.toNat / pgsize = va.toNat / pgsize) :
    translate m d need va' = translate m d need va := by
  have hdir : pdx va' = pdx va := by
    rw [pdx_eq, pdx_eq]
    unfold pgsize at h
    omega
  have htable : ptx va' = ptx va := by
    rw [ptx_eq, ptx_eq]
    unfold pgsize at h
    omega
  unfold translate
  rw [hdir, htable]

theorem and_of_and {w need need' : Word} (hw : w &&& need = need) (h : need &&& need' = need') :
    w &&& need' = need' := by
  rw [← h, ← BitVec.and_assoc, hw]

theorem translate_weaken {need need' : Word} (h : need &&& need' = need')
    (ht : translate m d need va = some q) : translate m d need' va = some q := by
  unfold translate at ht ⊢
  dsimp only at ht ⊢
  split at ht
  · rename_i hpde
    split at ht
    · rename_i hpte
      rw [if_pos (and_of_and hpde h), if_pos (and_of_and hpte h)]
      exact ht
    · cases ht
  · cases ht

/-- Changing a page that is neither the directory nor a table moves nothing. -/
theorem translate_frame (hsep : q ≠ d ∧
      ∀ i, i < pdxUtop → m.mem d i &&& pteP = pteP → q ≠ pgnum (m.mem d i))
    (hmem : ∀ p, p ≠ q → m'.mem p = m.mem p) {need : Word} (hneed : need &&& pteP = pteP)
    (hva : va < utop) : translate m' d need va = translate m d need va := by
  have hdir := hmem d fun h => hsep.1 h.symm
  unfold translate
  rw [hdir]
  dsimp only
  by_cases hpde : m.mem d (pdx va) &&& need = need
  · have htable := hsep.2 _ ((pdx_lt_pdxUtop_iff va).mpr hva) (and_of_and hpde hneed)
    rw [if_pos hpde, if_pos hpde, hmem _ fun h => htable h.symm]
  · rw [if_neg hpde, if_neg hpde]

end

/-! ## Bytes -/

theorem getLsbD_ff (j : Nat) : (0xFF#32 : Word).getLsbD j = decide (j < 8) := by
  by_cases h : j < 32
  · revert j
    decide
  · rw [BitVec.getLsbD_of_ge _ _ (Nat.le_of_not_lt h)]
    simp only [Bool.false_eq, decide_eq_false_iff_not, Nat.not_lt]
    omega

theorem getLsbD_setByte {w : Word} {b : BitVec 8} {k j : Nat} (hj : j < 32) :
    (setByte w k b).getLsbD j = if j / 8 = k then b.getLsbD (j % 8) else w.getLsbD j := by
  unfold setByte
  simp only [BitVec.getLsbD_or, BitVec.getLsbD_and, BitVec.getLsbD_not, BitVec.getLsbD_shiftLeft,
    getLsbD_ff, BitVec.zeroExtend_eq_setWidth, BitVec.getLsbD_setWidth, hj, decide_true,
    Bool.true_and]
  split
  · rename_i h
    have hnot : ¬ j < 8 * k := by omega
    have hsub : j - 8 * k = j % 8 := by omega
    have hlow : j % 8 < 8 := by omega
    have hwide : j % 8 < 32 := by omega
    simp [hnot, hsub, hlow, hwide]
  · rename_i h
    by_cases hlt : j < 8 * k
    · simp [hlt]
    · have hnot : ¬ j - 8 * k < 8 := by omega
      rw [BitVec.getLsbD_of_ge b _ (by omega)]
      simp [hnot]

theorem getByte_setByte {w : Word} {b : BitVec 8} {k k' : Nat} (hk' : k' < 4) :
    getByte (setByte w k b) k' = if k' = k then b else getByte w k' := by
  refine BitVec.eq_of_getLsbD_eq fun i hi => ?_
  have hdiv : (8 * k' + i) / 8 = k' := by omega
  have hmod : (8 * k' + i) % 8 = i := by omega
  unfold getByte
  rw [BitVec.truncate_eq_setWidth, BitVec.getLsbD_setWidth, BitVec.getLsbD_ushiftRight,
    getLsbD_setByte (by omega), hdiv, hmod]
  split
  · simp [hi]
  · simp [hi]

theorem byte_writeByte {m : PMap} {page off page' off' : Nat} {b : BitVec 8} :
    (m.writeByte page off b).byte page' off' =
      if page' = page ∧ off' = off then b else m.byte page' off' := by
  unfold PMap.byte PMap.writeByte
  by_cases hpage : page' = page
  · subst hpage
    by_cases hindex : off' / 4 = off / 4
    · rw [hindex, mem_write_self, getByte_setByte (Nat.mod_lt _ (by decide))]
      by_cases hoff : off' = off
      · rw [if_pos (by rw [hoff]), if_pos ⟨rfl, hoff⟩]
      · rw [if_neg (by omega), if_neg fun h => hoff h.2]
    · rw [mem_write_of_index_ne hindex, if_neg fun h => hindex (by rw [h.2])]
  · rw [mem_write_of_page_ne hpage, if_neg fun h => hpage h.1]

/-! ## Stores -/

/-- What stores change when they write the bytes of `S`: nothing else, and neither the
directory nor a translation. -/
structure Touched (d : Nat) (S : Set (Nat × Nat)) (m m' : PMap) : Prop where
  dir : m'.mem d = m.mem d
  translate_eq : ∀ need va, need &&& pteP = pteP → va < utop →
    translate m' d need va = translate m d need va
  byte : ∀ page off, (page, off) ∉ S → m'.byte page off = m.byte page off
  separate : Separate m' d
  pages : m'.ppRef = m.ppRef ∧ m'.ppLink = m.ppLink ∧ m'.pageFreeList = m.pageFreeList

section

variable {m m' m'' : PMap} {d q : Nat} {S S' : Set (Nat × Nat)} {va need : Word}

theorem Touched.refl (h : Separate m d) : Touched d S m m :=
  ⟨rfl, fun _ _ _ _ => rfl, fun _ _ _ => rfl, h, rfl, rfl, rfl⟩

theorem Touched.mono (h : Touched d S m m') (hS : S ⊆ S') : Touched d S' m m' :=
  ⟨h.dir, h.translate_eq, fun page off hoff => h.byte page off fun hin => hoff (hS hin), h.separate,
    h.pages⟩

theorem Touched.trans (h : Touched d S m m') (h' : Touched d S m' m'') : Touched d S m m'' :=
  ⟨h'.dir.trans h.dir,
    fun need va hneed hva =>
      (h'.translate_eq need va hneed hva).trans (h.translate_eq need va hneed hva),
    fun page off hoff => (h'.byte page off hoff).trans (h.byte page off hoff), h'.separate,
    h'.pages.1.trans h.pages.1, h'.pages.2.1.trans h.pages.2.1, h'.pages.2.2.trans h.pages.2.2⟩

theorem Touched.cell_eq (h : Touched d S m m') (va : Word) : cell m' d va = cell m d va := by
  unfold Jos.cell
  by_cases hva : va < utop
  · rw [if_pos hva, if_pos hva, h.translate_eq _ va (by decide) hva]
  · rw [if_neg hva, if_neg hva]

theorem cell_eq_some {x : Nat × Nat} :
    cell m d va = some x ↔
      va < utop ∧ translate m d userStore va = some x.1 ∧ va.toNat % pgsize = x.2 := by
  unfold cell
  by_cases hva : va < utop
  · rw [if_pos hva, Option.map_eq_some_iff]
    constructor
    · rintro ⟨page, ht, rfl⟩
      exact ⟨hva, ht, rfl⟩
    · rintro ⟨_, ht, hoff⟩
      exact ⟨x.1, ht, by rw [hoff]⟩
  · rw [if_neg hva]
    exact iff_of_false (fun h => by cases h) fun h => hva h.1

/-- A store to a byte the program can write, by the program or by the kernel for it. -/
theorem storeByte_touched (hsep : Separate m d) {x : Nat × Nat} (hx : cell m d va = some x)
    (hneed : userStore &&& need = need) (b : BitVec 8) :
    ∃ m', storeByte m d need va b = some m' ∧ Touched d {x} m m' ∧ m'.byte x.1 x.2 = b := by
  obtain ⟨hva, ht, hoff⟩ := cell_eq_some.mp hx
  have hx' := hsep va x.1 hva ht
  have hmem : ∀ p, p ≠ x.1 → (m.writeByte x.1 x.2 b).mem p = m.mem p :=
    fun p hp => mem_write_of_page_ne hp
  have hdir := hmem d fun h => hx'.1 h.symm
  have htrans : ∀ need va, need &&& pteP = pteP → va < utop →
      translate (m.writeByte x.1 x.2 b) d need va = translate m d need va :=
    fun need va hneed hva => translate_frame hx' hmem hneed hva
  refine ⟨m.writeByte x.1 x.2 b, ?_, ⟨hdir, htrans, fun page off hne => ?_, fun va' q hva' hq => ?_,
    rfl, rfl, rfl⟩, ?_⟩
  · unfold storeByte
    rw [translate_weaken hneed ht, hoff]
    rfl
  · rw [byte_writeByte, if_neg fun h => hne (Prod.ext h.1 h.2)]
  · rw [htrans _ _ (by decide) hva'] at hq
    rw [hdir]
    exact hsep va' q hva' hq
  · rw [byte_writeByte, if_pos ⟨rfl, rfl⟩]

theorem add_ofNat_succ (va : Word) (k : Nat) :
    va + BitVec.ofNat 32 (k + 1) = va + 1#32 + BitVec.ofNat 32 k := by
  refine BitVec.eq_of_toNat_eq ?_
  simp only [BitVec.toNat_add, BitVec.toNat_ofNat]
  omega

/-- The bytes of a run no longer than a page are different ones. -/
theorem cell_offset_ne {x : Nat → Nat × Nat} {j k n : Nat} (hn : n ≤ pgsize) (hj : j < n)
    (hk : k < n) (hne : j ≠ k) (hxj : cell m d (va + BitVec.ofNat 32 j) = some (x j))
    (hxk : cell m d (va + BitVec.ofNat 32 k) = some (x k)) : x j ≠ x k := by
  intro heq
  have hoffj := (cell_eq_some.mp hxj).2.2
  have hoffk := (cell_eq_some.mp hxk).2.2
  have hva := va.isLt
  rw [← heq, ← hoffj] at hoffk
  simp only [pgsize, BitVec.toNat_add, BitVec.toNat_ofNat] at hn hoffk
  omega

/-- A run of stores to bytes the program can write, all different. -/
theorem storeBytes_cells (bs : List (BitVec 8)) (hsep : Separate m d) {x : Nat → Nat × Nat}
    (hx : ∀ k, k < bs.length → cell m d (va + BitVec.ofNat 32 k) = some (x k))
    (hinj : ∀ j k, j < bs.length → k < bs.length → x j = x k → j = k)
    (hneed : userStore &&& need = need) :
    ∃ m', storeBytes m d need va bs = some m' ∧
      Touched d {y | ∃ k, k < bs.length ∧ x k = y} m m' ∧
      ∀ k (hk : k < bs.length), m'.byte (x k).1 (x k).2 = bs[k] := by
  induction bs generalizing m va x with
  | nil => exact ⟨m, rfl, .refl hsep, fun k hk => absurd hk (Nat.not_lt_zero k)⟩
  | cons b bs ih =>
      have hzero : cell m d va = some (x 0) := by
        have hx₀ := hx 0 (Nat.succ_pos _)
        rwa [show va + BitVec.ofNat 32 0 = va from BitVec.add_zero va] at hx₀
      obtain ⟨m₁, hstore, htouched, hb⟩ := storeByte_touched hsep hzero hneed b
      have hx₁ : ∀ k, k < bs.length →
          cell m₁ d (va + 1#32 + BitVec.ofNat 32 k) = some (x (k + 1)) := fun k hk => by
        rw [htouched.cell_eq, ← add_ofNat_succ]
        exact hx (k + 1) (Nat.succ_lt_succ hk)
      have hinj₁ : ∀ j k, j < bs.length → k < bs.length → x (j + 1) = x (k + 1) → j = k :=
        fun j k hj hk heq => Nat.succ_inj.mp
          (hinj _ _ (Nat.succ_lt_succ hj) (Nat.succ_lt_succ hk) heq)
      obtain ⟨m', hrest, htouched', hbs⟩ :=
        ih htouched.separate (x := fun k => x (k + 1)) hx₁ hinj₁
      refine ⟨m', ?_, (htouched.mono ?_).trans (htouched'.mono ?_), fun k hk => ?_⟩
      · unfold storeBytes
        rw [hstore]
        exact hrest
      · rintro y rfl
        exact ⟨0, Nat.succ_pos _, rfl⟩
      · rintro y ⟨k, hk, rfl⟩
        exact ⟨k + 1, Nat.succ_lt_succ hk, rfl⟩
      · cases k with
        | zero =>
            rw [htouched'.byte, hb]
            · rfl
            · rintro ⟨k, hk, heq⟩
              exact Nat.succ_ne_zero k (hinj _ _ (Nat.succ_lt_succ hk) (Nat.succ_pos _) heq)
        | succ k => exact hbs k (Nat.lt_of_succ_lt_succ hk)

theorem storeBytes_touched (bs : List (BitVec 8)) (hsep : Separate m d) {x : Nat → Nat × Nat}
    (hx : ∀ k, k < bs.length → cell m d (va + BitVec.ofNat 32 k) = some (x k))
    (hlen : bs.length ≤ pgsize) (hneed : userStore &&& need = need) :
    ∃ m', storeBytes m d need va bs = some m' ∧
      Touched d {y | ∃ k, k < bs.length ∧ x k = y} m m' ∧
      ∀ k (hk : k < bs.length), m'.byte (x k).1 (x k).2 = bs[k] := by
  refine storeBytes_cells bs hsep hx (fun j k hj hk heq => ?_) hneed
  by_contra hne
  exact cell_offset_ne hlen hj hk hne (hx j hj) (hx k hk) heq

/-! ## Loads -/

/-- A byte the program can write it can read. -/
theorem loadByte_of_cell {x : Nat × Nat} (hx : cell m d va = some x) :
    loadByte m d va = some (m.byte x.1 x.2) := by
  obtain ⟨hva, ht, hoff⟩ := cell_eq_some.mp hx
  unfold loadByte
  rw [if_pos hva, translate_weaken (by decide) ht, hoff]
  rfl

theorem loadWord_of_cells {x : Nat → Nat × Nat}
    (hx : ∀ k, k < 4 → cell m d (va + BitVec.ofNat 32 k) = some (x k)) :
    loadWord m d va = some (X86.ofBytes fun k => m.byte (x k).1 (x k).2) := by
  have hload : ∀ k, k < 4 → loadByte m d (va + BitVec.ofNat 32 k) =
      some (m.byte (x k).1 (x k).2) := fun k hk => loadByte_of_cell (hx k hk)
  unfold loadWord
  rw [if_pos fun k hk => by rw [hload k hk]; exact Option.some_ne_none _]
  refine congrArg some (X86.ofBytes_congr fun k hk => ?_)
  rw [hload k hk]
  rfl

/-! ## Words -/

/-- The bytes of a word the program can write. -/
def wordCells (m : PMap) (d : Nat) (va : Word) : Set (Nat × Nat) :=
  {x | ∃ k, k < 4 ∧ cell m d (va + BitVec.ofNat 32 k) = some x}

def Writable (m : PMap) (d : Nat) (va : Word) : Prop :=
  ∀ k, k < 4 → cell m d (va + BitVec.ofNat 32 k) ≠ none

instance (m : PMap) (d : Nat) (va : Word) : Decidable (Writable m d va) :=
  inferInstanceAs (Decidable (∀ k, k < 4 → _))

theorem Writable.cells (h : Writable m d va) :
    ∃ x : Nat → Nat × Nat, ∀ k, k < 4 → cell m d (va + BitVec.ofNat 32 k) = some (x k) :=
  ⟨fun k => (cell m d (va + BitVec.ofNat 32 k)).getD (0, 0), fun k hk => by
    obtain ⟨x, hx⟩ := Option.ne_none_iff_exists'.mp (h k hk)
    dsimp only
    rw [hx]
    rfl⟩

theorem Touched.wordCells_eq (h : Touched d S m m') (va : Word) :
    wordCells m' d va = wordCells m d va := by
  unfold Jos.wordCells
  simp only [h.cell_eq]

theorem Touched.writable (h : Touched d S m m') (va : Word) :
    Writable m' d va ↔ Writable m d va := by
  unfold Writable
  simp only [h.cell_eq]

theorem Writable.load (h : Writable m d va) : ∃ w, loadWord m d va = some w := by
  obtain ⟨x, hx⟩ := h.cells
  exact ⟨_, loadWord_of_cells hx⟩

theorem Writable.store (h : Writable m d va) (hsep : Separate m d) (w : Word) :
    ∃ m', storeWord m d va w = some m' ∧ Touched d (wordCells m d va) m m' ∧
      loadWord m' d va = some w := by
  obtain ⟨x, hx⟩ := h.cells
  have hbound : va.toNat + 4 ≤ utop.toNat := by
    have hfirst := (cell_eq_some.mp (hx 0 (by decide))).1
    have hlast := (cell_eq_some.mp (hx 3 (by decide))).1
    rw [BitVec.lt_def] at hfirst hlast
    rw [show va + BitVec.ofNat 32 0 = va from BitVec.add_zero va] at hfirst
    simp only [BitVec.toNat_add, BitVec.toNat_ofNat] at hlast
    have hutop : utop.toNat = 4005560320 := rfl
    omega
  obtain ⟨m', hstore, htouched, hread⟩ :=
    storeBytes_touched (wordBytes w) hsep hx (show 4 ≤ pgsize by decide)
      (show userStore &&& userStore = userStore by decide)
  refine ⟨m', (if_pos hbound).trans hstore, htouched.mono ?_, ?_⟩
  · rintro y ⟨k, hk, rfl⟩
    exact ⟨k, hk, hx k hk⟩
  · have hx' : ∀ k, k < 4 → cell m' d (va + BitVec.ofNat 32 k) = some (x k) := fun k hk => by
      rw [htouched.cell_eq]
      exact hx k hk
    rw [loadWord_of_cells hx']
    refine congrArg some ((X86.ofBytes_congr fun k hk => ?_).trans (X86.ofBytes_byte w))
    rw [hread k hk]
    match k, hk with
    | 0, _ => rfl
    | 1, _ => rfl
    | 2, _ => rfl
    | 3, _ => rfl

/-- A word none of whose bytes is written reads the same. -/
theorem Touched.loadWord_eq (h : Touched d S m m') (hw : Writable m d va)
    (hdis : Disjoint (Jos.wordCells m d va) S) : loadWord m' d va = loadWord m d va := by
  obtain ⟨x, hx⟩ := hw.cells
  have hx' : ∀ k, k < 4 → Jos.cell m' d (va + BitVec.ofNat 32 k) = some (x k) := fun k hk => by
    rw [h.cell_eq]
    exact hx k hk
  rw [loadWord_of_cells hx, loadWord_of_cells hx']
  refine congrArg some (X86.ofBytes_congr fun k hk => h.byte _ _ fun hin => ?_)
  exact Set.disjoint_left.mp hdis ⟨k, hk, hx k hk⟩ hin

/-- Stores leave what can be read readable. -/
theorem Touched.load_ne_none (h : Touched d S m m') (hl : loadWord m d va ≠ none) :
    loadWord m' d va ≠ none := by
  have hsame : ∀ a, loadByte m d a ≠ none → loadByte m' d a ≠ none := by
    intro a ha
    unfold loadByte at ha ⊢
    by_cases hlt : a < utop
    · rw [if_pos hlt] at ha ⊢
      rw [h.translate_eq _ a (by decide) hlt]
      rw [Ne, Option.map_eq_none_iff] at ha ⊢
      exact ha
    · rw [if_neg hlt] at ha
      exact absurd rfl ha
  unfold loadWord at hl ⊢
  by_cases hall : ∀ k, k < 4 → loadByte m d (va + BitVec.ofNat 32 k) ≠ none
  · rw [if_pos fun k hk => hsame _ (hall k hk)]
    exact Option.some_ne_none _
  · rw [if_neg hall] at hl
    exact absurd rfl hl

/-- Disjoint words the program can write are slots for its code. -/
theorem user_slots {A : List Word} (loadable : Nat → X86.Selector → Bool)
    (hwrite : ∀ a ∈ A, Writable m d a)
    (hdis : ∀ a ∈ A, ∀ b ∈ A, b ≠ a → Disjoint (wordCells m d b) (wordCells m d a)) :
    X86.WordSlots (userPlatform d loadable)
      (Touched d {x | ∃ a ∈ A, x ∈ wordCells m d a} m) A where
  load := by
    intro m' a htouched ha
    exact ((htouched.writable a).mpr (hwrite a ha)).load
  store := by
    intro m' a w htouched ha
    obtain ⟨m'', hstore, htouched', hread⟩ :=
      ((htouched.writable a).mpr (hwrite a ha)).store htouched.separate w
    rw [htouched.wordCells_eq] at htouched'
    refine ⟨m'', hstore, htouched.trans (htouched'.mono fun x hx => ⟨a, ha, hx⟩), hread,
      fun b hb hne => ?_⟩
    refine htouched'.loadWord_eq ((htouched.writable b).mpr (hwrite b hb)) ?_
    rw [htouched.wordCells_eq]
    exact hdis a ha b hb hne

end

end Jos
end Sisop

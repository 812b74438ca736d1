import Sisop.Lib.LinkChain
import Sisop.Lib.Window
import Sisop.Jos.PageMap

/-!
# Static mappings

`boot_map_region` maps a range above `UTOP` in a page directory of the kernel.  A build
with `TP1_PSE` first maps large pages of 4 MB, as long as the virtual address, the physical
one and the size left allow it, and hands the rest to the loop over pages.

Both builds paint the same translations onto the range.  The exception are the addresses
whose directory entry refers to the directory itself: behind them are the entries, and those
do differ.
-/

namespace Sisop
namespace Jos

open Window

def lpgsize : Nat := 4194304

/-- `LPG_OFF`: the offset in a large page. -/
def lpgOff (la : Word) : Word := la &&& 0x3fffff#32

/-- The loop over large pages, which goes on for fewer than 1024 turns. -/
def bootMapLarge (dir : Nat) (perm : Word) :
    Nat → PMap → Word → Word → Word → PMap × Word × Word × Word
  | 0, m, va, size, pa => (m, va, size, pa)
  | n + 1, m, va, size, pa =>
      if lpgOff va = 0#32 ∧ BitVec.ofNat 32 lpgsize ≤ size ∧ lpgOff pa = 0#32 then
        bootMapLarge dir perm n (m.write ⟨dir, pdx va⟩ (pa ||| perm ||| pteP ||| ptePs))
          (va + BitVec.ofNat 32 lpgsize) (size - BitVec.ofNat 32 lpgsize)
          (pa + BitVec.ofNat 32 lpgsize)
      else (m, va, size, pa)

/-- The loop over pages, `n` turns from the `k`-th page on.  Without memory for a page
table the store goes through a null pointer. -/
def bootMapPages (M : Machine) (dir : Nat) (va pa perm : Word) :
    Nat → Nat → PMap → Except String PMap
  | 0, _, m => .ok m
  | n + 1, k, m => do
      let i := BitVec.ofNat 32 (k * pgsize)
      let (pte, m) ← pgdirWalk M m (some dir) (va + i) true
      let m ← pageRemove M m (some dir) (va + i)
      match pte with
      | none => .error "page fault in kernel mode"
      | some pte =>
        bootMapPages M dir va pa perm n (k + 1) (m.write pte ((pa + i) ||| perm ||| pteP))

/-- `boot_map_region` of a size that is a multiple of `PGSIZE`; `pse` says whether the
build has `TP1_PSE`. -/
def bootMapRegion (M : Machine) (pse : Bool) (m : PMap) (dir : Nat) (va size pa perm : Word) :
    Except String PMap :=
  let (m, va, size, pa) :=
    if pse then bootMapLarge dir perm 1024 m va size pa else (m, va, size, pa)
  bootMapPages M dir va pa perm (size.toNat / pgsize) 0 m

/-! ## What the hardware makes of a directory -/

/-- The translation of an address: the physical address, and what directory and table allow
together. -/
structure Leaf where
  pa : Nat
  writable : Bool
  user : Bool
  pwt : Bool
  pcd : Bool
  deriving DecidableEq, Repr

/-- The leaf of an entry, with the permissions of `perm`. -/
def Leaf.of (pa : Nat) (perm entry : Word) : Leaf :=
  { pa := pa
    writable := perm &&& pteW ≠ 0#32
    user := perm &&& pteU ≠ 0#32
    pwt := entry &&& ptePwt ≠ 0#32
    pcd := entry &&& ptePcd ≠ 0#32 }

/-- The translation of `la`, with large pages. -/
def walk (m : PMap) (dir : Nat) (la : Word) : Option Leaf :=
  let pde := m.mem dir (pdx la)
  if pde &&& pteP = 0#32 then none
  else if pde &&& ptePs ≠ 0#32 then
    some (.of (pdx pde * lpgsize + la.toNat % lpgsize) pde pde)
  else
    let pte := m.mem (pgnum pde) (ptx la)
    if pte &&& pteP = 0#32 then none
    else some (.of (pgnum pte * pgsize + la.toNat % pgsize) (pde &&& pte) pte)

/-! ## Well-formed directories -/

/-- What `pgdir_walk` allows in the directory entry of a new table. -/
def tablePerm : Word := pteP ||| pteW ||| pteU

/-- The entry of a page table. -/
def IsTable (M : Machine) (dir : Nat) (pde : Word) : Prop :=
  pde &&& pteP ≠ 0#32 ∧ pde &&& ptePs = 0#32 ∧ pgnum pde < M.npages ∧ pgnum pde ≠ dir

/-- The entry of a large page. -/
def IsLarge (pde : Word) : Prop := pde &&& pteP ≠ 0#32 ∧ pde &&& ptePs ≠ 0#32

/-- The entry that maps the directory itself as a page table. -/
def IsSelf (dir : Nat) (pde : Word) : Prop :=
  pde &&& pteP ≠ 0#32 ∧ pde &&& ptePs = 0#32 ∧ pgnum pde = dir

/-- A page directory with distinct page tables, none of them on the free list. -/
structure WellFormed (M : Machine) (m : PMap) (dir : Nat) (free : List Nat) : Prop where
  chain : LinkChain.Visits m.ppLink m.pageFreeList free
  free_lt : ∀ p ∈ free, p < M.npages
  dir_used : dir ∉ free
  entries : ∀ i, i < 1024 → m.mem dir i = 0#32 ∨ IsTable M dir (m.mem dir i) ∨
    IsLarge (m.mem dir i) ∨ IsSelf dir (m.mem dir i)
  used : ∀ i, i < 1024 → IsTable M dir (m.mem dir i) → pgnum (m.mem dir i) ∉ free
  distinct : ∀ i j, i < 1024 → j < 1024 → IsTable M dir (m.mem dir i) →
    IsTable M dir (m.mem dir j) → pgnum (m.mem dir i) = pgnum (m.mem dir j) → i = j
  present : ∀ i j, i < 1024 → j < 1024 → IsTable M dir (m.mem dir i) →
    m.mem (pgnum (m.mem dir i)) j = 0#32 ∨ m.mem (pgnum (m.mem dir i)) j &&& pteP ≠ 0#32

/-- The `k`-th page from `va` on. -/
def pageAt (va : Word) (k : Nat) : Word := va + BitVec.ofNat 32 (k * pgsize)

/-- What directory entry `i` allows the pages of its table, which may be missing yet. -/
def allow (m : PMap) (dir i : Nat) : Word :=
  if m.mem dir i = 0#32 then tablePerm else m.mem dir i &&& tablePerm

/-- How many page tables are missing for the `n` pages from the `k`-th on. -/
def missing (m : PMap) (dir : Nat) (va : Word) (k n : Nat) : Nat :=
  ((Finset.range 1024).filter fun i => m.mem dir i = 0#32 ∧
    ∃ x, x < n ∧ pdx (pageAt va (k + x)) = i).card

section

variable {M : Machine} {m : PMap} {dir : Nat} {free : List Nat} {la va pa perm w : Word}

/-- The entry `pgdir_walk` makes for page `p`. -/
theorem isTable_new {p : Nat} (hp : p < M.npages) (hne : p ≠ dir) :
    IsTable M dir (page2pa p ||| pteP ||| pteW ||| pteU) ∧
      pgnum (page2pa p ||| pteP ||| pteW ||| pteU) = p ∧
      (page2pa p ||| pteP ||| pteW ||| pteU) &&& tablePerm = tablePerm := by
  have hlt : p < 2 ^ 20 := Nat.lt_of_lt_of_le hp (Nat.le_trans M.npages_le (by decide))
  obtain ⟨hentry, hperm⟩ := tableEntry hlt
  have hpg := (entry_eq_some.mp hentry).2
  have hps : (page2pa p ||| pteP ||| pteW ||| pteU) &&& ptePs = 0#32 := by
    rw [show ptePs = BitVec.twoPow 32 7 by decide, BitVec.and_twoPow]
    simp [page2pa, pteP, pteW, pteU]
  have hpresent : (page2pa p ||| pteP ||| pteW ||| pteU) &&& pteP ≠ 0#32 := by
    intro hz
    have hand : tablePerm &&& pteP = 0#32 := by
      rw [tablePerm, ← hperm, BitVec.and_assoc,
        show (pteP ||| pteW ||| pteU) &&& pteP = pteP by decide, hz]
    exact absurd hand (by decide)
  exact ⟨⟨hpresent, hps, by rw [hpg]; exact hp, by rw [hpg]; exact hne⟩, hpg, hperm⟩

/-- Of an entry, only what it allows counts. -/
theorem leaf_allow (n : Nat) (pde w : Word) :
    Leaf.of n (pde &&& w) w = Leaf.of n ((pde &&& tablePerm) &&& w) w := by
  have hbit (b : Word) (hb : tablePerm &&& b = b) :
      (pde &&& w) &&& b = ((pde &&& tablePerm) &&& w) &&& b := by
    rw [BitVec.and_assoc, BitVec.and_assoc, BitVec.and_assoc, BitVec.and_comm w,
      ← BitVec.and_assoc tablePerm, hb]
  unfold Leaf.of
  rw [hbit pteW (by decide), hbit pteU (by decide)]

/-- A table with all permissions restricts none. -/
theorem leaf_tablePerm (n : Nat) (w : Word) : Leaf.of n (tablePerm &&& w) w = Leaf.of n w w := by
  have hall := leaf_allow n (BitVec.allOnes 32) w
  rw [BitVec.allOnes_and, BitVec.allOnes_and] at hall
  exact hall.symm

theorem IsTable.ne_zero {pde : Word} (h : IsTable M dir pde) : pde ≠ 0#32 := by
  intro hz
  refine h.1 ?_
  rw [hz, BitVec.zero_and]

/-- A missing page table is a zeroed page from the free list. -/
theorem WellFormed.grow (h : WellFormed M m dir free)
    (hentry : m.mem dir (pdx la) = 0#32 ∨ IsTable M dir (m.mem dir (pdx la)))
    (hroom : m.mem dir (pdx la) = 0#32 → free ≠ []) :
    ∃ m' free', pgdirGrow m dir la true = m' ∧ WellFormed M m' dir free' ∧
      IsTable M dir (m'.mem dir (pdx la)) ∧
      (∀ i, i ≠ pdx la ∨ m.mem dir i ≠ 0#32 → m'.mem dir i = m.mem dir i) ∧
      (∀ i, allow m' dir i = allow m dir i) ∧
      (m.mem dir (pdx la) = 0#32 → pgnum (m'.mem dir (pdx la)) ∈ free) ∧ free' ⊆ free ∧
      (∀ p, p ≠ dir → p ∉ free → m'.mem p = m.mem p) ∧
      (m.mem dir (pdx la) = 0#32 → ∀ j, m'.mem (pgnum (m'.mem dir (pdx la))) j = 0#32) ∧
      free.length = free'.length + if m.mem dir (pdx la) = 0#32 then 1 else 0 := by
  by_cases hz : m.mem dir (pdx la) = 0#32
  swap
  · have hgrow : pgdirGrow m dir la true = m := if_neg fun hx => hz hx.1
    exact ⟨m, free, hgrow, h, hentry.resolve_left hz, fun _ _ => rfl, fun _ => rfl,
      fun h0 => absurd h0 hz, fun _ hp => hp, fun _ _ _ => rfl, fun h0 => absurd h0 hz,
      by rw [if_neg hz]; rfl⟩
  obtain ⟨p, rest, rfl⟩ := List.exists_cons_of_ne_nil (hroom hz)
  have hchain := h.chain
  have hhead : m.pageFreeList = some p := hchain.1
  rw [hhead] at hchain
  have hnot : p ∉ rest := (List.nodup_cons.mp (LinkChain.nodup hchain)).1
  have hpd : p ≠ dir := fun heq => h.dir_used (heq ▸ List.mem_cons_self)
  obtain ⟨htable, hpg, hallow⟩ := isTable_new (h.free_lt p List.mem_cons_self) hpd
  let m₁ : PMap := { m with
    pageFreeList := m.ppLink p, ppLink := Function.update m.ppLink p none }
  let m' : PMap := ((m₁.zero p).incref p).write ⟨dir, pdx la⟩
    (page2pa p ||| pteP ||| pteW ||| pteU)
  have hgrow : pgdirGrow m dir la true = m' := by
    unfold pgdirGrow pageAlloc
    rw [if_pos ⟨hz, rfl⟩, hhead]
    rfl
  have hself : m'.mem dir (pdx la) = page2pa p ||| pteP ||| pteW ||| pteU := mem_write_self
  have hdir (i : Nat) (hi : i ≠ pdx la) : m'.mem dir i = m.mem dir i :=
    (mem_write_of_index_ne hi).trans (congrFun (Function.update_of_ne hpd.symm _ _) i)
  have hp (j : Nat) : m'.mem p j = 0#32 := by
    refine (congrFun (mem_write_of_page_ne hpd) j).trans ?_
    exact congrFun (Function.update_self p _ m₁.mem) j
  have hother (q : Nat) (hq : q ≠ dir) (hqp : q ≠ p) : m'.mem q = m.mem q :=
    (mem_write_of_page_ne hq).trans (Function.update_of_ne hqp _ _)
  have hold (i : Nat) (hi : i ≠ pdx la) (hti : IsTable M dir (m'.mem dir i)) :
      IsTable M dir (m.mem dir i) := hdir i hi ▸ hti
  refine ⟨m', rest, hgrow, ?_, by rw [hself]; exact htable, ?_, ?_, fun _ => ?_,
    List.subset_cons_self p rest, ?_, ?_, ?_⟩
  · constructor
    · exact LinkChain.pop hchain
    · exact fun q hq => h.free_lt q (List.mem_cons_of_mem p hq)
    · exact fun hd => h.dir_used (List.mem_cons_of_mem p hd)
    · intro i hi
      by_cases hix : i = pdx la
      · rw [hix, hself]
        exact .inr (.inl htable)
      · rw [hdir i hix]
        exact h.entries i hi
    · intro i hi hti hq
      by_cases hix : i = pdx la
      · rw [hix, hself, hpg] at hq
        exact hnot hq
      · rw [hdir i hix] at hq
        exact h.used i hi (hold i hix hti) (List.mem_cons_of_mem p hq)
    · intro i j hi hj hti htj heq
      by_cases hix : i = pdx la
      · by_cases hjx : j = pdx la
        · rw [hix, hjx]
        · rw [hix, hself, hpg, hdir j hjx] at heq
          exact absurd (heq ▸ List.mem_cons_self) (h.used j hj (hold j hjx htj))
      · by_cases hjx : j = pdx la
        · rw [hjx, hself, hpg, hdir i hix] at heq
          exact absurd (heq ▸ List.mem_cons_self) (h.used i hi (hold i hix hti))
        · rw [hdir i hix, hdir j hjx] at heq
          exact h.distinct i j hi hj (hold i hix hti) (hold j hjx htj) heq
    · intro i j hi hj hti
      by_cases hix : i = pdx la
      · rw [hix, hself, hpg]
        exact .inl (hp j)
      · have hti' := hold i hix hti
        have hqp : pgnum (m.mem dir i) ≠ p := fun heq =>
          h.used i hi hti' (heq ▸ List.mem_cons_self)
        rw [hdir i hix, hother _ hti'.2.2.2 hqp]
        exact h.present i j hi hj hti'
  · rintro i (hi | hi)
    · exact hdir i hi
    · exact hdir i fun heq => hi (heq ▸ hz)
  · intro i
    unfold allow
    by_cases hix : i = pdx la
    · rw [hix, if_neg (hself ▸ htable.ne_zero), if_pos hz, hself, hallow]
    · rw [hdir i hix]
  · rw [hself, hpg]
    exact List.mem_cons_self
  · exact fun q hq hqf => hother q hq fun heq => hqf (heq ▸ List.mem_cons_self)
  · intro _ j
    rw [hself, hpg]
    exact hp j
  · rw [if_pos hz]
    rfl

/-- The translation of an address under a page table. -/
theorem walk_table (h : IsTable M dir (m.mem dir (pdx la))) : walk m dir la =
    if m.mem (pgnum (m.mem dir (pdx la))) (ptx la) &&& pteP = 0#32 then none
    else some (.of (pgnum (m.mem (pgnum (m.mem dir (pdx la))) (ptx la)) * pgsize +
      la.toNat % pgsize) (m.mem dir (pdx la) &&& m.mem (pgnum (m.mem dir (pdx la))) (ptx la))
        (m.mem (pgnum (m.mem dir (pdx la))) (ptx la))) := by
  unfold walk
  dsimp only
  rw [if_neg h.1, if_neg (not_not.mpr h.2.1)]

theorem walk_zero (h : m.mem dir (pdx la) = 0#32) : walk m dir la = none := by
  unfold walk
  dsimp only
  rw [h, BitVec.zero_and, if_pos rfl]

/-- The directory entry of an address that is not mapped, outside a self-map. -/
theorem WellFormed.unmapped (h : WellFormed M m dir free) (hw : walk m dir la = none)
    (hself : ¬ IsSelf dir (m.mem dir (pdx la))) :
    m.mem dir (pdx la) = 0#32 ∨ IsTable M dir (m.mem dir (pdx la)) ∧
      m.mem (pgnum (m.mem dir (pdx la))) (ptx la) = 0#32 := by
  rcases h.entries (pdx la) (pdx_lt la) with hz | ht | hl | hs
  · exact .inl hz
  · refine .inr ⟨ht, ?_⟩
    rw [walk_table ht] at hw
    rcases h.present (pdx la) (ptx la) (pdx_lt la) (ptx_lt la) ht with hz | hp
    · exact hz
    · rw [if_neg hp] at hw
      cases hw
  · unfold walk at hw
    dsimp only at hw
    rw [if_neg hl.1, if_pos hl.2] at hw
    cases hw
  · exact absurd hs hself

/-- A translation that depends on the same entries is the same. -/
theorem WellFormed.walk_congr {m' : PMap} (h : WellFormed M m dir free)
    (hself : ¬ IsSelf dir (m.mem dir (pdx la))) (hdir : m'.mem dir (pdx la) = m.mem dir (pdx la))
    (hpte : IsTable M dir (m.mem dir (pdx la)) →
      m'.mem (pgnum (m.mem dir (pdx la))) (ptx la) = m.mem (pgnum (m.mem dir (pdx la))) (ptx la)) :
    walk m' dir la = walk m dir la := by
  rcases h.entries (pdx la) (pdx_lt la) with hz | ht | hl | hs
  · rw [walk_zero hz, walk_zero (hdir.trans hz)]
  · rw [walk_table ht, walk_table (hdir ▸ ht), hdir, hpte ht]
  · unfold walk
    dsimp only
    rw [hdir, if_neg hl.1, if_pos hl.2, if_neg hl.1, if_pos hl.2]
  · exact absurd hs hself

/-- A store to a page table keeps the directory as it is. -/
theorem WellFormed.store (h : WellFormed M m dir free)
    (ht : IsTable M dir (m.mem dir (pdx la))) (hw : w &&& pteP ≠ 0#32) :
    WellFormed M (m.write ⟨pgnum (m.mem dir (pdx la)), ptx la⟩ w) dir free ∧
      ∀ i, (m.write ⟨pgnum (m.mem dir (pdx la)), ptx la⟩ w).mem dir i = m.mem dir i := by
  have hdir (i : Nat) :
      (m.write ⟨pgnum (m.mem dir (pdx la)), ptx la⟩ w).mem dir i = m.mem dir i :=
    congrFun (mem_write_of_page_ne ht.2.2.2.symm) i
  refine ⟨?_, hdir⟩
  refine ⟨h.chain, h.free_lt, h.dir_used, fun i hi => ?_, fun i hi hti => ?_,
    fun i j hi hj hti htj heq => ?_, fun i j hi hj hti => ?_⟩
  · rw [hdir]
    exact h.entries i hi
  · rw [hdir] at hti ⊢
    exact h.used i hi hti
  · rw [hdir] at hti heq
    rw [hdir] at htj heq
    exact h.distinct i j hi hj hti htj heq
  · rw [hdir] at hti ⊢
    by_cases hpage : pgnum (m.mem dir i) = pgnum (m.mem dir (pdx la))
    · rw [hpage]
      by_cases hj' : j = ptx la
      · rw [hj', mem_write_self]
        exact .inr hw
      · rw [mem_write_of_index_ne hj', ← hpage]
        exact h.present i j hi hj hti
    · rw [mem_write_of_page_ne hpage]
      exact h.present i j hi hj hti

/-- What the store changes is the translation of the addresses of one page. -/
theorem WellFormed.walk_store (h : WellFormed M m dir free)
    (ht : IsTable M dir (m.mem dir (pdx la))) (hw : w &&& pteP ≠ 0#32) {x : Word}
    (hself : ¬ IsSelf dir (m.mem dir (pdx x))) :
    walk (m.write ⟨pgnum (m.mem dir (pdx la)), ptx la⟩ w) dir x =
      if pdx x = pdx la ∧ ptx x = ptx la then
        some (.of (pgnum w * pgsize + x.toNat % pgsize) (m.mem dir (pdx la) &&& w) w)
      else walk m dir x := by
  obtain ⟨-, hdir⟩ := h.store ht hw
  by_cases hslot : pdx x = pdx la ∧ ptx x = ptx la
  · rw [if_pos hslot, walk_table (by rw [hdir, hslot.1]; exact ht), hdir, hslot.1, hslot.2,
      mem_write_self, if_neg hw]
  · rw [if_neg hslot]
    refine h.walk_congr hself (hdir _) fun htx => ?_
    by_cases hpage : pgnum (m.mem dir (pdx x)) = pgnum (m.mem dir (pdx la))
    · have hpdx := h.distinct _ _ (pdx_lt x) (pdx_lt la) htx ht hpage
      rw [hpage, mem_write_of_index_ne fun hj => hslot ⟨hpdx, hj⟩]
    · rw [mem_write_of_page_ne hpage]

/-! ## A turn of the loop over pages -/

/-- The translation of the address at distance `off` in a range mapped to `pa`. -/
def regionLeaf (pa perm off : Word) : Option Leaf := some (.of (pa + off).toNat perm perm)

/-- The addresses of an aligned page. -/
theorem mem_page_iff (hva : va.toNat % 4096 = 0) (x : Word) :
    Mem va pgsize x ↔ pdx x = pdx va ∧ ptx x = ptx va := by
  have hx := x.isLt
  have hlt := va.isLt
  unfold Mem
  rw [BitVec.toNat_sub, pdx_eq, pdx_eq, ptx_eq, ptx_eq, pgsize]
  constructor
  · intro h
    constructor <;> omega
  · rintro ⟨h1, h2⟩
    omega

/-- The bits of an entry that maps an aligned page are those of the permission. -/
theorem leaf_entry (hpa : pa.toNat % 4096 = 0) (n : Nat) (a perm b : Word)
    (hb : b = 0#32 ∨ b = ptePs) :
    Leaf.of n (a &&& (pa ||| perm ||| pteP ||| b)) (pa ||| perm ||| pteP ||| b) =
      Leaf.of n (a &&& perm) perm := by
  have hbit (k : Nat) (hk : k < 12) : pa.getLsbD k = false := by
    have hmod := Nat.testBit_mod_two_pow pa.toNat 12 k
    rw [show (2 : Nat) ^ 12 = 4096 from rfl, hpa, decide_eq_true hk, Bool.true_and,
      Nat.zero_testBit] at hmod
    exact hmod.symm
  have hand (k : Nat) (hk : 0 < k) (hk' : k < 7) :
      (pa ||| perm ||| pteP ||| b) &&& BitVec.twoPow 32 k = perm &&& BitVec.twoPow 32 k := by
    have hp : ∀ k, k < 7 → 0 < k → pteP.getLsbD k = false := by decide
    have hs : ∀ k, k < 7 → 0 < k → ptePs.getLsbD k = false := by decide
    have hb' : b.getLsbD k = false := by
      rcases hb with rfl | rfl
      · exact BitVec.getLsbD_zero
      · exact hs k hk' hk
    rw [BitVec.and_twoPow, BitVec.and_twoPow]
    simp only [BitVec.getLsbD_or, hbit k (by omega), hp k hk' hk, hb', Bool.false_or, Bool.or_false]
  unfold Leaf.of
  rw [show pteW = BitVec.twoPow 32 1 by decide, show pteU = BitVec.twoPow 32 2 by decide,
    show ptePwt = BitVec.twoPow 32 3 by decide, show ptePcd = BitVec.twoPow 32 4 by decide,
    BitVec.and_assoc, BitVec.and_assoc, BitVec.and_assoc a perm, BitVec.and_assoc a perm,
    hand 1 (by decide) (by decide), hand 2 (by decide) (by decide), hand 3 (by decide) (by decide),
    hand 4 (by decide) (by decide)]

/-- The translation under page tables that allow `a`. -/
def tableLeaf (a : Nat → Word) (va pa perm off : Word) : Option Leaf :=
  some (.of (pa + off).toNat (a (pdx (va + off)) &&& perm) perm)

/-- The entry of a page maps the page. -/
theorem tableLeaf_page (hva : va.toNat % 4096 = 0) (hpa : pa.toNat % 4096 = 0)
    (hperm : perm.toNat < 32) {x pde : Word} {a : Nat → Word} (ha : a (pdx va) = pde &&& tablePerm)
    (hx : Mem va pgsize x) :
    some (Leaf.of (pgnum (pa ||| perm ||| pteP) * pgsize + x.toNat % pgsize)
      (pde &&& (pa ||| perm ||| pteP)) (pa ||| perm ||| pteP)) =
      tableLeaf a va pa perm (x - va) := by
  have hpg : pgnum (pa ||| perm ||| pteP) = pgnum pa := by
    rw [pgnum_or, pgnum_or, pgnum_eq_zero (show perm.toNat < 4096 by omega), pgnum_pteP,
      Nat.or_zero, Nat.or_zero]
  have hback : va + (x - va) = x := by rw [BitVec.add_comm, BitVec.sub_add_cancel]
  have haddr : pgnum pa * pgsize + x.toNat % pgsize = (pa + (x - va)).toNat := by
    have hlt := x.isLt
    have hvlt := va.isLt
    have hplt := pa.isLt
    unfold Mem at hx
    rw [BitVec.toNat_add, pgnum_eq]
    rw [BitVec.toNat_sub] at hx ⊢
    rw [pgsize] at *
    omega
  unfold tableLeaf
  have hleaf := leaf_entry hpa (pa + (x - va)).toNat (pde &&& tablePerm) perm 0#32 (.inl rfl)
  rw [BitVec.or_zero] at hleaf
  rw [hback, ((mem_page_iff hva x).mp hx).1, ha, hpg, haddr, leaf_allow, hleaf]

/-- What mapping a range under page tables leaves: its pages mapped, as many new page tables
as it takes fewer pages, and the directory entries that were there. -/
structure PagesMapped (M : Machine) (m m' : PMap) (dir : Nat) (free free' : List Nat)
    (va pa perm : Word) (size : Nat) : Prop where
  wf : WellFormed M m' dir free'
  self : ∀ i, IsSelf dir (m'.mem dir i) ↔ IsSelf dir (m.mem dir i)
  walk : ∀ x, ¬ IsSelf dir (m.mem dir (pdx x)) →
    walk m' dir x = paint (walk m dir) va size (tableLeaf (allow m dir) va pa perm) x
  allow : ∀ i, allow m' dir i = allow m dir i
  kept : ∀ i, m.mem dir i ≠ 0#32 → m'.mem dir i = m.mem dir i
  made : ∀ i, m.mem dir i = 0#32 → m'.mem dir i ≠ 0#32 →
    IsTable M dir (m'.mem dir i) ∧ pgnum (m'.mem dir i) ∈ free
  sub : free' ⊆ free

/-- A turn of the loop: `pgdir_walk` finds or makes the page table, `page_remove` has
nothing to do, and the store maps the page. -/
theorem WellFormed.page_step (h : WellFormed M m dir free) (hva : va.toNat % 4096 = 0)
    (hpa : pa.toNat % 4096 = 0) (hperm : perm.toNat < 32) (hfree : Jos.walk m dir va = none)
    (hself : ¬ IsSelf dir (m.mem dir (pdx va))) (hroom : m.mem dir (pdx va) = 0#32 → free ≠ []) :
    ∃ m' pte free', pgdirWalk M m (some dir) va true = .ok (some pte, m') ∧
      pageRemove M m' (some dir) va = .ok m' ∧
      PagesMapped M m (m'.write pte (pa ||| perm ||| pteP)) dir free free' va pa perm pgsize ∧
      (∀ i, i ≠ pdx va → (m'.write pte (pa ||| perm ||| pteP)).mem dir i = m.mem dir i) ∧
      (m'.write pte (pa ||| perm ||| pteP)).mem dir (pdx va) ≠ 0#32 ∧
      free.length = free'.length + if m.mem dir (pdx va) = 0#32 then 1 else 0 := by
  have hun := h.unmapped hfree hself
  obtain ⟨m', free', hgrow, h', ht, hkept, hallow, hnew, hsub, hmem, hzero, hlen⟩ :=
    h.grow (hun.imp id And.left) hroom
  have hkaddr : kaddr M (m'.mem dir (pdx va)) = .ok (pgnum (m'.mem dir (pdx va))) :=
    if_neg (Nat.not_le_of_lt ht.2.2.1)
  have hpte : m'.read ⟨pgnum (m'.mem dir (pdx va)), ptx va⟩ = 0#32 := by
    by_cases hz : m.mem dir (pdx va) = 0#32
    · exact hzero hz (ptx va)
    · obtain ⟨ht', hpte'⟩ := hun.resolve_left hz
      have hused := h.used _ (pdx_lt va) ht'
      unfold PMap.read
      dsimp only
      rw [hkept _ (.inr hz), hmem _ ht'.2.2.2 hused, hpte']
  have hwalk : pgdirWalk M m (some dir) va true =
      .ok (some ⟨pgnum (m'.mem dir (pdx va)), ptx va⟩, m') := by
    unfold pgdirWalk
    dsimp only
    rw [hgrow, if_pos ht.ne_zero, hkaddr]
    rfl
  have hlook : pageLookup M m' (some dir) va = .ok none := by
    have hno : pgdirGrow m' dir va false = m' := if_neg fun hx => Bool.noConfusion hx.2
    unfold pageLookup pgdirWalk
    dsimp only
    rw [hno, if_pos ht.ne_zero, hkaddr]
    simp only [Except.ok_bind_eq, pure, Except.pure, hpte, if_true]
  have hremove : pageRemove M m' (some dir) va = .ok m' := by
    unfold pageRemove
    rw [hlook]
    rfl
  have hbit : (pa ||| perm ||| pteP) &&& pteP ≠ 0#32 := by
    rw [or_pteP_and]
    decide
  obtain ⟨hwf, hdir⟩ := h'.store ht hbit
  have hselfGrow (i : Nat) : IsSelf dir (m'.mem dir i) ↔ IsSelf dir (m.mem dir i) := by
    by_cases hi : i ≠ pdx va ∨ m.mem dir i ≠ 0#32
    · rw [hkept i hi]
    · obtain ⟨rfl, hz⟩ := not_or.mp hi |>.imp not_not.mp not_not.mp
      refine ⟨fun hs => absurd hs.2.2 ht.2.2.2, fun hs => ?_⟩
      exact absurd hs hself
  refine ⟨m', _, free', hwalk, hremove, ?_, fun i hi => ?_, ?_, hlen⟩
  · constructor
    · exact hwf
    · intro i
      rw [hdir, hselfGrow]
    · intro x hx
      have hx' : ¬ IsSelf dir (m'.mem dir (pdx x)) := fun hs => hx ((hselfGrow _).mp hs)
      have hold : Jos.walk m' dir x = Jos.walk m dir x := by
        by_cases hslot : pdx x = pdx va
        · by_cases hz : m.mem dir (pdx x) = 0#32
          · rw [walk_zero hz, walk_table (hslot ▸ ht), hslot, hzero (hslot ▸ hz), BitVec.zero_and,
              if_pos rfl]
          · refine h.walk_congr hx (hkept _ (.inr hz)) fun htx => ?_
            rw [hmem _ htx.2.2.2 (h.used _ (pdx_lt x) htx)]
        · refine h.walk_congr hx (hkept _ (.inl hslot)) fun htx => ?_
          rw [hmem _ htx.2.2.2 (h.used _ (pdx_lt x) htx)]
      rw [h'.walk_store ht hbit hx']
      unfold paint
      by_cases hpage : Mem va pgsize x
      · have ha : Jos.allow m dir (pdx va) = m'.mem dir (pdx va) &&& tablePerm := by
          rw [← hallow, Jos.allow, if_neg ht.ne_zero]
        rw [if_pos ((mem_page_iff hva x).mp hpage), if_pos hpage,
          tableLeaf_page hva hpa hperm ha hpage]
      · rw [if_neg fun hs => hpage ((mem_page_iff hva x).mpr hs), if_neg hpage, hold]
    · intro i
      rw [← hallow i, Jos.allow, Jos.allow, hdir]
    · intro i hi
      rw [hdir, hkept i (.inr hi)]
    · intro i hi hi'
      rw [hdir] at hi' ⊢
      by_cases hslot : i = pdx va
      · subst hslot
        exact ⟨ht, hnew hi⟩
      · exact absurd ((hkept i (.inl hslot)).trans hi) hi'
    · exact hsub
  · rw [hdir, hkept i (.inl hi)]
  · rw [hdir]
    exact ht.ne_zero

/-! ## The loop over pages -/

/-- The address is not mapped, and no self-map is in the way. -/
def Vacant (m : PMap) (dir : Nat) (x : Word) : Prop :=
  walk m dir x = none ∧ ¬ IsSelf dir (m.mem dir (pdx x))

theorem pageAt_add (va : Word) (k x : Nat) :
    pageAt va (k + x) = pageAt va k + BitVec.ofNat 32 (x * pgsize) := by
  unfold pageAt
  rw [Nat.add_mul, BitVec.ofNat_add, BitVec.add_assoc]

theorem toNat_pageAt (va : Word) (k : Nat) :
    (pageAt va k).toNat = (va.toNat + k * 4096) % 4294967296 := by
  unfold pageAt
  rw [BitVec.toNat_add, BitVec.toNat_ofNat, Nat.add_mod_mod]
  rfl

theorem pageAt_aligned (hva : va.toNat % 4096 = 0) (k : Nat) : (pageAt va k).toNat % 4096 = 0 := by
  rw [toNat_pageAt]
  omega

theorem tableLeaf_add (a : Nat → Word) (va pa perm : Word) (n : Nat) (off : Word) :
    tableLeaf a (va + BitVec.ofNat 32 n) (pa + BitVec.ofNat 32 n) perm off =
      tableLeaf a va pa perm (BitVec.ofNat 32 n + off) := by
  unfold tableLeaf
  rw [BitVec.add_assoc, BitVec.add_assoc]

/-- A page mapped takes the page table it made off those that are missing. -/
theorem missing_step {m' : PMap} {k n : Nat}
    (hother : ∀ i, i ≠ pdx (pageAt va k) → m'.mem dir i = m.mem dir i)
    (hgrown : m'.mem dir (pdx (pageAt va k)) ≠ 0#32) :
    missing m' dir va (k + 1) n + (if m.mem dir (pdx (pageAt va k)) = 0#32 then 1 else 0) ≤
      missing m dir va k (n + 1) := by
  have hsub : ((Finset.range 1024).filter fun i => m'.mem dir i = 0#32 ∧
      ∃ x, x < n ∧ pdx (pageAt va (k + 1 + x)) = i) ⊆ (Finset.range 1024).filter fun i =>
        m.mem dir i = 0#32 ∧ ∃ x, x < n + 1 ∧ pdx (pageAt va (k + x)) = i := by
    intro i hi
    obtain ⟨hlt, hz, x, hx, hpdx⟩ := Finset.mem_filter.mp hi |>.imp id id
    have hne : i ≠ pdx (pageAt va k) := fun heq => hgrown (heq ▸ hz)
    refine Finset.mem_filter.mpr ⟨hlt, (hother i hne).symm.trans hz, x + 1, by omega, ?_⟩
    rw [← hpdx, show k + (x + 1) = k + 1 + x by omega]
  unfold missing
  split
  · rename_i hz
    have hnot : pdx (pageAt va k) ∉ (Finset.range 1024).filter fun i => m'.mem dir i = 0#32 ∧
        ∃ x, x < n ∧ pdx (pageAt va (k + 1 + x)) = i := fun hi =>
      hgrown (Finset.mem_filter.mp hi).2.1
    rw [← Finset.card_insert_of_notMem hnot]
    refine Finset.card_le_card (Finset.insert_subset ?_ hsub)
    exact Finset.mem_filter.mpr ⟨Finset.mem_range.mpr (pdx_lt _), hz, 0, by omega, rfl⟩
  · rw [Nat.add_zero]
    exact Finset.card_le_card hsub

/-- By induction on the turns: one page is mapped, the rest of the range is still free. -/
theorem bootMapPages_spec (hva : va.toNat % 4096 = 0) (hpa : pa.toNat % 4096 = 0)
    (hperm : perm.toNat < 32) (n k : Nat) (hk : k + n ≤ 1048576) (h : WellFormed M m dir free)
    (hvacant : ∀ x, Mem (pageAt va k) (n * pgsize) x → Vacant m dir x)
    (hroom : missing m dir va k n ≤ free.length) :
    ∃ m' free', bootMapPages M dir va pa perm n k m = .ok m' ∧
      PagesMapped M m m' dir free free' (pageAt va k) (pageAt pa k) perm (n * pgsize) ∧
      free.length ≤ free'.length + missing m dir va k n := by
  induction n generalizing k m free with
  | zero =>
      refine ⟨m, free, rfl, ?_, Nat.le_add_right _ _⟩
      refine ⟨h, fun _ => .rfl, fun x _ => ?_, fun _ => rfl, fun _ _ => rfl,
        fun i hz hn => absurd hz hn, fun _ hp => hp⟩
      rw [Nat.zero_mul, paint_zero]
  | succ n ih =>
      have hbound : (n + 1) * pgsize ≤ 2 ^ 32 := by rw [pgsize]; omega
      have hnext (v : Word) : pageAt v (k + 1) = pageAt v k + BitVec.ofNat 32 pgsize := by
        rw [pageAt_add, Nat.one_mul]
      have hsize : (n + 1) * pgsize = pgsize + n * pgsize := by rw [Nat.add_mul, Nat.one_mul,
        Nat.add_comm]
      have hfirst : Mem (pageAt va k) ((n + 1) * pgsize) (pageAt va k) := by
        unfold Mem
        rw [BitVec.sub_self, hsize]
        exact Nat.add_pos_left (by decide) _
      obtain ⟨hfree, hself⟩ := hvacant _ hfirst
      have hneed : m.mem dir (pdx (pageAt va k)) = 0#32 → free ≠ [] := by
        rintro hz rfl
        have hin : pdx (pageAt va k) ∈ (Finset.range 1024).filter fun i => m.mem dir i = 0#32 ∧
            ∃ x, x < n + 1 ∧ pdx (pageAt va (k + x)) = i :=
          Finset.mem_filter.mpr ⟨Finset.mem_range.mpr (pdx_lt _), hz, 0, by omega, rfl⟩
        exact absurd hroom (Nat.not_le_of_lt (Finset.card_pos.mpr ⟨_, hin⟩))
      obtain ⟨m₁, pte, free₁, hwalk, hremove, h₁, hother, hgrown, hlen⟩ :=
        h.page_step (pageAt_aligned hva k) (pageAt_aligned hpa k) hperm hfree hself hneed
      have hmiss := missing_step (n := n) hother hgrown
      have hvacant₁ (x : Word) (hx : Mem (pageAt va (k + 1)) (n * pgsize) x) :
          Vacant (m₁.write pte (pageAt pa k ||| perm ||| pteP)) dir x := by
        rw [hnext, mem_add_iff (hsize ▸ hbound) (by decide), ← hsize] at hx
        obtain ⟨hnone, hnot⟩ := hvacant x hx.1
        refine ⟨?_, fun hs => hnot ((h₁.self _).mp hs)⟩
        rw [h₁.walk x hnot, paint, if_neg hx.2, hnone]
      obtain ⟨m', free', hrun, h', hlen'⟩ := ih (k + 1) (by omega) h₁.wf hvacant₁
        (by omega)
      refine ⟨m', free', ?_, ?_, by omega⟩
      · have hturn : bootMapPages M dir va pa perm (n + 1) k m = (do
            let (pte, m) ← pgdirWalk M m (some dir) (pageAt va k) true
            let m ← pageRemove M m (some dir) (pageAt va k)
            match pte with
            | none => .error "page fault in kernel mode"
            | some pte =>
                bootMapPages M dir va pa perm n (k + 1)
                  (m.write pte (pageAt pa k ||| perm ||| pteP))) := rfl
        simp only [hturn, hwalk, hremove, Except.ok_bind_eq]
        exact hrun
      · constructor
        · exact h'.wf
        · exact fun i => (h'.self i).trans (h₁.self i)
        · intro x hx
          have hx₁ := fun hs => hx ((h₁.self (pdx x)).mp hs)
          have hleaf : tableLeaf (Jos.allow (m₁.write pte (pageAt pa k ||| perm ||| pteP)) dir)
              (pageAt va (k + 1)) (pageAt pa (k + 1)) perm = fun off =>
              tableLeaf (Jos.allow m dir) (pageAt va k) (pageAt pa k) perm
                (BitVec.ofNat 32 pgsize + off) := by
            funext off
            rw [hnext, hnext, tableLeaf_add, funext h₁.allow]
          rw [h'.walk x hx₁, hleaf, paint_congr (h₁.walk x hx), hnext,
            paint_paint _ _ (hsize ▸ hbound) (by decide), ← hsize]
        · exact fun i => (h'.allow i).trans (h₁.allow i)
        · intro i hi
          have hkept := h₁.kept i hi
          rw [h'.kept i (hkept ▸ hi), hkept]
        · intro i hi hi'
          by_cases hz : (m₁.write pte (pageAt pa k ||| perm ||| pteP)).mem dir i = 0#32
          · obtain ⟨ht, hin⟩ := h'.made i hz hi'
            exact ⟨ht, h₁.sub hin⟩
          · rw [h'.kept i hz]
            exact h₁.made i hi hz
        · exact fun p hp => h₁.sub (h'.sub hp)

end

end Jos
end Sisop

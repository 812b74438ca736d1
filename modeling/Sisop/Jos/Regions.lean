import Mathlib.Data.Finset.Card
import Mathlib.Data.Finset.Image
import Mathlib.Order.Interval.Finset.Nat
import Sisop.Jos.PageMap
import Sisop.Jos.UserCheck
import Sisop.Jos.UserMemory

/-!
# Pages of an address space

An address space that `env_alloc` has just set up has no page below `UTOP`, and
`region_alloc` gives it one page after the other, each of them a page of memory that
nothing else refers to.  `UserPages` says which pages it has.  With each page comes a page
table, if it is the first of its 4 MB, so the pages mapped tell how much of the free list
is left, and `region_alloc` fails exactly when its pages and their tables do not fit.

What the kernel stores through such pages it finds there, and nothing else changes.
-/

namespace Sisop
namespace Jos

open RefCount Exit

/-- The entry for page `p` of the address space of `e`. -/
def pageEntry (m : PMap) (dirs : Nat → Option Nat) (e p : Nat) : Word :=
  pteWord m dirs e (p / 1024) (p % 1024)

/-- How many pages of memory the pages of `S` take, with their page tables. -/
def room (S : Finset Nat) : Nat := S.card + (S.image (· / 1024)).card

/-- The address space of `e` has the pages of `S` and no other, writable by the user, all
different pages of memory. -/
structure UserPages (M : Machine) (K : Nat → Prop) (m : PMap) (dirs : Nat → Option Nat)
    (e d : Nat) (S : Finset Nat) (free : List Nat) : Prop where
  inv : PageInv M K m dirs free fun _ => 0
  dir : dirs e = some d
  mapped : ∀ p ∈ S, pageEntry m dirs e p &&& userStore = userStore
  others : ∀ p, p ∉ S → pageEntry m dirs e p = 0#32
  inj : ∀ p ∈ S, ∀ p' ∈ S, pgnum (pageEntry m dirs e p) = pgnum (pageEntry m dirs e p') → p = p'
  tables : ∀ i, pdeWord m dirs e i ≠ 0#32 → ∃ p ∈ S, p / 1024 = i

/-- What the kernel's own addresses depend on is as it was. -/
structure KernelKept (M : Machine) (K : Nat → Prop) (d : Nat) (m m' : PMap) : Prop where
  dir : ∀ i, pdxUtop ≤ i → m'.mem d i = m.mem d i
  outside : ∀ q, ¬ Pool M K q → m'.mem q = m.mem q

/-- The address space has grown from the pages of `S` to those of `T`: the free list pays for
the difference, and what was in the pages of `S` still is. -/
structure Extended (M : Machine) (K : Nat → Prop) (dirs : Nat → Option Nat) (e d : Nat)
    (m m' : PMap) (S T : Finset Nat) (free free' : List Nat) : Prop where
  pages : UserPages M K m' dirs e d T free'
  paid : free'.length + room T = free.length + room S
  kernel : KernelKept M K d m m'
  loadByte : ∀ va, pgnum va ∈ S → loadByte m' d va = loadByte m d va

section

variable {M : Machine} {K : Nat → Prop} {m m' m'' : PMap} {dirs : Nat → Option Nat}
  {e d n p : Nat} {S T : Finset Nat} {free : List Nat} {va : Word}

theorem KernelKept.refl (m : PMap) : KernelKept M K d m m := ⟨fun _ _ => rfl, fun _ _ => rfl⟩

theorem KernelKept.trans (h : KernelKept M K d m m') (h' : KernelKept M K d m' m'') :
    KernelKept M K d m m'' :=
  ⟨fun i hi => (h'.dir i hi).trans (h.dir i hi),
    fun q hq => (h'.outside q hq).trans (h.outside q hq)⟩

theorem pageEntry_pgnum (m : PMap) (dirs : Nat → Option Nat) (e : Nat) (va : Word) :
    pageEntry m dirs e (pgnum va) = pteWord m dirs e (pdx va) (ptx va) := by
  unfold pageEntry
  rw [pgnum_eq, pdx_eq, ptx_eq, Nat.div_div_eq_div_mul]

/-! ## Room -/

theorem room_mono (h : S ⊆ T) : room S ≤ room T :=
  Nat.add_le_add (Finset.card_le_card h) (Finset.card_le_card (Finset.image_subset_image h))

theorem room_insert_table (hp : p ∉ S) (ht : ∃ q ∈ S, q / 1024 = p / 1024) :
    room (insert p S) = room S + 1 := by
  have himage : p / 1024 ∈ S.image (· / 1024) := by
    obtain ⟨q, hq, heq⟩ := ht
    exact Finset.mem_image.mpr ⟨q, hq, heq⟩
  unfold room
  rw [Finset.image_insert, Finset.insert_eq_of_mem himage, Finset.card_insert_of_notMem hp]
  omega

theorem room_insert_new (hp : p ∉ S) (ht : ¬ ∃ q ∈ S, q / 1024 = p / 1024) :
    room (insert p S) = room S + 2 := by
  have himage : p / 1024 ∉ S.image (· / 1024) := fun hin => by
    obtain ⟨q, hq, heq⟩ := Finset.mem_image.mp hin
    exact ht ⟨q, hq, heq⟩
  unfold room
  rw [Finset.image_insert, Finset.card_insert_of_notMem himage, Finset.card_insert_of_notMem hp]
  omega

theorem room_lt_insert (hp : p ∉ S) : room S < room (insert p S) := by
  by_cases ht : ∃ q ∈ S, q / 1024 = p / 1024
  · rw [room_insert_table hp ht]
    omega
  · rw [room_insert_new hp ht]
    omega

/-! ## One page -/

theorem userPage_bits (q : Nat) :
    (page2pa q ||| (pteU ||| pteW) ||| pteP) &&& userStore = userStore := by
  ext i hi
  simp [userStore]
  tauto

/-- A table is there exactly when a page of its 4 MB is. -/
theorem UserPages.table_iff (h : UserPages M K m dirs e d S free) (i : Nat) :
    pdeWord m dirs e i ≠ 0#32 ↔ ∃ p ∈ S, p / 1024 = i := by
  refine ⟨h.tables i, ?_⟩
  rintro ⟨p, hp, rfl⟩ hz
  have hentry : pageEntry m dirs e p = 0#32 := pteWord_of_no_pde hz
  have hbits := h.mapped p hp
  rw [hentry] at hbits
  exact absurd hbits (by decide)

namespace UserPages

theorem entry_ne_zero (h : UserPages M K m dirs e d S free) (hp : p ∈ S) :
    pageEntry m dirs e p ≠ 0#32 := by
  intro hz
  have hbits := h.mapped p hp
  rw [hz] at hbits
  exact absurd hbits (by decide)

theorem lt_utop (h : UserPages M K m dirs e d S free) (hp : pgnum va ∈ S) : va < utop := by
  have hne := h.entry_ne_zero hp
  rw [pageEntry_pgnum] at hne
  obtain ⟨t, ht, -, -⟩ := pteWord_ne_zero hne
  obtain ⟨d', -, hi, -⟩ := pdeWord_ne_zero (entry_eq_some.mp ht).1
  exact (pdx_lt_pdxUtop_iff va).mp hi

theorem target_eq (h : UserPages M K m dirs e d S free) (hp : p ∈ S) :
    target m dirs (.pte e (p / 1024) (p % 1024)) = some (pgnum (pageEntry m dirs e p)) :=
  entry_of_ne (h.entry_ne_zero hp)

/-- Where a byte of a page is in memory. -/
theorem cell_eq (h : UserPages M K m dirs e d S free) (hp : pgnum va ∈ S) :
    cell m d va = some (pgnum (pageEntry m dirs e (pgnum va)), va.toNat % pgsize) := by
  have hva := h.lt_utop hp
  have hi := (pdx_lt_pdxUtop_iff va).mpr hva
  have hbits := h.mapped _ hp
  rw [pageEntry_pgnum] at hbits
  refine cell_eq_some.mpr ⟨hva, ?_, rfl⟩
  rw [h.inv.translate_eq h.dir hi (by decide) (by decide), if_pos hbits, pageEntry_pgnum]

theorem loadByte_congr (h : UserPages M K m dirs e d S free) {S' : Finset Nat} {free' : List Nat}
    (h' : UserPages M K m' dirs e d S' free') (hp : pgnum va ∈ S) (hp' : pgnum va ∈ S')
    (hentry : pageEntry m' dirs e (pgnum va) = pageEntry m dirs e (pgnum va))
    (hmem : m'.mem (pgnum (pageEntry m dirs e (pgnum va))) =
      m.mem (pgnum (pageEntry m dirs e (pgnum va)))) : loadByte m' d va = loadByte m d va := by
  rw [loadByte_of_cell (h'.cell_eq hp'), loadByte_of_cell (h.cell_eq hp), hentry]
  unfold PMap.byte
  rw [hmem]

/-- The entries once page `q` is mapped at `va`. -/
theorem pageEntry_insert {q : Nat}
    (hpte : ∀ e' i j, pteWord m' dirs e' i j =
      if e' = e ∧ i = pdx va ∧ j = ptx va then page2pa q ||| (pteU ||| pteW) ||| pteP
      else pteWord m dirs e' i j) (p : Nat) :
    pageEntry m' dirs e p =
      if p = pgnum va then page2pa q ||| (pteU ||| pteW) ||| pteP else pageEntry m dirs e p := by
  have hiff : p = pgnum va ↔ p / 1024 = pdx va ∧ p % 1024 = ptx va := by
    rw [pdx_eq, ptx_eq, pgnum_eq]
    omega
  unfold pageEntry
  rw [hpte]
  by_cases hpva : p = pgnum va
  · rw [if_pos ⟨rfl, hiff.mp hpva⟩, if_pos hpva]
  · rw [if_neg fun hx => hpva (hiff.mpr hx.2), if_neg hpva]

/-- A page of the free list, inserted where nothing is mapped. -/
theorem insert_page {q : Nat} (h : UserPages M K m dirs e d S (q :: free)) (hva : va < utop)
    (hp : pgnum va ∉ S) :
    ∃ m₁, pageAlloc m 0 = (some q, m₁) ∧
      ((free = [] ∧ (¬ ∃ p ∈ S, p / 1024 = pgnum va / 1024) ∧
        pageInsert M m₁ (some d) q va (pteU ||| pteW) = .ok (-eNoMem, m₁)) ∨
      ∃ m' free', pageInsert M m₁ (some d) q va (pteU ||| pteW) = .ok (0, m') ∧
        Extended M K dirs e d m m' S (insert (pgnum va) S) (q :: free) free') := by
  have hi := (pdx_lt_pdxUtop_iff va).mpr hva
  have hslot : pgnum va / 1024 = pdx va := by rw [pgnum_eq, pdx_eq, Nat.div_div_eq_div_mul]
  obtain ⟨m₁, halloc, h₁, hpool, hqf, hunref, hpde, hpte, hmem, -, href⟩ := h.inv.pageAlloc_cons 0
  have hdata : Data m₁ dirs free q := ⟨hqf, fun x hx => absurd hx (hunref x)⟩
  have hcount : (m₁.ppRef q).toNat < 65535 := by
    rw [href, h.inv.count_eq hpool.2.2, refs_eq_zero_iff.mpr fun x _ =>
      h.inv.free_unref q List.mem_cons_self x]
    decide
  have hbits : q ||| pgnum (pteU ||| pteW) = q := by
    rw [show pgnum (pteU ||| pteW) = 0 by decide, Nat.or_zero]
  refine ⟨m₁, halloc, ?_⟩
  rcases h₁.pageInsert_spec h.dir hi hpool hdata hbits hcount with
    ⟨hnil, hz, hins⟩ | ⟨m', free', hins, h', hpde', hpte', hmem'⟩
  · refine .inl ⟨hnil, fun ht => ?_, hins⟩
    rw [hpde, ← hslot] at hz
    exact (h.table_iff _).mpr ht hz
  have hzero : pteWord m₁ dirs e (pdx va) (ptx va) = 0#32 := by
    rw [hpte, ← pageEntry_pgnum]
    exact h.others _ hp
  have hroom : free = [] → pdeWord m₁ dirs e (pdx va) ≠ 0#32 := by
    rintro rfl hz
    rw [h₁.pageInsert_full h.dir hi hz] at hins
    cases hins
  obtain ⟨m₂, t, free₂, h₂, hlist, -, -, hpde₂, -, hins₂⟩ :=
    @PageInv.pageInsert_unmapped M K m₁ dirs free (fun _ => 0) e d va q (pteU ||| pteW) h₁ h.dir hi
      hzero hqf hroom
  obtain ⟨m₃, hins₃, -, hkern⟩ := h₁.pageInsert_words h.dir hi hroom q (pteU ||| pteW)
  have heq₃ : m₃ = m' := congrArg Prod.snd (Except.ok.inj (hins₃.symm.trans hins))
  have heq₂ : (m₂.incref q).write ⟨t, ptx va⟩ (page2pa q ||| (pteU ||| pteW) ||| pteP) = m' :=
    congrArg Prod.snd (Except.ok.inj (hins₂.symm.trans hins))
  have hfree : free' = free₂ := by
    have hchain := h'.chain
    rw [← heq₂] at hchain
    exact LinkChain.unique hchain h₂.chain
  have hentry := pageEntry_insert (m := m) fun e' i j => (hpte' e' i j).trans (by rw [hpte])
  have hpg : pgnum (page2pa q ||| (pteU ||| pteW) ||| pteP) = q := pgnum_entry hpool.lt hbits
  have hold : ∀ p ∈ S, p ≠ pgnum va := fun p hin heq => hp (heq ▸ hin)
  have hfresh : ∀ p ∈ S, pgnum (pageEntry m dirs e p) ≠ q := fun p hin heq =>
    h.inv.free_unref q List.mem_cons_self _ (heq ▸ h.target_eq hin)
  have hpages : UserPages M K m' dirs e d (insert (pgnum va) S) free' := by
    refine ⟨h', h.dir, fun p hin => ?_, fun p hin => ?_, fun p hin p' hin' heq => ?_,
      fun i hne => ?_⟩
    · rw [hentry]
      rcases Finset.mem_insert.mp hin with rfl | hin
      · rw [if_pos rfl]
        exact userPage_bits q
      · rw [if_neg (hold p hin)]
        exact h.mapped p hin
    · rw [Finset.mem_insert, not_or] at hin
      rw [hentry, if_neg hin.1]
      exact h.others p hin.2
    · rw [hentry, hentry] at heq
      rcases Finset.mem_insert.mp hin with rfl | hin
      · rcases Finset.mem_insert.mp hin' with rfl | hin'
        · rfl
        · rw [if_pos rfl, if_neg (hold p' hin'), hpg] at heq
          exact absurd heq.symm (hfresh p' hin')
      · rcases Finset.mem_insert.mp hin' with rfl | hin'
        · rw [if_pos rfl, if_neg (hold p hin), hpg] at heq
          exact absurd heq (hfresh p hin)
        · rw [if_neg (hold p hin), if_neg (hold p' hin')] at heq
          exact h.inj p hin p' hin' heq
    · by_cases hiva : i = pdx va
      · exact ⟨pgnum va, Finset.mem_insert_self _ _, hslot.trans hiva.symm⟩
      · rw [hpde' e i fun hx => hiva (congrArg Prod.snd hx), hpde] at hne
        obtain ⟨p, hin, hpi⟩ := h.tables i hne
        exact ⟨p, Finset.mem_insert_of_mem hin, hpi⟩
  refine .inr ⟨m', free', hins, hpages, ?_, ⟨fun i hk => ?_, fun q' hq' => ?_⟩, fun va' hin => ?_⟩
  · rw [hfree, List.length_cons]
    rcases hlist with ⟨rfl, hne⟩ | ⟨rfl, hz⟩
    · rw [hpde, ← hslot] at hne
      rw [room_insert_table hp ((h.table_iff _).mp hne)]
      omega
    · rw [hpde, ← hslot] at hz
      rw [room_insert_new hp fun ht => (h.table_iff _).mpr ht hz, List.length_cons]
      omega
  · have hdq : d ≠ q := fun heq =>
      h.inv.free_unref q List.mem_cons_self (.dir e) (heq ▸ h.dir)
    rw [← heq₃, hkern e d i h.dir hk, hmem d hdq]
  · have hqq : q' ≠ q := fun heq => hq' (heq ▸ hpool)
    rw [hmem' q' (h₁.data_of_not_pool hq'), hmem q' hqq]
  · refine h.loadByte_congr hpages hin (Finset.mem_insert_of_mem hin) ?_ ?_
    · rw [hentry, if_neg (hold _ hin)]
    · have htgt : target m₁ dirs (.pte e (pgnum va' / 1024) (pgnum va' % 1024)) =
          some (pgnum (pageEntry m dirs e (pgnum va'))) := by
        rw [← h.target_eq hin]
        exact congrArg entry (hpte e _ _)
      rw [hmem' _ (h₁.data_of_pte htgt), hmem _ (hfresh _ hin)]

end UserPages

/-! ## A region -/

theorem Extended.refl (h : UserPages M K m dirs e d S free) :
    Extended M K dirs e d m m S S free free := ⟨h, rfl, .refl m, fun _ _ => rfl⟩

theorem Extended.trans {U : Finset Nat} {free' free'' : List Nat}
    (h : Extended M K dirs e d m m' S T free free')
    (h' : Extended M K dirs e d m' m'' T U free' free'') (hST : S ⊆ T) :
    Extended M K dirs e d m m'' S U free free'' :=
  ⟨h'.pages, h'.paid.trans h.paid, h.kernel.trans h'.kernel,
    fun va hva => (h'.loadByte va (hST hva)).trans (h.loadByte va hva)⟩

theorem union_Ico_succ (S : Finset Nat) (a n : Nat) :
    S ∪ Finset.Ico a (a + (n + 1)) = insert a S ∪ Finset.Ico (a + 1) (a + 1 + n) := by
  ext p
  simp only [Finset.mem_union, Finset.mem_insert, Finset.mem_Ico]
  by_cases hp : p ∈ S
  · simp [hp]
  · simp only [hp, or_false, false_or]
    omega

/-- The loop of `region_alloc` over pages that are not mapped: it maps them all, or they
and their page tables do not fit.  By induction on the pages left. -/
theorem regionAllocPages_cases (h : UserPages M K m dirs e d S free)
    (hbound : n = 0 ∨ va.toNat + n * 4096 ≤ utop.toNat)
    (hnew : ∀ p, pgnum va ≤ p → p < pgnum va + n → p ∉ S) :
    (∃ m' free', regionAllocPages M m (some d) va n = .ok m' ∧
      Extended M K dirs e d m m' S (S ∪ Finset.Ico (pgnum va) (pgnum va + n)) free free') ∨
    ((∃ msg, regionAllocPages M m (some d) va n = .error msg) ∧
      free.length + room S < room (S ∪ Finset.Ico (pgnum va) (pgnum va + n))) := by
  induction n generalizing m va S free with
  | zero =>
      refine .inl ⟨m, free, rfl, ?_⟩
      rw [Nat.add_zero, Finset.Ico_self, Finset.union_empty]
      exact .refl h
  | succ n ih =>
      have hutop : utop.toNat = 4005560320 := rfl
      have hbound := hbound.resolve_left (Nat.succ_ne_zero n)
      have hva : va < utop := by
        rw [BitVec.lt_def]
        omega
      have hp : pgnum va ∉ S := hnew _ (Nat.le_refl _) (by omega)
      have hnext : (va + 4096#32).toNat = va.toNat + 4096 := by
        rw [BitVec.toNat_add, show (4096#32 : Word).toNat = 4096 from rfl]
        omega
      have hpg : pgnum (va + 4096#32) = pgnum va + 1 := by
        rw [pgnum_eq, pgnum_eq, hnext]
        omega
      have hsub : insert (pgnum va) S ⊆
          insert (pgnum va) S ∪ Finset.Ico (pgnum va + 1) (pgnum va + 1 + n) :=
        Finset.subset_union_left
      rw [union_Ico_succ]
      unfold regionAllocPages
      cases free with
      | nil =>
          rw [h.inv.pageAlloc_nil]
          refine .inr ⟨⟨_, rfl⟩, ?_⟩
          have hlt := room_lt_insert hp
          have hmono := room_mono hsub
          rw [List.length_nil]
          omega
      | cons q free =>
          obtain ⟨m₁, halloc, ⟨rfl, ht, hins⟩ | ⟨m₂, free₂, hins, hext⟩⟩ := h.insert_page hva hp
          · simp only [halloc, hins, Except.ok_bind_eq]
            refine .inr ⟨⟨_, if_pos (by decide)⟩, ?_⟩
            have hmono := room_mono hsub
            rw [room_insert_new hp ht] at hmono
            rw [List.length_singleton]
            omega
          · simp only [halloc, hins, Except.ok_bind_eq, ne_eq, not_true_eq_false, if_false]
            have hnew₂ : ∀ p, pgnum (va + 4096#32) ≤ p → p < pgnum (va + 4096#32) + n →
                p ∉ insert (pgnum va) S := fun p hlo hhi hin => by
              rw [hpg] at hlo hhi
              rcases Finset.mem_insert.mp hin with heq | hin
              · omega
              · exact hnew p (by omega) (by omega) hin
            have hrest := ih hext.pages (.inr (by omega)) hnew₂
            rw [hpg] at hrest
            rcases hrest with ⟨m', free', hrun, hext'⟩ | ⟨hrun, hroom⟩
            · exact .inl ⟨m', free', hrun, hext.trans hext' (Finset.subset_insert _ _)⟩
            · refine .inr ⟨hrun, ?_⟩
              rw [← hext.paid]
              exact hroom

/-- The pages `region_alloc` maps. -/
def regionPages (va len : Word) : Finset Nat :=
  Finset.Ico (pgnum (rounddown va)) (pgnum (roundup (va + len)))

theorem regionPages_eq (va len : Word) : regionPages va len =
    Finset.Ico (pgnum (rounddown va)) (pgnum (rounddown va) +
      ((roundup (va + len)).toNat - (rounddown va).toNat) / pgsize) := by
  have hlo := toNat_rounddown va
  have hhi := toNat_roundup (va + len)
  ext p
  unfold regionPages
  rw [Finset.mem_Ico, Finset.mem_Ico, pgnum_eq, pgnum_eq]
  unfold pgsize
  split at hhi <;> omega

theorem regionAlloc_cases {len : Word} (h : UserPages M K m dirs e d S free)
    (htop : ¬ utop < roundup (va + len)) (hnew : ∀ p ∈ regionPages va len, p ∉ S) :
    (∃ m' free', regionAlloc M m (some d) va len = .ok m' ∧
      Extended M K dirs e d m m' S (S ∪ regionPages va len) free free') ∨
    ((∃ msg, regionAlloc M m (some d) va len = .error msg) ∧
      free.length + room S < room (S ∪ regionPages va len)) := by
  rw [regionPages_eq] at hnew ⊢
  unfold regionAlloc
  dsimp only
  rw [if_neg htop]
  rw [BitVec.not_lt, BitVec.le_def] at htop
  refine regionAllocPages_cases h ?_ fun p hlo hhi => hnew p (Finset.mem_Ico.mpr ⟨hlo, hhi⟩)
  unfold pgsize
  omega

/-! ## Stores -/

/-- The kernel's stores to pages of the address space. -/
theorem UserPages.kernelStore_ok (h : UserPages M K m dirs e d S free) (va : Word)
    (bs : List (BitVec 8))
    (hbound : va.toNat + bs.length ≤ utop.toNat)
    (hin : ∀ k, k < bs.length → pgnum (va + BitVec.ofNat 32 k) ∈ S) :
    ∃ m', kernelStoreBytes m d va bs = .ok m' ∧ UserPages M K m' dirs e d S free ∧
      KernelKept M K d m m' ∧
      (∀ k (hk : k < bs.length), loadByte m' d (va + BitVec.ofNat 32 k) = some bs[k]) ∧
      ∀ va', pgnum va' ∈ S → (∀ k, k < bs.length → va' ≠ va + BitVec.ofNat 32 k) →
        loadByte m' d va' = loadByte m d va' := by
  have hutop : utop.toNat = 4005560320 := rfl
  have hsame : ∀ va₁ va₂ : Word, pgnum va₁ ∈ S → pgnum va₂ ∈ S →
      (pgnum (pageEntry m dirs e (pgnum va₁)), va₁.toNat % pgsize) =
        (pgnum (pageEntry m dirs e (pgnum va₂)), va₂.toNat % pgsize) → va₁ = va₂ := by
    intro va₁ va₂ h₁ h₂ heq
    obtain ⟨hpage, hoff⟩ := Prod.mk.inj heq
    have hpg := h.inj _ h₁ _ h₂ hpage
    refine BitVec.eq_of_toNat_eq ?_
    unfold pgsize at hoff
    rw [pgnum_eq, pgnum_eq] at hpg
    omega
  have hinj : ∀ j k, j < bs.length → k < bs.length →
      (pgnum (pageEntry m dirs e (pgnum (va + BitVec.ofNat 32 j))),
        (va + BitVec.ofNat 32 j).toNat % pgsize) =
      (pgnum (pageEntry m dirs e (pgnum (va + BitVec.ofNat 32 k))),
        (va + BitVec.ofNat 32 k).toNat % pgsize) → j = k := by
    intro j k hj hk heq
    have hva := congrArg BitVec.toNat (hsame _ _ (hin j hj) (hin k hk) heq)
    simp only [BitVec.toNat_add, BitVec.toNat_ofNat] at hva
    omega
  have hneed : userStore &&& kernelStore = kernelStore := by decide
  obtain ⟨m', hstore, htouched, hbytes⟩ := storeBytes_cells bs (h.inv.separate h.dir)
    (fun k hk => h.cell_eq (hin k hk)) hinj hneed
  have hrun : kernelStoreBytes m d va bs = .ok m' := by
    rw [kernelStoreBytes_low (.inr hbound), hstore]
  obtain ⟨h', hpde, hpte, hmem⟩ := (kernelStoreBytes_frame h.inv h.dir).value hrun
  have hentry : ∀ p, pageEntry m' dirs e p = pageEntry m dirs e p := fun p => hpte e _ _
  have hpages : UserPages M K m' dirs e d S free := by
    refine ⟨h', h.dir, fun p hp => ?_, fun p hp => ?_, fun p hp p' hp' heq => ?_, fun i hne => ?_⟩
    · rw [hentry]
      exact h.mapped p hp
    · rw [hentry]
      exact h.others p hp
    · rw [hentry, hentry] at heq
      exact h.inj p hp p' hp' heq
    · rw [hpde] at hne
      exact h.tables i hne
  refine ⟨m', hrun, hpages, ⟨fun i _ => congrFun htouched.dir i, hmem⟩, fun k hk => ?_,
    fun va' hva' hne => ?_⟩
  · rw [loadByte_of_cell (hpages.cell_eq (hin k hk)), hentry, hbytes k hk]
  · rw [loadByte_of_cell (hpages.cell_eq hva'), loadByte_of_cell (h.cell_eq hva'), hentry]
    refine congrArg some (htouched.byte _ _ ?_)
    rintro ⟨k, hk, heq⟩
    exact hne k hk (hsame _ _ hva' (hin k hk) heq.symm)

theorem kernelStoreBytes_cons (b : BitVec 8) (bs : List (BitVec 8)) :
    kernelStoreBytes m d va (b :: bs) =
      if va < utop then
        match storeByte m d kernelStore va b with
        | none => .error (.panic "page fault in kernel mode")
        | some m => kernelStoreBytes m d (va + 1#32) bs
      else if KernelWritable m d va then .error (.undefined "store to a kernel address")
      else .error (.panic "page fault in kernel mode") := rfl

theorem kernelStoreBytes_append (xs ys : List (BitVec 8)) :
    kernelStoreBytes m d va (xs ++ ys) = (kernelStoreBytes m d va xs >>= fun m' =>
      kernelStoreBytes m' d (va + BitVec.ofNat 32 xs.length) ys) := by
  induction xs generalizing m va with
  | nil =>
      have hzero : va + BitVec.ofNat 32 0 = va := BitVec.add_zero va
      rw [List.nil_append, List.length_nil, hzero]
      rfl
  | cons x xs ih =>
      rw [List.cons_append, List.length_cons, add_ofNat_succ, kernelStoreBytes_cons,
        kernelStoreBytes_cons]
      by_cases hlow : va < utop
      · rw [if_pos hlow, if_pos hlow]
        cases storeByte m d kernelStore va x with
        | none => rfl
        | some m₁ => exact ih
      · rw [if_neg hlow, if_neg hlow]
        by_cases hw : KernelWritable m d va
        · rw [if_pos hw]
          rfl
        · rw [if_neg hw]
          rfl

/-- A store to a page that is not mapped. -/
theorem UserPages.fault (h : UserPages M K m dirs e d S free) (hva : va < utop)
    (hp : pgnum va ∉ S) (b : BitVec 8) (bs : List (BitVec 8)) :
    kernelStoreBytes m d va (b :: bs) = .error (.panic "page fault in kernel mode") := by
  have hi := (pdx_lt_pdxUtop_iff va).mpr hva
  have hnone : translate m d kernelStore va = none := by
    rw [h.inv.translate_eq h.dir hi (by decide) (by decide), ← pageEntry_pgnum, h.others _ hp]
    decide
  rw [kernelStoreBytes_cons, if_pos hva]
  unfold storeByte
  rw [hnone]
  rfl

/-- The page tables of the kernel's addresses that it can write are pages boot took. -/
def KernTables (M : Machine) (K : Nat → Prop) (m : PMap) (dir : Nat) : Prop :=
  ∀ i, pdxUtop ≤ i → i < 1024 → m.mem dir i &&& kernelStore = kernelStore →
    m.mem dir i &&& ptePs = 0#32 → ¬ Pool M K (pgnum (m.mem dir i))

theorem KernelKept.kernTables (h : KernelKept M K d m m') (hkern : KernTables M K m d) :
    KernTables M K m' d := by
  intro i hlo hhi
  rw [h.dir i hlo]
  exact hkern i hlo hhi

/-- What the kernel can write of its own does not depend on the pages of the user. -/
theorem KernelKept.kernelWritable_iff (h : KernelKept M K d m m') (hkern : KernTables M K m d)
    (hva : ¬ va < utop) : KernelWritable m' d va ↔ KernelWritable m d va := by
  have hi : pdxUtop ≤ pdx va := Nat.le_of_not_lt fun hlt => hva ((pdx_lt_pdxUtop_iff va).mp hlt)
  unfold KernelWritable
  dsimp only
  rw [h.dir _ hi]
  refine and_congr_right fun hpde => ?_
  by_cases hps : m.mem d (pdx va) &&& ptePs = 0#32
  · rw [h.outside _ (hkern _ hi (pdx_lt va) hpde hps)]
  · exact iff_of_true (.inl hps) (.inl hps)

end

end Jos
end Sisop

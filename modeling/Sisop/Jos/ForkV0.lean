import Sisop.Jos.UserLib
import Sisop.Jos.RefWrap
import Sisop.Jos.Upcall

/-!
# `fork_v0`

`fork_v0` walks the page tables of the parent below `UTOP`.  `dup_or_share` copies a page
that is writable through a scratch mapping at `UTEMP`, and shares every other page with the
child, a device page (`PTE_PCD` or `PTE_PWT`) with its permission to write.

`UTEMP` itself is one of the addresses walked, and every copy ends with nothing mapped there.
-/

namespace Sisop
namespace Jos

open RefCount TransitionSystem UserLib

def utemp : Word := 0x00400000#32

/-- `pnum << PGSHIFT`. -/
def pnumAddr (pnum : Nat) : Word := BitVec.ofNat 32 pnum <<< 12

/-- The permission `dup_or_share` gives to its page. -/
def dupPerm (perm pte : Word) : Word :=
  let perm := perm &&& (pte &&& pteW)
  let perm := perm &&& pteSyscall
  if pte &&& (ptePcd ||| ptePwt) ≠ 0#32 then perm ||| (ptePcd ||| ptePwt) else perm

/-- The branch of `dup_or_share` that copies. -/
def dupCopy (M : Machine) (cur d : Nat) (envid addr perm : Word) : UserLib Unit := do
  let _ ← orPanic "dup_or_share: sys_page_alloc" fun s => sysPageAlloc M s cur envid addr perm
  let _ ← orPanic "dup_or_share: sys_page_map" fun s =>
    sysPageMap M s cur envid addr 0#32 utemp perm
  memmovePage d utemp addr
  let _ ← orPanic "sys_page_unmap" fun s => sysPageUnmap M s cur 0#32 utemp
  pure ()

/-- `dup_or_share` of environment `cur`, with page directory `d`. -/
def dupOrShare (M : Machine) (cur d : Nat) (envid : Word) (pnum : Nat) (perm : Word) :
    UserLib Unit := do
  let pte ← readUvpt d pnum
  if pte &&& pteP = 0#32 then pure ()
  else if pte &&& pteW = 0#32 ∨ pte &&& (ptePcd ||| ptePwt) ≠ 0#32 then do
    let _ ← orPanic "dup_or_share: sys_page_map" fun s =>
      sysPageMap M s cur 0#32 (pnumAddr pnum) envid (pnumAddr pnum) (dupPerm perm pte)
    pure ()
  else dupCopy M cur d envid (pnumAddr pnum) (dupPerm perm pte)

/-- `n` turns of the loop of `fork_v0`, from `pnum` on. -/
def forkV0Pages (M : Machine) (cur d : Nat) (envid : Word) : Nat → Nat → UserLib Unit
  | 0, _ => pure ()
  | n + 1, pnum => do
      let pde ← fun s => .ok (.returns (uvpd s.pm d (pnum / 1024)) s)
      if pde &&& pteP = 0#32 ∨ pde &&& pteU = 0#32 then forkV0Pages M cur d envid n (pnum + 1)
      else do
        dupOrShare M cur d envid pnum (pteP ||| pteU ||| pteW)
        forkV0Pages M cur d envid n (pnum + 1)

/-- `UTOP >> PGSHIFT`. -/
def pnumEnd : Nat := pgnum utop

/-- `fork_v0` as the parent runs it. -/
def forkV0 (M : Machine) (cur d : Nat) : UserLib Int := do
  let envid ← orPanic "sys_exofork" fun s => .ok (sysExofork M s cur)
  if envid = 0 then pure 0
  else do
    forkV0Pages M cur d (BitVec.ofInt 32 envid) pnumEnd 0
    let _ ← orPanic "sys_env_set_status" fun s =>
      .ok (sysEnvSetStatus s cur (BitVec.ofInt 32 envid) 2#32)
    pure envid

/-! ## What the child gets -/

/-- The entry allows writes. -/
def WritableEntry (w : Word) : Prop := w &&& pteW ≠ 0#32

/-- The entry allows writes and is not of a device. -/
def CopiedEntry (w : Word) : Prop := w &&& pteW ≠ 0#32 ∧ w &&& (ptePcd ||| ptePwt) = 0#32

instance (w : Word) : Decidable (WritableEntry w) := inferInstanceAs (Decidable (_ ≠ _))
instance (w : Word) : Decidable (CopiedEntry w) := inferInstanceAs (Decidable (_ ∧ _))

/-- In `s'` child `e` has the pages that `cur` had in `s`, below `UTOP`: a private copy,
mapped writable, of a page with an entry in `copied`, and any other page itself, writable if
it was.  The parent has kept its mappings and their contents. -/
structure ChildPages (copied : Word → Prop) (s s' : KState) (cur e : Nat) : Prop where
  parent : ∀ va, va < utop → wordAt s' cur va = wordAt s cur va
  parentMem : ∀ va, va < utop → wordAt s cur va ≠ 0#32 →
    s'.pm.mem (pgnum (wordAt s cur va)) = s.pm.mem (pgnum (wordAt s cur va))
  mapped : ∀ va, va < utop → (wordAt s' e va = 0#32 ↔ wordAt s cur va = 0#32)
  contents : ∀ va, va < utop → wordAt s cur va ≠ 0#32 → ∀ i, i < 1024 →
    s'.pm.mem (pgnum (wordAt s' e va)) i = s.pm.mem (pgnum (wordAt s cur va)) i
  copies : ∀ va, va < utop → copied (wordAt s cur va) → WritableEntry (wordAt s' e va) ∧
    ∀ e' x, x < utop → entry (wordAt s' e' x) = entry (wordAt s' e va) →
      e' = e ∧ pdx x = pdx va ∧ ptx x = ptx va
  shares : ∀ va, va < utop → wordAt s cur va ≠ 0#32 → ¬ copied (wordAt s cur va) →
    pgnum (wordAt s' e va) = pgnum (wordAt s cur va) ∧
      (WritableEntry (wordAt s' e va) ↔ WritableEntry (wordAt s cur va))

/-- `fork_v0` makes such a child, or it panics because there is no free environment or no
free page. -/
def ForkV0Contract (copied : Word → Prop) (M : Machine) (s : KState) (cur d : Nat) : Prop :=
  (∃ e s', (s.envs e).envPgdir = none ∧
    forkV0 M cur d s = .ok (.returns (s'.envs e).envId.toInt s') ∧ ChildPages copied s s' cur e) ∨
  ∃ msg r s', forkV0 M cur d s = .ok (.panics msg r s') ∧
    (r = -eNoFreeEnv ∧ s'.envFreeList = none ∨ r = -eNoMem ∧ s'.pm.pageFreeList = none)

/-! ## A turn of the loop -/

/-- Everything `fork_v0` starts from once it has a child `e`, whose id is `envid`.  No page
is mapped so often that the child's mappings could wrap its count.  If some page is to be
copied, the program can read it and nothing is mapped at `UTEMP`. -/
structure ForkStart (M : Machine) (K : Nat → Prop) (s : KState) (cur d e : Nat) (envid : Word) :
    Prop where
  pages : ∃ free, PageInv M K s.pm s.dirs free fun _ => 0
  dir : s.dirs cur = some d
  child : envid2env s cur envid true = .ok e
  childDir : s.dirs e ≠ none
  ne : e ≠ cur
  few : ∀ i j q, target s.pm s.dirs (.pte cur i j) = some q →
    refs slots (target s.pm s.dirs) q < 2 ^ 15
  scratch : ∀ i j, CopiedEntry (pteWord s.pm s.dirs cur i j) →
    wordAt s cur utemp = 0#32 ∧ pteWord s.pm s.dirs cur i j &&& pteU ≠ 0#32

/-- The entry of the child once the turn of the slot is over. -/
inductive ChildEntry (s : KState) (cur e : Nat) (m : PMap) (i j : Nat) : Prop
  | unmapped (hw : pteWord s.pm s.dirs cur i j = 0#32) (hc : pteWord m s.dirs e i j = 0#32)
  | shared (hw : pteWord s.pm s.dirs cur i j ≠ 0#32)
      (hno : ¬ CopiedEntry (pteWord s.pm s.dirs cur i j))
      (hc : pteWord m s.dirs e i j = page2pa (pgnum (pteWord s.pm s.dirs cur i j)) |||
        (pteP ||| pteU ||| dupPerm (pteP ||| pteU ||| pteW) (pteWord s.pm s.dirs cur i j)) ||| pteP)
  | copied (p : Nat) (hw : CopiedEntry (pteWord s.pm s.dirs cur i j)) (hp : p < 2 ^ 20)
      (hc : pteWord m s.dirs e i j = page2pa p ||| userStore)
      (halone : ∀ x, target m s.dirs x = some p → x = .pte e i j)
      (hmem : ∀ k, k < 1024 → m.mem p k = s.pm.mem (pgnum (pteWord s.pm s.dirs cur i j)) k)

/-- The child after the turns of the pages below `n`. -/
structure Duplicated (M : Machine) (K : Nat → Prop) (s : KState) (cur e n : Nat) (m : PMap) :
    Prop where
  pages : ∃ free, PageInv M K m s.dirs free fun _ => 0
  others : ∀ e' i j, e' ≠ e → pteWord m s.dirs e' i j = pteWord s.pm s.dirs e' i j
  pending : ∀ i j, n ≤ i * 1024 + j → pteWord m s.dirs e i j = 0#32
  done : ∀ i j, j < 1024 → i * 1024 + j < n → ChildEntry s cur e m i j
  mem : ∀ e' i j q, e' ≠ e → target s.pm s.dirs (.pte e' i j) = some q →
    m.mem q = s.pm.mem q

/-- One entry of `e` changed, from zero to `w`, and no page that was mapped. -/
structure Mapped (M : Machine) (K : Nat → Prop) (dirs : Nat → Option Nat) (e i j : Nat) (w : Word)
    (m m' : PMap) : Prop where
  pages : ∃ free, PageInv M K m' dirs free fun _ => 0
  pte : ∀ e' i' j', pteWord m' dirs e' i' j' =
    if e' = e ∧ i' = i ∧ j' = j then w else pteWord m dirs e' i' j'
  mem : ∀ e' i' j' q, target m dirs (.pte e' i' j') = some q → m'.mem q = m.mem q

section

variable {M : Machine} {K : Nat → Prop} {s : KState} {cur d e n i j q : Nat} {envid w : Word}
  {m m' : PMap}

/-- The entry `page_insert` writes. -/
theorem entry_page {p : Nat} {perm : Word} (hp : p < 2 ^ 20) (hperm : pgnum perm = 0) :
    entry (page2pa p ||| perm ||| pteP) = some p :=
  entry_eq_some.mpr ⟨or_pteP_ne_zero _, pgnum_entry hp (by rw [hperm, Nat.or_zero])⟩

/-- With every permission asked for, `dup_or_share` gives `PTE_W` if the page has it, and both
bits of a device if it has one. -/
theorem dupPerm_eq (w : Word) : dupPerm (pteP ||| pteU ||| pteW) w =
    (w &&& pteW) ||| if w &&& (ptePcd ||| ptePwt) ≠ 0#32 then ptePcd ||| ptePwt else 0#32 := by
  unfold dupPerm
  dsimp only
  rcases and_pteW w with hw | hw <;> rw [hw] <;> split <;> decide

theorem dupPerm_copied (h : CopiedEntry w) : dupPerm (pteP ||| pteU ||| pteW) w = pteW := by
  rw [dupPerm_eq, if_neg (not_not.mpr h.2)]
  rcases and_pteW w with hw | hw
  · exact absurd hw h.1
  · rw [hw]
    decide

theorem toNat_dupPerm (w : Word) : (dupPerm (pteP ||| pteU ||| pteW) w).toNat < 4096 := by
  rw [dupPerm_eq]
  rcases and_pteW w with hw | hw <;> rw [hw] <;> split <;> decide

theorem dupPerm_write (w : Word) :
    dupPerm (pteP ||| pteU ||| pteW) w &&& pteW ≠ 0#32 ↔ w &&& pteW ≠ 0#32 := by
  rw [dupPerm_eq]
  rcases and_pteW w with hw | hw <;> rw [hw] <;> split <;> decide

theorem pgnum_sharePerm (w : Word) :
    pgnum (pteP ||| pteU ||| dupPerm (pteP ||| pteU ||| pteW) w) = 0 := by
  simp [pgnum_or, pgnum_eq_zero (toNat_dupPerm w)]

/-- Of the entry `sys_page_map` makes, `PTE_W` is what the permission says. -/
theorem writableEntry_share (q : Nat) (perm : Word) :
    WritableEntry (page2pa q ||| (pteP ||| pteU ||| perm) ||| pteP) ↔ perm &&& pteW ≠ 0#32 := by
  have hpa : page2pa q &&& pteW = 0#32 := by
    rw [show pteW = BitVec.twoPow 32 1 by decide, BitVec.and_twoPow]
    simp [page2pa]
  have hand : (page2pa q ||| (pteP ||| pteU ||| perm) ||| pteP) &&& pteW = perm &&& pteW := by
    rw [BitVec.and_comm]
    simp only [BitVec.and_or_distrib_left]
    rw [BitVec.and_comm, hpa, show pteW &&& pteP = 0#32 by decide,
      show pteW &&& pteU = 0#32 by decide, BitVec.and_comm pteW perm]
    simp
  unfold WritableEntry
  rw [hand]

theorem toNat_pnumAddr (hn : n < pnumEnd) : (pnumAddr n).toNat = 4096 * n := by
  have hlt : n < 2 ^ 20 := Nat.lt_trans hn (by decide)
  rw [show pnumAddr n = page2pa n from rfl, toNat_page2pa hlt, Nat.mul_comm]

/-- The page `pnum` is in the slot of its two indices. -/
theorem pnumAddr_spec (hn : n < pnumEnd) : ¬ badVa (pnumAddr n) ∧ pdx (pnumAddr n) = n / 1024 ∧
    ptx (pnumAddr n) = n % 1024 := by
  have hto := toNat_pnumAddr hn
  have hend : pnumEnd = 977920 := rfl
  have hutop : utop.toNat = 4005560320 := rfl
  have hal : pnumAddr n % 4096#32 = 0#32 := by
    refine BitVec.eq_of_toNat_eq ?_
    rw [BitVec.toNat_umod, hto]
    exact Nat.mul_mod_right 4096 n
  refine ⟨?_, ?_, ?_⟩
  · rintro (hle | hne)
    · rw [BitVec.le_def] at hle
      omega
    · exact hne hal
  · rw [pdx_eq, hto]
    omega
  · rw [ptx_eq, hto]
    omega

theorem Mapped.pte_ne (h : Mapped M K s.dirs e i j w m m') {e' i' j' : Nat}
    (hne : ¬ (e' = e ∧ i' = i ∧ j' = j)) : pteWord m' s.dirs e' i' j' = pteWord m s.dirs e' i' j' :=
  (h.pte e' i' j').trans (if_neg hne)

theorem Mapped.pte_self (h : Mapped M K s.dirs e i j w m m') : pteWord m' s.dirs e i j = w :=
  (h.pte e i j).trans (if_pos ⟨rfl, rfl, rfl⟩)

/-- A page table entry that still is what it was refers to what it did. -/
theorem target_pte_congr {e' i' j' : Nat}
    (h : pteWord m' s.dirs e' i' j' = pteWord m s.dirs e' i' j') :
    target m' s.dirs (.pte e' i' j') = target m s.dirs (.pte e' i' j') :=
  congrArg entry h

/-- An entry of the child stays as it is when another one is made, unless the new one refers
to the child's own copy. -/
theorem ChildEntry.mapped {i₀ j₀ : Nat} (h : ChildEntry s cur e m i₀ j₀)
    (hm : Mapped M K s.dirs e i j w m m') (hslot : ¬ (i₀ = i ∧ j₀ = j))
    (hnew : ∀ p, entry w = some p → ¬ ∀ x, target m s.dirs x = some p ↔ x = .pte e i₀ j₀) :
    ChildEntry s cur e m' i₀ j₀ := by
  have hsame : pteWord m' s.dirs e i₀ j₀ = pteWord m s.dirs e i₀ j₀ :=
    hm.pte_ne fun hx => hslot hx.2
  cases h with
  | unmapped hw hc => exact .unmapped hw (hsame.trans hc)
  | shared hw hno hc => exact .shared hw hno (hsame.trans hc)
  | copied p hw hp hc halone hmem =>
      have hself : target m s.dirs (.pte e i₀ j₀) = some p := by
        show entry (pteWord m s.dirs e i₀ j₀) = some p
        rw [hc]
        exact (entry_store hp).2.2.1
      obtain ⟨free, hinv⟩ := hm.pages
      refine .copied p hw hp (hsame.trans hc) (fun x hx => ?_) fun k hk => ?_
      · have hself' : target m' s.dirs (.pte e i₀ j₀) = some p :=
          (target_pte_congr hsame).trans hself
        rcases hinv.excl x _ p hx hself' with heq | ⟨hpte, -⟩
        · exact heq
        cases x with
        | dir _ => exact hpte.elim
        | pde _ _ => exact hpte.elim
        | pte e' i' j' =>
            by_cases hx' : e' = e ∧ i' = i ∧ j' = j
            · obtain ⟨rfl, rfl, rfl⟩ := hx'
              refine absurd (fun x => ⟨halone x, ?_⟩) (hnew p (by rw [← hx, ← hm.pte_self]; rfl))
              rintro rfl
              exact hself
            · exact halone _ ((target_pte_congr (hm.pte_ne hx')).symm.trans hx)
      · rw [hm.mem e i₀ j₀ p hself]
        exact hmem k hk

/-- A turn that maps one page for the child, or none. -/
theorem Duplicated.mapped (h : Duplicated M K s cur e n m)
    (hm : Mapped M K s.dirs e (n / 1024) (n % 1024) w m m')
    (hchild : ChildEntry s cur e m' (n / 1024) (n % 1024))
    (hnew : ∀ i j p, entry w = some p → ¬ ∀ x, target m s.dirs x = some p ↔ x = .pte e i j) :
    Duplicated M K s cur e (n + 1) m' := by
  refine ⟨hm.pages, fun e' i j he => ?_, fun i j hij => ?_, fun i j hj hij => ?_,
    fun e' i j q he hq => ?_⟩
  · rw [hm.pte_ne fun hx => he hx.1]
    exact h.others e' i j he
  · rw [hm.pte_ne fun hx => by omega]
    exact h.pending i j (by omega)
  · by_cases hslot : i = n / 1024 ∧ j = n % 1024
    · rw [hslot.1, hslot.2]
      exact hchild
    · exact (h.done i j hj (by omega)).mapped hm hslot (hnew i j)
  · rw [hm.mem e' i j q ((target_pte_congr (h.others e' i j he)).trans hq)]
    exact h.mem e' i j q he hq

/-- A page of the parent is mapped at most twice as often as before. -/
theorem Duplicated.refs_lt (h : Duplicated M K s cur e n m) (hs : ForkStart M K s cur d e envid)
    (hq : target s.pm s.dirs (.pte cur i j) = some q) : refs slots (target m s.dirs) q < 65535 := by
  obtain ⟨free, hinv⟩ := h.pages
  obtain ⟨free₀, hinv₀⟩ := hs.pages
  have hqm : target m s.dirs (.pte cur i j) = some q :=
    (target_pte_congr (h.others cur i j hs.ne.symm)).trans hq
  have hfew := hs.few i j q hq
  have hle : refs slots (target m s.dirs) q ≤ 2 * refs slots (target s.pm s.dirs) q := by
    refine refs_le_double (fun x => match x with
      | .pte _ i j => .pte e i j
      | x => x) fun x hx hxq => ?_
    have hpte : x.isPte := by
      rcases hinv.excl x _ q hxq hqm with rfl | ⟨hpte, -⟩
      · trivial
      · exact hpte
    cases x with
    | dir _ => exact hpte.elim
    | pde _ _ => exact hpte.elim
    | pte e' i' j' =>
        by_cases he : e' = e
        · subst he
          have hj : j' < 1024 := (pte_mem_slots.mp hx).2.2
          have hlt : i' * 1024 + j' < n := by
            by_contra hge
            have hz := h.pending i' j' (by omega)
            rw [target, hz] at hxq
            cases hxq
          have hold : target s.pm s.dirs (.pte cur i' j') = some q := by
            have hword : entry (pteWord m s.dirs e' i' j') = some q := hxq
            cases h.done i' j' hj hlt with
            | unmapped hw hc =>
                rw [hc] at hword
                cases hword
            | shared hw hno hc =>
                rw [hc, entry_page (pgnum_lt _) (pgnum_sharePerm _)] at hword
                rw [← hword]
                exact entry_of_ne hw
            | copied p hw hp hc halone hmem =>
                rw [hc, (entry_store hp).2.2.1] at hword
                obtain rfl := Option.some.inj hword
                cases halone _ hqm
                exact absurd rfl hs.ne
          exact .inr ⟨_, mem_slots_of_target hinv₀.dirs_lt hold, hold, rfl⟩
        · exact .inl ((target_pte_congr (h.others e' i' j' he)).symm.trans hxq)
  omega

/-- The test of the loop finds the directory entries that are not there: any other has
`PTE_P` and `PTE_U`. -/
theorem uvpd_test {free : List Nat} (hinv : PageInv M K m s.dirs free fun _ => 0)
    (hdir : s.dirs cur = some d) (hn : n < pnumEnd) :
    pdeWord m s.dirs cur (n / 1024) = uvpd m d (n / 1024) ∧
      (uvpd m d (n / 1024) &&& userLoad = userLoad ∨ uvpd m d (n / 1024) = 0#32) ∧
      (uvpd m d (n / 1024) &&& pteP = 0#32 ∨ uvpd m d (n / 1024) &&& pteU = 0#32 ↔
        uvpd m d (n / 1024) = 0#32) := by
  have hi : n / 1024 < pdxUtop := by
    rw [show pnumEnd = 977920 from rfl] at hn
    unfold pdxUtop
    omega
  have hword : pdeWord m s.dirs cur (n / 1024) = uvpd m d (n / 1024) := pdeWord_of_dir hdir hi
  by_cases hz : uvpd m d (n / 1024) = 0#32
  · exact ⟨hword, .inr hz, iff_of_true (.inl (by rw [hz]; exact BitVec.zero_and)) hz⟩
  · have hperm := hinv.pde_perm cur (n / 1024) (by rw [hword]; exact hz)
    rw [hword] at hperm
    have hbit (b : Word) (hb : (pteP ||| pteW ||| pteU) &&& b = b) :
        uvpd m d (n / 1024) &&& b = b := by
      rw [← hb, ← BitVec.and_assoc, hperm]
    refine ⟨hword, .inl (hbit userLoad (by decide)), iff_of_false ?_ hz⟩
    rw [hbit pteP (by decide), hbit pteU (by decide)]
    decide

/-- Under a directory entry that is there, `uvpt` is the entry of the page. -/
theorem uvpt_eq {free : List Nat} (hinv : PageInv M K m s.dirs free fun _ => 0)
    (hdir : s.dirs cur = some d) (hn : n < pnumEnd) (hpde : uvpd m d (n / 1024) ≠ 0#32) :
    uvpt m d n = some (pteWord m s.dirs cur (n / 1024) (n % 1024)) := by
  obtain ⟨hword, hperm, -⟩ := uvpd_test hinv hdir hn
  have ht : entry (pdeWord m s.dirs cur (n / 1024)) = some (pgnum (uvpd m d (n / 1024))) := by
    rw [hword]
    exact entry_of_ne hpde
  have hj : n % 1024 < nptentries := Nat.mod_lt n (by decide)
  unfold uvpt
  rw [if_pos (hperm.resolve_right hpde), pteWord_of_pde ht hj]

/-- `dup_or_share` of an address with a page. -/
theorem dupOrShare_mapped (h : Duplicated M K s cur e n m) (hs : ForkStart M K s cur d e envid)
    (hn : n < pnumEnd) (hw : pteWord s.pm s.dirs cur (n / 1024) (n % 1024) = w)
    (hne : w ≠ 0#32) : dupOrShare M cur d envid n (pteP ||| pteU ||| pteW) { s with pm := m } =
      (if w &&& pteW = 0#32 ∨ w &&& (ptePcd ||| ptePwt) ≠ 0#32 then
        orPanic "dup_or_share: sys_page_map" (fun s => sysPageMap M s cur 0#32 (pnumAddr n) envid
          (pnumAddr n) (dupPerm (pteP ||| pteU ||| pteW) w)) >>= fun _ => pure ()
      else dupCopy M cur d envid (pnumAddr n) (dupPerm (pteP ||| pteU ||| pteW) w))
        { s with pm := m } := by
  obtain ⟨free, hinv⟩ := h.pages
  have hwm := (h.others cur _ _ hs.ne.symm).trans hw
  obtain ⟨hword, -, -⟩ := uvpd_test hinv hs.dir hn
  have hpde : uvpd m d (n / 1024) ≠ 0#32 := by
    intro hz
    exact hne (hwm.symm.trans (pteWord_of_no_pde (hword.trans hz)))
  have hread : readUvpt d n { s with pm := m } = .ok (.returns w { s with pm := m }) := by
    unfold readUvpt
    rw [uvpt_eq hinv hs.dir hn hpde, hwm]
  have hp : w &&& pteP ≠ 0#32 := by
    have hpresent := hinv.pte_perm cur _ _ (by rw [hwm]; exact hne)
    rw [hwm] at hpresent
    rw [hpresent]
    decide
  unfold dupOrShare
  rw [bind_returns hread, if_neg hp]

/-- The turn of page `n` is over, or it ended in a panic because memory has run out. -/
def TurnEnds (M : Machine) (K : Nat → Prop) (s : KState) (cur e n : Nat)
    (x : Except Stop (UserEnd Unit)) : Prop :=
  (∃ m, x = .ok (.returns () { s with pm := m }) ∧ Duplicated M K s cur e (n + 1) m) ∨
    ∃ msg m, x = .ok (.panics msg (-eNoMem) { s with pm := m }) ∧ m.pageFreeList = none

theorem Duplicated.skip (h : Duplicated M K s cur e n m)
    (hw : pteWord s.pm s.dirs cur (n / 1024) (n % 1024) = 0#32) :
    Duplicated M K s cur e (n + 1) m := by
  refine ⟨h.pages, h.others, fun i j hij => h.pending i j (by omega), fun i j hj hij => ?_, h.mem⟩
  by_cases hlt : i * 1024 + j < n
  · exact h.done i j hj hlt
  · obtain rfl : i = n / 1024 := by omega
    obtain rfl : j = n % 1024 := by omega
    exact .unmapped hw (h.pending _ _ (by omega))

/-- The turn of a page that is shared. -/
theorem Duplicated.share (h : Duplicated M K s cur e n m) (hs : ForkStart M K s cur d e envid)
    (hn : n < pnumEnd) (hw : pteWord s.pm s.dirs cur (n / 1024) (n % 1024) = w)
    (hne : w ≠ 0#32) (hshare : w &&& pteW = 0#32 ∨ w &&& (ptePcd ||| ptePwt) ≠ 0#32) :
    (∃ m', dupOrShare M cur d envid n (pteP ||| pteU ||| pteW) { s with pm := m } =
      .ok (.returns () { s with pm := m' }) ∧ Duplicated M K s cur e (n + 1) m') ∨
    m.pageFreeList = none ∧ ∃ msg, dupOrShare M cur d envid n (pteP ||| pteU ||| pteW)
      { s with pm := m } = .ok (.panics msg (-eNoMem) { s with pm := m }) := by
  obtain ⟨free, hinv⟩ := h.pages
  obtain ⟨dd, hdd⟩ := Option.ne_none_iff_exists'.mp hs.childDir
  obtain ⟨hva, hpdx, hptx⟩ := pnumAddr_spec hn
  have hold : wordAt { s with pm := m } cur (pnumAddr n) = w := by
    show pteWord m s.dirs cur (pdx (pnumAddr n)) (ptx (pnumAddr n)) = w
    rw [hpdx, hptx, h.others cur _ _ hs.ne.symm, hw]
  have htgt : target s.pm s.dirs (.pte cur (n / 1024) (n % 1024)) = some (pgnum w) := by
    show entry (pteWord s.pm s.dirs cur (n / 1024) (n % 1024)) = _
    rw [hw]
    exact entry_of_ne hne
  rcases PageInv.sysPageMap_cases (s := { s with pm := m }) hinv
    (dupPerm (pteP ||| pteU ||| pteW) w) (envid2env_zero true) hs.child hs.dir hdd hva hva
    (by rw [hold]; exact hne) (fun hp => by rw [hold]; exact (dupPerm_write w).mp hp)
    (toNat_dupPerm w) (by rw [hold]; exact h.refs_lt hs htgt) with
    ⟨hnil, -, hcall⟩ | ⟨m', free', hcall, hinv', hpte, hmem⟩
  · refine .inr ⟨hinv.free_eq_nil_iff.mp hnil, "dup_or_share: sys_page_map", ?_⟩
    rw [dupOrShare_mapped h hs hn hw hne, if_pos hshare]
    exact bind_panics (orPanic_panics hcall (by decide))
  rw [hold, hpdx, hptx] at hpte
  have hm : Mapped M K s.dirs e (n / 1024) (n % 1024) _ m m' :=
    ⟨⟨free', hinv'⟩, hpte, fun e' i' j' q hq => hmem q (hinv.data_of_pte hq)⟩
  have hno : ¬ CopiedEntry w := fun hcopy => hshare.elim hcopy.1 fun hdev => hdev hcopy.2
  refine .inl ⟨m', ?_, h.mapped hm ?_ ?_⟩
  · rw [dupOrShare_mapped h hs hn hw hne, if_pos hshare]
    exact bind_returns (orPanic_returns hcall (by decide))
  · refine .shared (by rw [hw]; exact hne) (by rw [hw]; exact hno) ?_
    rw [hw]
    exact hm.pte_self
  · intro i j p hp hall
    rw [entry_page (pgnum_lt w) (pgnum_sharePerm w)] at hp
    obtain rfl := Option.some.inj hp
    cases (hall _).mp ((target_pte_congr (h.others cur _ _ hs.ne.symm)).trans htgt)
    exact hs.ne rfl

/-- `dupCopy` behind its `sys_page_alloc`. -/
def scratchCopy (M : Machine) (cur d : Nat) (envid addr perm : Word) : UserLib Unit := do
  let _ ← orPanic "dup_or_share: sys_page_map" fun s =>
    sysPageMap M s cur envid addr 0#32 utemp perm
  memmovePage d utemp addr
  let _ ← orPanic "sys_page_unmap" fun s => sysPageUnmap M s cur 0#32 utemp
  pure ()

theorem utemp_ok : ¬ badVa utemp := by decide

theorem aligned_of_not_badVa {va : Word} (h : ¬ badVa va) : va.toNat % 4096 = 0 := by
  have hal := congrArg BitVec.toNat (not_not.mp (not_or.mp h).2)
  rwa [BitVec.toNat_umod] at hal

/-- The entries of `sys_page_alloc` and `sys_page_map` when they are asked for `PTE_W`. -/
theorem write_entry (a : Word) : a ||| (pteW ||| pteU ||| pteP) ||| pteP = a ||| userStore ∧
    a ||| (pteP ||| pteU ||| pteW) ||| pteP = a ||| userStore := by
  constructor
  · rw [BitVec.or_assoc, show pteW ||| pteU ||| pteP ||| pteP = userStore by decide]
  · rw [BitVec.or_assoc, show pteP ||| pteU ||| pteW ||| pteP = userStore by decide]

/-- The scratch mapping fills page `p` of the child from the page of the parent, and goes
away. -/
theorem scratchCopy_cases {p : Nat} {free : List Nat} {addr : Word}
    (hinv : PageInv M K m s.dirs free fun _ => 0) (hs : ForkStart M K s cur d e envid)
    (haddr : ¬ badVa addr) (hp : p < 2 ^ 20)
    (hword : pteWord m s.dirs e (pdx addr) (ptx addr) = page2pa p ||| userStore)
    (hrefs : refs slots (target m s.dirs) p = 1)
    (htemp : pteWord m s.dirs cur (pdx utemp) (ptx utemp) = 0#32)
    (hread : translate m d userLoad addr = some q) (hqp : q ≠ p) :
    (∃ msg, scratchCopy M cur d envid addr pteW { s with pm := m } =
      .ok (.panics msg (-eNoMem) { s with pm := m }) ∧ m.pageFreeList = none) ∨
    ∃ m' free', scratchCopy M cur d envid addr pteW { s with pm := m } =
        .ok (.returns () { s with pm := m' }) ∧ PageInv M K m' s.dirs free' (fun _ => 0) ∧
      (∀ e' i j, pteWord m' s.dirs e' i j = pteWord m s.dirs e' i j) ∧
      (∀ k, k < 1024 → m'.mem p k = m.mem q k) ∧
      ∀ e' i j r, target m s.dirs (.pte e' i j) = some r → r ≠ p → m'.mem r = m.mem r := by
  obtain ⟨dd, hdd⟩ := Option.ne_none_iff_exists'.mp hs.childDir
  obtain ⟨hne, hpg, hentry, hwrite⟩ := entry_store hp
  have hold : wordAt { s with pm := m } e addr = page2pa p ||| userStore := hword
  have hi : pdx utemp < pdxUtop := by decide
  have hai := Calling.pdx_of_not_badVa haddr
  rcases PageInv.sysPageMap_cases (s := { s with pm := m }) hinv pteW hs.child
    (envid2env_zero true) hdd hs.dir haddr utemp_ok (by rw [hold]; exact hne)
    (fun _ => by rw [hold]; exact hwrite) (by decide)
    (by rw [hold, hpg]; exact lt_of_eq_of_lt hrefs (by decide)) with
    ⟨hnil, -, hcall⟩ | ⟨m₁, free₁, hcall, hinv₁, hpte₁, hmem₁⟩
  · exact .inl ⟨_, bind_panics (orPanic_panics hcall (by decide)),
      hinv.free_eq_nil_iff.mp hnil⟩
  rw [hold, hpg, (write_entry _).2] at hpte₁
  replace hinv₁ : PageInv M K m₁ s.dirs free₁ fun _ => 0 := hinv₁
  replace hpte₁ : ∀ e' i j, pteWord m₁ s.dirs e' i j =
      if e' = cur ∧ i = pdx utemp ∧ j = ptx utemp then page2pa p ||| userStore
      else pteWord m s.dirs e' i j := hpte₁
  -- What was mapped in `m` is mapped in `m₁`: the scratch slot was empty.
  have hkeep (e' i j : Nat) (r : Nat) (hr : target m s.dirs (.pte e' i j) = some r) :
      target m₁ s.dirs (.pte e' i j) = some r := by
    refine (congrArg entry ((hpte₁ e' i j).trans (if_neg ?_))).trans hr
    rintro ⟨rfl, rfl, rfl⟩
    rw [target, htemp] at hr
    cases hr
  have htgt := hinv.translate_target hs.dir hai (by decide) (by decide) hread
  have hslot : ¬ (pdx addr = pdx utemp ∧ ptx addr = ptx utemp) := by
    intro hsame
    rw [hsame.1, hsame.2, target, htemp] at htgt
    cases htgt
  have hstore : translate m₁ d userStore utemp = some p := by
    rw [hinv₁.translate_eq hs.dir hi (by decide) (by decide),
      (hpte₁ _ _ _).trans (if_pos ⟨rfl, rfl, rfl⟩), if_pos (or_and_self _ _), hpg]
  have hread₁ : translate m₁ d userLoad addr = some q := by
    have hsame : pteWord m₁ s.dirs cur (pdx addr) (ptx addr) =
        pteWord m s.dirs cur (pdx addr) (ptx addr) :=
      (hpte₁ _ _ _).trans (if_neg fun hsame => hslot hsame.2)
    rw [hinv₁.translate_eq hs.dir hai (by decide) (by decide), hsame]
    exact (hinv.translate_eq hs.dir hai (by decide) (by decide)).symm.trans hread
  obtain ⟨m₂, hframe, -, hcopy⟩ := hinv₁.movsl_spec (n := nptentries) (k := 0) hs.dir
    (show utemp.toNat % 4096 = 0 by decide) hi hstore addr (by decide)
  obtain ⟨hok, hmem₂⟩ := hcopy q (aligned_of_not_badVa haddr) hai hread₁ hqp
  have hmove : memmovePage d utemp addr { s with pm := m₁ } =
      .ok (.returns () { s with pm := m₂ }) := by
    unfold memmovePage
    rw [hok]
  obtain ⟨m₃, free₃, hunmap, hinv₃, hpte₃, hmem₃⟩ := PageInv.sysPageUnmap_spec
    (s := { s with pm := m₂ }) hframe.inv (envid2env_zero true) hs.dir utemp_ok
  have hkeep₂ (e' i j : Nat) (r : Nat) (hr : target m s.dirs (.pte e' i j) = some r) :
      Data m₂ s.dirs free₁ r := by
    refine hframe.inv.data_of_pte (i := i) (j := j) (e := e') ?_
    exact (target_pte_congr (hframe.pte e' i j)).trans (hkeep e' i j r hr)
  refine .inr ⟨m₃, free₃, ?_, hinv₃, fun e' i j => ?_, fun k hk => ?_, fun e' i j r hr hne => ?_⟩
  · refine (bind_returns (orPanic_returns hcall (by decide))).trans ?_
    refine (bind_returns hmove).trans ?_
    exact bind_returns (orPanic_returns hunmap (by decide))
  · refine (hpte₃ e' i j).trans ?_
    split
    · rename_i hsame
      obtain ⟨rfl, rfl, rfl⟩ := hsame
      exact htemp.symm
    · rename_i hother
      exact (hframe.pte e' i j).trans ((hpte₁ e' i j).trans (if_neg hother))
  · have hself : target m s.dirs (.pte e (pdx addr) (ptx addr)) = some p :=
      (congrArg entry hword).trans hentry
    rw [hmem₃ p (hkeep₂ _ _ _ p hself), hmem₂, if_pos ⟨Nat.zero_le k, by unfold nptentries; omega⟩,
      hmem₁ q (hinv.data_of_pte htgt)]
  · rw [hmem₃ r (hkeep₂ e' i j r hr), hframe.mem r hne, hmem₁ r (hinv.data_of_pte hr)]

/-- The turn of a page that is copied. -/
theorem Duplicated.copy (h : Duplicated M K s cur e n m) (hs : ForkStart M K s cur d e envid)
    (hn : n < pnumEnd) (hw : pteWord s.pm s.dirs cur (n / 1024) (n % 1024) = w)
    (hcopy : CopiedEntry w) :
    TurnEnds M K s cur e n (dupCopy M cur d envid (pnumAddr n)
      (dupPerm (pteP ||| pteU ||| pteW) w) { s with pm := m }) := by
  obtain ⟨free, hinv⟩ := h.pages
  obtain ⟨dd, hdd⟩ := Option.ne_none_iff_exists'.mp hs.childDir
  obtain ⟨hva, hpdx, hptx⟩ := pnumAddr_spec hn
  have hai := Calling.pdx_of_not_badVa hva
  rw [dupPerm_copied hcopy]
  rcases PageInv.sysPageAlloc_cases (s := { s with pm := m }) hinv hs.child hdd hva
    (show PermOk pteW by decide) with
    ⟨-, m', hcall, hnil, -⟩ | ⟨-, m₁, free₁, p, hcall, hp, hinv₁, hpte₁, hmem₁⟩
  · exact .inr ⟨_, m', bind_panics (orPanic_panics hcall (by decide)), hnil⟩
  replace hinv₁ : PageInv M K m₁ s.dirs free₁ fun _ => 0 := hinv₁
  replace hpte₁ : ∀ e' i j, pteWord m₁ s.dirs e' i j =
      if e' = e ∧ i = pdx (pnumAddr n) ∧ j = ptx (pnumAddr n) then page2pa p ||| userStore
      else pteWord m s.dirs e' i j := (write_entry (page2pa p)).1 ▸ hpte₁
  have hplt := (hinv.free_pool p hp).lt
  obtain ⟨hne, hpg, hentry, -⟩ := entry_store hplt
  obtain ⟨-, hrefs⟩ := hinv.mapped_once hinv₁ hp hentry hs.childDir hai (ptx_lt _) hpte₁
  have hother (i j : Nat) : pteWord m₁ s.dirs cur i j = pteWord s.pm s.dirs cur i j :=
    ((hpte₁ cur i j).trans (if_neg fun hsame => hs.ne hsame.1.symm)).trans
      (h.others cur i j hs.ne.symm)
  obtain ⟨htemp, huser⟩ := hs.scratch (n / 1024) (n % 1024) (by rw [hw]; exact hcopy)
  -- The page of the parent, which the copy reads.
  have hwne : w ≠ 0#32 := by
    rintro rfl
    exact hcopy.1 (BitVec.zero_and)
  have htgt : target s.pm s.dirs (.pte cur (n / 1024) (n % 1024)) = some (pgnum w) :=
    (congrArg entry hw).trans (entry_of_ne hwne)
  have htgtm : target m s.dirs (.pte cur (n / 1024) (n % 1024)) = some (pgnum w) :=
    (target_pte_congr (h.others cur _ _ hs.ne.symm)).trans htgt
  have hqp : pgnum w ≠ p := fun heq => hinv.free_unref p hp _ (heq ▸ htgtm)
  have hread : translate m₁ d userLoad (pnumAddr n) = some (pgnum w) := by
    have hword : pteWord m₁ s.dirs cur (pdx (pnumAddr n)) (ptx (pnumAddr n)) = w := by
      rw [hpdx, hptx, hother, hw]
    have hload : w &&& userLoad = userLoad := by
      have hpresent := hinv₁.pte_perm cur _ _ (by rw [hword]; exact hwne)
      rw [hword] at hpresent
      rw [hw] at huser
      rw [show userLoad = pteP ||| pteU from rfl, BitVec.and_or_distrib_left, hpresent,
        (and_pteU w).resolve_left huser]
    rw [hinv₁.translate_eq hs.dir hai (by decide) (by decide), hword, if_pos hload]
  have hkeep (e' i j r : Nat) (hr : target m s.dirs (.pte e' i j) = some r) :
      target m₁ s.dirs (.pte e' i j) = some r ∧ r ≠ p := by
    refine ⟨(congrArg entry ((hpte₁ e' i j).trans (if_neg ?_))).trans hr, ?_⟩
    · rintro ⟨rfl, rfl, rfl⟩
      rw [target, hpdx, hptx, h.pending _ _ (by omega)] at hr
      cases hr
    · rintro rfl
      exact hinv.free_unref r hp _ hr
  rcases scratchCopy_cases hinv₁ hs hva hplt ((hpte₁ _ _ _).trans (if_pos ⟨rfl, rfl, rfl⟩)) hrefs
    ((hother _ _).trans htemp) hread hqp with
    ⟨msg, hrun, hnil⟩ | ⟨m', free', hrun, hinv', hpte, hcontents, hmem⟩
  · exact .inr ⟨msg, m₁, (bind_returns (orPanic_returns hcall (by decide))).trans hrun, hnil⟩
  rw [hpdx, hptx] at hpte₁
  have hm : Mapped M K s.dirs e (n / 1024) (n % 1024) (page2pa p ||| userStore) m m' := by
    refine ⟨⟨free', hinv'⟩, fun e' i j => (hpte e' i j).trans (hpte₁ e' i j),
      fun e' i j r hr => ?_⟩
    obtain ⟨hr₁, hrp⟩ := hkeep e' i j r hr
    rw [hmem e' i j r hr₁ hrp, hmem₁ r (hinv.data_of_pte hr)]
  refine .inl ⟨m', (bind_returns (orPanic_returns hcall (by decide))).trans hrun,
    h.mapped hm ?_ ?_⟩
  · obtain ⟨halone, -⟩ := hinv.mapped_once hinv' hp hentry hs.childDir (hpdx ▸ hai)
      (hptx ▸ ptx_lt _) hm.pte
    refine .copied p (by rw [hw]; exact hcopy) hplt hm.pte_self halone fun k hk => ?_
    rw [hcontents k hk, hmem₁ _ (hinv.data_of_pte htgtm), h.mem cur _ _ _ hs.ne.symm htgt, hw]
  · intro i j r hr hall
    rw [hentry] at hr
    obtain rfl := Option.some.inj hr
    exact hinv.free_unref p hp _ ((hall _).mpr rfl)

/-- The turn of an address without a page does nothing. -/
theorem forkV0Pages_unmapped {free : List Nat} (hinv : PageInv M K m s.dirs free fun _ => 0)
    (hdir : s.dirs cur = some d) (hn : n < pnumEnd)
    (hw : pteWord m s.dirs cur (n / 1024) (n % 1024) = 0#32) (k : Nat) :
    forkV0Pages M cur d envid (k + 1) n { s with pm := m } =
      forkV0Pages M cur d envid k (n + 1) { s with pm := m } := by
  obtain ⟨-, -, hskip⟩ := uvpd_test hinv hdir hn
  refine (bind_returns rfl).trans ?_
  by_cases hpde : uvpd m d (n / 1024) = 0#32
  · rw [if_pos (hskip.mpr hpde)]
  · rw [if_neg fun htest => hpde (hskip.mp htest)]
    have hread : readUvpt d n { s with pm := m } = .ok (.returns 0#32 { s with pm := m }) := by
      unfold readUvpt
      rw [uvpt_eq hinv hdir hn hpde, hw]
    have hturn : dupOrShare M cur d envid n (pteP ||| pteU ||| pteW) { s with pm := m } =
        .ok (.returns () { s with pm := m }) := by
      unfold dupOrShare
      rw [bind_returns hread, if_pos BitVec.zero_and]
      rfl
    exact bind_returns hturn

/-- The turn of an address with a page is that of `dup_or_share`. -/
theorem forkV0Pages_mapped {free : List Nat} (hinv : PageInv M K m s.dirs free fun _ => 0)
    (hdir : s.dirs cur = some d) (hn : n < pnumEnd)
    (hw : pteWord m s.dirs cur (n / 1024) (n % 1024) ≠ 0#32) (envid : Word) (k : Nat) :
    forkV0Pages M cur d envid (k + 1) n { s with pm := m } =
      (dupOrShare M cur d envid n (pteP ||| pteU ||| pteW) >>= fun _ =>
        forkV0Pages M cur d envid k (n + 1)) { s with pm := m } := by
  obtain ⟨hword, -, hskip⟩ := uvpd_test hinv hdir hn
  refine (bind_returns rfl).trans ?_
  rw [if_neg fun htest => hw (pteWord_of_no_pde (hword.trans (hskip.mp htest)))]

/-- The turn of an address with a page. -/
theorem Duplicated.turn (h : Duplicated M K s cur e n m) (hs : ForkStart M K s cur d e envid)
    (hn : n < pnumEnd) (hw : pteWord s.pm s.dirs cur (n / 1024) (n % 1024) = w)
    (hne : w ≠ 0#32) :
    TurnEnds M K s cur e n (dupOrShare M cur d envid n (pteP ||| pteU ||| pteW)
      { s with pm := m }) := by
  by_cases hshare : w &&& pteW = 0#32 ∨ w &&& (ptePcd ||| ptePwt) ≠ 0#32
  · rcases h.share hs hn hw hne hshare with hdone | ⟨hnil, msg, hrun⟩
    · exact .inl hdone
    · exact .inr ⟨msg, m, hrun, hnil⟩
  · rw [dupOrShare_mapped h hs hn hw hne, if_neg hshare]
    rw [not_or, not_not] at hshare
    exact h.copy hs hn hw hshare

/-- Turns of addresses without a page do nothing. -/
theorem forkV0Pages_skip (hs : ForkStart M K s cur d e envid) (j k : Nat)
    (h : Duplicated M K s cur e n m) (hend : n + j ≤ pnumEnd)
    (hz : ∀ x, n ≤ x → x < n + j → pteWord s.pm s.dirs cur (x / 1024) (x % 1024) = 0#32) :
    forkV0Pages M cur d envid (j + k) n { s with pm := m } =
      forkV0Pages M cur d envid k (n + j) { s with pm := m } ∧
      Duplicated M K s cur e (n + j) m := by
  induction j generalizing n with
  | zero =>
      rw [Nat.zero_add, Nat.add_zero]
      exact ⟨rfl, h⟩
  | succ j ih =>
      obtain ⟨free, hinv⟩ := h.pages
      have hw := hz n (le_refl n) (by omega)
      obtain ⟨hgo, hdup⟩ := ih (h.skip hw) (by omega) fun x hlo hhi => hz x (by omega) (by omega)
      rw [show j + 1 + k = j + k + 1 by omega, show n + (j + 1) = n + 1 + j by omega,
        forkV0Pages_unmapped hinv hs.dir (show n < pnumEnd by omega)
          ((h.others cur _ _ hs.ne.symm).trans hw)]
      exact ⟨hgo, hdup⟩

/-- The loop ends with the child complete, or in a panic. -/
theorem forkV0Pages_cases (hs : ForkStart M K s cur d e envid) (k : Nat)
    (h : Duplicated M K s cur e n m) (hk : n + k = pnumEnd) :
    (∃ m', forkV0Pages M cur d envid k n { s with pm := m } =
      .ok (.returns () { s with pm := m' }) ∧ Duplicated M K s cur e pnumEnd m') ∨
    ∃ msg m', forkV0Pages M cur d envid k n { s with pm := m } =
      .ok (.panics msg (-eNoMem) { s with pm := m' }) ∧ m'.pageFreeList = none := by
  induction k generalizing n m with
  | zero =>
      obtain rfl : n = pnumEnd := by omega
      exact .inl ⟨m, rfl, h⟩
  | succ k ih =>
      have hn : n < pnumEnd := by omega
      obtain ⟨free, hinv⟩ := h.pages
      have hsame := h.others cur (n / 1024) (n % 1024) hs.ne.symm
      by_cases hw : pteWord s.pm s.dirs cur (n / 1024) (n % 1024) = 0#32
      · rw [forkV0Pages_unmapped hinv hs.dir hn (hsame.trans hw)]
        exact ih (h.skip hw) (by omega)
      · rw [forkV0Pages_mapped hinv hs.dir hn (by rw [hsame]; exact hw)]
        rcases h.turn hs hn rfl hw with ⟨m₁, hrun, hdup⟩ | ⟨msg, m₁, hrun, hnil⟩
        · rw [bind_returns hrun]
          exact ih hdup (by omega)
        · exact .inr ⟨msg, m₁, bind_panics hrun, hnil⟩

/-- The child when the loop is over. -/
theorem Duplicated.childPages (h : Duplicated M K s cur e pnumEnd m) (hne : cur ≠ e)
    (hinv₀ : ∃ free, PageInv M K s.pm s.dirs free fun _ => 0) :
    ChildPages CopiedEntry s { s with pm := m } cur e := by
  obtain ⟨free₀, hinv₀⟩ := hinv₀
  have hcur (va : Word) : wordAt { s with pm := m } cur va = wordAt s cur va :=
    h.others cur _ _ hne
  have hmem (va : Word) (hw : wordAt s cur va ≠ 0#32) :
      m.mem (pgnum (wordAt s cur va)) = s.pm.mem (pgnum (wordAt s cur va)) :=
    h.mem cur (pdx va) (ptx va) _ hne (entry_of_ne hw)
  have hchild (va : Word) (hva : va < utop) : ChildEntry s cur e m (pdx va) (ptx va) := by
    refine h.done _ _ (ptx_lt va) ?_
    have hlt := (pdx_lt_pdxUtop_iff va).mpr hva
    have hptx : ptx va < 1024 := ptx_lt va
    rw [show pnumEnd = 977920 from rfl]
    unfold pdxUtop at hlt
    omega
  have hshared (w : Word) := entry_eq_some.mp (entry_page (pgnum_lt w) (pgnum_sharePerm w))
  refine ⟨fun va _ => hcur va, fun va _ => hmem va, fun va hva => ?_, fun va hva hw k hk => ?_,
    fun va hva hw => ?_, fun va hva hw hno => ?_⟩
  all_goals
    have hword : wordAt { s with pm := m } e va = pteWord m s.dirs e (pdx va) (ptx va) := rfl
    rw [hword]
  · cases hchild va hva with
    | unmapped hw hc => exact iff_of_true hc hw
    | shared hw hno hc => exact iff_of_false (by rw [hc]; exact (hshared _).1) hw
    | copied p hw hp hc halone hcontents =>
        refine iff_of_false (by rw [hc]; exact (entry_store hp).1) fun hz => hw.1 ?_
        rw [show pteWord s.pm s.dirs cur (pdx va) (ptx va) = 0#32 from hz]
        exact BitVec.zero_and
  · cases hchild va hva with
    | unmapped hz hc => exact absurd hz hw
    | shared _ hno hc =>
        rw [hc, (hshared _).2]
        exact congrFun (hmem va hw) k
    | copied p _ hp hc halone hcontents =>
        rw [hc, (entry_store hp).2.1]
        exact hcontents k hk
  · cases hchild va hva with
    | unmapped hz hc =>
        rw [show wordAt s cur va = 0#32 from hz] at hw
        exact absurd BitVec.zero_and hw.1
    | shared _ hno hc => exact absurd hw hno
    | copied p _ hp hc halone hcontents =>
        rw [hc]
        refine ⟨(entry_store hp).2.2.2, fun e' x _ hx => ?_⟩
        rw [(entry_store hp).2.2.1] at hx
        have heq := halone (.pte e' (pdx x) (ptx x)) hx
        rw [Slot.pte.injEq] at heq
        exact heq
  · cases hchild va hva with
    | unmapped hz hc => exact absurd hz hw
    | shared _ _ hc =>
        rw [hc]
        exact ⟨(hshared _).2, (writableEntry_share _ _).trans (dupPerm_write _)⟩
    | copied p hcopy hp hc halone hcontents => exact absurd hcopy hno

theorem ChildPages.congr {copied : Word → Prop} {s' s'' : KState}
    (h : ChildPages copied s s' cur e) (hpm : s''.pm = s'.pm) (hdirs : s''.dirs = s'.dirs) :
    ChildPages copied s s'' cur e := by
  have hword : wordAt s'' = wordAt s' := by
    funext e va
    unfold wordAt
    rw [hpm, hdirs]
  constructor
  · rw [hword]
    exact h.parent
  · rw [hpm]
    exact h.parentMem
  · rw [hword]
    exact h.mapped
  · rw [hword, hpm]
    exact h.contents
  · rw [hword]
    exact h.copies
  · rw [hword]
    exact h.shares

/-- `sys_exofork` leaves the pages of the parent alone. -/
theorem ChildPages.of_exofork {s₁ s' : KState} {free : List Nat}
    (hinv : PageInv M K s.pm s.dirs free fun _ => 0) (hx : Exoforked M K s cur e s₁)
    (h : ChildPages CopiedEntry s₁ s' cur e) : ChildPages CopiedEntry s s' cur e := by
  have hword (va : Word) : wordAt s₁ cur va = wordAt s cur va := hx.pte cur _ _
  have hmem (va : Word) (hw : wordAt s cur va ≠ 0#32) :
      s₁.pm.mem (pgnum (wordAt s cur va)) = s.pm.mem (pgnum (wordAt s cur va)) := by
    refine hx.mem free _ hinv (hinv.data_of_pte (e := cur) (i := pdx va) (j := ptx va) ?_).1
    exact entry_of_ne hw
  constructor
  · intro va hva
    rw [h.parent va hva, hword]
  · intro va hva hw
    have hsame := h.parentMem va hva (by rw [hword]; exact hw)
    rw [hword] at hsame
    rw [hsame, hmem va hw]
  · intro va hva
    rw [h.mapped va hva, hword]
  · intro va hva hw k hk
    rw [h.contents va hva (by rw [hword]; exact hw) k hk, hword, hmem va hw]
  · intro va hva hw
    exact h.copies va hva (by rw [hword]; exact hw)
  · intro va hva hw hno
    have hshare := h.shares va hva (by rw [hword]; exact hw) (by rw [hword]; exact hno)
    rwa [hword] at hshare

/-- What the loop starts from. -/
theorem Exoforked.start {s₁ : KState} (hinv : ∃ free, PageInv M K s.pm s.dirs free fun _ => 0)
    (hx : Exoforked M K s cur e s₁) (hdir : s.dirs cur = some d)
    (hfew : ∀ va, va < utop → wordAt s cur va ≠ 0#32 →
      (s.pm.ppRef (pgnum (wordAt s cur va))).toNat < 2 ^ 15)
    (hcopy : ∀ va, va < utop → CopiedEntry (wordAt s cur va) →
      wordAt s cur utemp = 0#32 ∧ wordAt s cur va &&& pteU ≠ 0#32) :
    ForkStart M K s₁ cur d e (s₁.envs e).envId := by
  obtain ⟨free, hinv⟩ := hinv
  obtain ⟨free₁, hinv₁⟩ := hx.base.pages
  have hslot (i j : Nat) (hne : pteWord s.pm s.dirs cur i j ≠ 0#32) :
      pgaddr i j 0 < utop ∧ wordAt s cur (pgaddr i j 0) = pteWord s.pm s.dirs cur i j := by
    obtain ⟨t, ht, hj, -⟩ := pteWord_ne_zero hne
    obtain ⟨_, -, hi, -⟩ := pdeWord_ne_zero (entry_eq_some.mp ht).1
    have hi' : i < 1024 := Nat.lt_trans hi (by decide)
    rw [← pdx_lt_pdxUtop_iff, wordAt, pdx_pgaddr hi' hj, ptx_pgaddr hi' hj]
    exact ⟨hi, rfl⟩
  refine ⟨hx.base.pages, ?_, hx.child, hx.dir, hx.ne, fun i j q hq => ?_, fun i j hc => ?_⟩
  · show (s₁.envs cur).envPgdir = some d
    rw [hx.others cur hx.ne.symm]
    exact hdir
  · have hold : target s.pm s.dirs (.pte cur i j) = some q :=
      (congrArg entry (hx.pte cur i j)).symm.trans hq
    obtain ⟨hne, hpg⟩ := entry_eq_some.mp hold
    obtain ⟨hva, hword⟩ := hslot i j hne
    have hcount := hfew _ hva (by rw [hword]; exact hne)
    rw [hword, hpg, hinv.count_eq (hinv.target_pool _ q hold).2.2] at hcount
    refine lt_of_le_of_lt (refs_mono fun x _ hxq => ?_) hcount
    have hpte : x.isPte := by
      rcases hinv₁.excl x _ q hxq hq with rfl | ⟨hpte, -⟩
      · trivial
      · exact hpte
    cases x with
    | dir _ => exact hpte.elim
    | pde _ _ => exact hpte.elim
    | pte e' i' j' => exact (congrArg entry (hx.pte e' i' j')).symm.trans hxq
  · rw [hx.pte] at hc ⊢
    have hne : pteWord s.pm s.dirs cur i j ≠ 0#32 := by
      intro hz
      rw [hz] at hc
      exact hc.1 BitVec.zero_and
    obtain ⟨hva, hword⟩ := hslot i j hne
    obtain ⟨htemp, huser⟩ := hcopy _ hva (by rw [hword]; exact hc)
    rw [hword] at huser
    exact ⟨(hx.pte cur _ _).trans htemp, huser⟩

/-- The child has nothing yet. -/
theorem Exoforked.duplicated {s₁ : KState} (hx : Exoforked M K s cur e s₁) :
    Duplicated M K s₁ cur e 0 s₁.pm := by
  refine ⟨hx.base.pages, fun _ _ _ _ => rfl, fun i j _ => ?_,
    fun _ _ _ hlt => absurd hlt (Nat.not_lt_zero _), fun _ _ _ _ _ _ => rfl⟩
  rw [hx.pte]
  refine pteWord_of_no_pde ?_
  unfold pdeWord
  rw [hx.fresh]

/-- `fork_v0` behind its `sys_exofork`. -/
theorem forkV0_exoforked {s₁ : KState} (hx : Exoforked M K s cur e s₁)
    (hcall : sysExofork M s cur = ((s₁.envs e).envId.toInt, s₁)) :
    forkV0 M cur d s = (forkV0Pages M cur d (s₁.envs e).envId pnumEnd 0 >>= fun _ =>
      orPanic "sys_env_set_status" (fun s =>
        .ok (sysEnvSetStatus s cur (s₁.envs e).envId 2#32)) >>= fun _ =>
          pure (s₁.envs e).envId.toInt) s₁ := by
  have hid : BitVec.ofInt 32 (s₁.envs e).envId.toInt = (s₁.envs e).envId := BitVec.ofInt_toInt
  refine (bind_returns (orPanic_returns (congrArg Except.ok hcall) hx.pos.le)).trans ?_
  rw [if_neg hx.pos.ne', hid]

/-- The child is made runnable once the loop is over. -/
theorem forkV0_returns {s₁ : KState} (hx : Exoforked M K s cur e s₁)
    (hcall : sysExofork M s cur = ((s₁.envs e).envId.toInt, s₁))
    (hrun : forkV0Pages M cur d (s₁.envs e).envId pnumEnd 0 s₁ =
      .ok (.returns () { s₁ with pm := m })) {s' : KState}
    (hs' : s' = ({ s₁ with pm := m } : KState).setStatus e .runnable) :
    forkV0 M cur d s = .ok (.returns (s'.envs e).envId.toInt s') := by
  have hstatus : sysEnvSetStatus { s₁ with pm := m } cur (s₁.envs e).envId 2#32 = (0, s') := by
    have hchild : envid2env { s₁ with pm := m } cur (s₁.envs e).envId true = .ok e := hx.child
    unfold sysEnvSetStatus settableStatus
    rw [if_pos rfl, hchild, hs']
  rw [forkV0_exoforked hx hcall, bind_returns hrun,
    bind_returns (orPanic_returns (congrArg Except.ok hstatus) (le_refl 0)), hs',
    KState.setStatus, KState.envs_setEnv_self]
  rfl

/-- `fork_v0` ends with the loop complete, or in a panic. -/
theorem forkV0_cases (h : BaseInv M K s) (hdir : (s.envs cur).envPgdir = some d)
    (hfew : ∀ va, va < utop → wordAt s cur va ≠ 0#32 →
      (s.pm.ppRef (pgnum (wordAt s cur va))).toNat < 2 ^ 15)
    (hcopy : ∀ va, va < utop → CopiedEntry (wordAt s cur va) →
      wordAt s cur utemp = 0#32 ∧ wordAt s cur va &&& pteU ≠ 0#32) :
    (∃ e s₁ m s', Exoforked M K s cur e s₁ ∧ Duplicated M K s₁ cur e pnumEnd m ∧
      s' = ({ s₁ with pm := m } : KState).setStatus e .runnable ∧
      forkV0 M cur d s = .ok (.returns (s'.envs e).envId.toInt s')) ∨
    ∃ msg r s', forkV0 M cur d s = .ok (.panics msg r s') ∧
      (r = -eNoFreeEnv ∧ s'.envFreeList = none ∨ r = -eNoMem ∧ s'.pm.pageFreeList = none) := by
  have hcur : s.dirs cur ≠ none := by
    rw [show s.dirs cur = some d from hdir]
    exact Option.some_ne_none d
  rcases h.sysExofork_cases hcur with ⟨r, hcall, hr⟩ | ⟨e, s₁, hcall, hx⟩
  · refine .inr ⟨"sys_exofork", r, s, ?_, hr⟩
    have hneg : r < 0 := by
      rcases hr with ⟨rfl, -⟩ | ⟨rfl, -⟩ <;> decide
    exact bind_panics (orPanic_panics (congrArg Except.ok hcall) hneg)
  have hs := hx.start h.pages hdir hfew hcopy
  rcases forkV0Pages_cases hs pnumEnd hx.duplicated (Nat.zero_add _) with
    ⟨m, hrun, hdup⟩ | ⟨msg, m, hrun, hnil⟩
  · exact .inl ⟨e, s₁, m, _, hx, hdup, rfl, forkV0_returns hx hcall hrun rfl⟩
  · exact .inr ⟨msg, _, _, (forkV0_exoforked hx hcall).trans (bind_panics hrun),
      .inr ⟨rfl, hnil⟩⟩

/-- `fork_v0`, when nothing that is to be copied is in the way of `UTEMP`. -/
theorem forkV0_child (h : BaseInv M K s) (hdir : (s.envs cur).envPgdir = some d)
    (hfew : ∀ va, va < utop → wordAt s cur va ≠ 0#32 →
      (s.pm.ppRef (pgnum (wordAt s cur va))).toNat < 2 ^ 15)
    (hcopy : ∀ va, va < utop → CopiedEntry (wordAt s cur va) →
      wordAt s cur utemp = 0#32 ∧ wordAt s cur va &&& pteU ≠ 0#32) :
    ForkV0Contract CopiedEntry M s cur d := by
  obtain ⟨free, hinv⟩ := h.pages
  rcases forkV0_cases h hdir hfew hcopy with ⟨e, s₁, m, s', hx, hdup, rfl, hrun⟩ | hpanic
  · refine .inl ⟨e, _, hx.fresh, hrun, ?_⟩
    refine .of_exofork hinv hx ((hdup.childPages hx.ne.symm hx.base.pages).congr rfl ?_)
    exact KState.dirs_setEnv (h := rfl)
  · exact .inr hpanic

end

/-! ## The first environment -/

/-- The first environment has a page for its stack, with entry `w`, and no other. -/
structure OnlyStack (s : KState) (w : Word) : Prop where
  dir : (s.envs 0).envPgdir = some 0x7FFF
  pde : ∀ i, i < pdxUtop → i ≠ 954 → s.pm.mem 0x7FFF i = 0#32
  table : s.pm.mem 0x7FFF 954 = 0x7FFD007#32
  pte : ∀ j, j < nptentries → j ≠ 1021 → s.pm.mem 0x7FFD j = 0#32
  page : s.pm.mem 0x7FFD 1021 = w
  ref : s.pm.ppRef 0x7FFE = 1#16

theorem OnlyStack.word {s : KState} {w : Word} (h : OnlyStack s w) (i j : Nat) :
    pteWord s.pm s.dirs 0 i j = if i = 954 ∧ j = 1021 then w else 0#32 := by
  have hdir : s.dirs 0 = some 0x7FFF := h.dir
  by_cases hi : i = 954
  · subst hi
    have hpde : pdeWord s.pm s.dirs 0 954 = 0x7FFD007#32 :=
      (pdeWord_of_dir hdir (by decide)).trans h.table
    have ht : entry (pdeWord s.pm s.dirs 0 954) = some 0x7FFD := by
      rw [hpde]
      decide
    by_cases hj : j < nptentries
    · rw [pteWord_of_pde ht hj]
      by_cases hj' : j = 1021
      · rw [if_pos ⟨rfl, hj'⟩, hj', h.page]
      · rw [if_neg fun hx => hj' hx.2, h.pte j hj hj']
    · rw [if_neg fun hx => hj (by rw [hx.2]; decide)]
      unfold pteWord
      rw [ht]
      exact if_neg hj
  · rw [if_neg fun hx => hi hx.1]
    refine pteWord_of_no_pde ?_
    by_cases hlt : i < pdxUtop
    · rw [pdeWord_of_dir hdir hlt, h.pde i hlt hi]
    · unfold pdeWord
      rw [hdir]
      exact if_neg hlt

theorem OnlyStack.few {s : KState} {w : Word} (h : OnlyStack s w) (hw : pgnum w = 0x7FFE)
    (va : Word) (hne : wordAt s 0 va ≠ 0#32) :
    wordAt s 0 va = w ∧ (s.pm.ppRef (pgnum (wordAt s 0 va))).toNat < 2 ^ 15 := by
  have hword := h.word (pdx va) (ptx va)
  by_cases hslot : pdx va = 954 ∧ ptx va = 1021
  · rw [if_pos hslot] at hword
    rw [show wordAt s 0 va = w from hword, hw, h.ref]
    exact ⟨rfl, by decide⟩
  · rw [if_neg hslot] at hword
    exact absurd hword hne

/-- A child of the first environment. -/
theorem forkV0_child_pc : ∃ s, BaseInv (pc .roundRobin) lowPages s ∧
    CopiedEntry (wordAt s 0 0xeebfd000#32) ∧
      ForkV0Contract CopiedEntry (pc .roundRobin) s 0 0x7FFF := by
  have hrun : (run (pc .roundRobin) [.create emptyImage, .start 0] pcBoot).any (fun s =>
      (s.envs 0).envPgdir = some 0x7FFF ∧
        (∀ i, i < pdxUtop → i ≠ 954 → s.pm.mem 0x7FFF i = 0#32) ∧
        s.pm.mem 0x7FFF 954 = 0x7FFD007#32 ∧
        (∀ j, j < nptentries → j ≠ 1021 → s.pm.mem 0x7FFD j = 0#32) ∧
        s.pm.mem 0x7FFD 1021 = 0x7FFE007#32 ∧ s.pm.ppRef 0x7FFE = 1#16) = true := by
    decide +kernel
  obtain ⟨s, hreach, hs⟩ := exists_reach (pcBoot_booted .roundRobin) fits_created hrun
  rw [decide_eq_true_eq] at hs
  obtain ⟨hdir, hpde, htable, hpte, hpage, href⟩ := hs
  have hs : OnlyStack s 0x7FFE007#32 := ⟨hdir, hpde, htable, hpte, hpage, href⟩
  have hbase := base_reach hreach
  have hstack : wordAt s 0 0xeebfd000#32 = 0x7FFE007#32 :=
    (hs.word _ _).trans (if_pos (by decide))
  have htemp : wordAt s 0 utemp = 0#32 := (hs.word _ _).trans (if_neg (by decide))
  refine ⟨s, hbase, by rw [hstack]; decide, forkV0_child hbase hdir (fun va _ hne => ?_)
    fun va _ hcopy => ⟨htemp, ?_⟩⟩
  · exact (hs.few (by decide) va hne).2
  · have hne : wordAt s 0 va ≠ 0#32 := by
      intro hz
      rw [hz] at hcopy
      exact hcopy.1 BitVec.zero_and
    rw [(hs.few (by decide) va hne).1]
    decide

/-- `sys_page_map` of the stack page onto itself, as a device. -/
def mapDevice : Event := call 0 5#32 0#32 0xeebfd000#32 0#32 0xeebfd000#32 0x12#32

/-- The loop shares the page of the stack when it is of a device. -/
theorem OnlyStack.pages_returns {s s₁ : KState} {w envid : Word} {e : Nat} {M : Machine}
    {K : Nat → Prop} (h : OnlyStack s w) (hw : w &&& (ptePcd ||| ptePwt) ≠ 0#32)
    (hx : Exoforked M K s 0 e s₁) (hs : ForkStart M K s₁ 0 0x7FFF e envid)
    (hfree : s₁.pm.pageFreeList ≠ none) :
    ∃ m, forkV0Pages M 0 0x7FFF envid pnumEnd 0 s₁ = .ok (.returns () { s₁ with pm := m }) ∧
      Duplicated M K s₁ 0 e pnumEnd m := by
  have hword (x : Nat) : pteWord s₁.pm s₁.dirs 0 (x / 1024) (x % 1024) =
      if x = 977917 then w else 0#32 := by
    rw [hx.pte, h.word]
    by_cases hx' : x = 977917
    · rw [if_pos hx', if_pos (by omega)]
    · rw [if_neg hx', if_neg (by omega)]
  have hne : w ≠ 0#32 := by
    rintro rfl
    exact hw BitVec.zero_and
  obtain ⟨hgo, hdup⟩ := forkV0Pages_skip hs 977917 3 hx.duplicated (by decide)
    fun x _ hlt => (hword x).trans (if_neg (by omega))
  rw [Nat.zero_add] at hgo hdup
  obtain ⟨free, hinv⟩ := hx.base.pages
  have hself : pteWord s₁.pm s₁.dirs 0 (977917 / 1024) (977917 % 1024) = w :=
    (hword 977917).trans (if_pos rfl)
  have hturn := forkV0Pages_mapped (M := M) hinv hs.dir (show 977917 < pnumEnd by decide)
    (by rw [hself]; exact hne) envid 2
  rcases hdup.share hs (by decide) hself hne (.inr hw) with ⟨m, hrun, hdup'⟩ | ⟨hnil, -⟩
  · obtain ⟨hrest, hdone⟩ := forkV0Pages_skip hs 2 0 hdup' (by decide)
      fun x hge _ => (hword x).trans (if_neg (by omega))
    refine ⟨m, ?_, hdone⟩
    rw [show pnumEnd = 977917 + 3 from rfl]
    exact hgo.trans (hturn.trans ((bind_returns hrun).trans hrest))
  · exact absurd hnil hfree

/-- A page with `PTE_W` that is shared has no private copy in the child. -/
theorem not_forkV0Contract_of_device {s s₁ : KState} {w : Word} {e : Nat} {m : PMap} {M : Machine}
    {K : Nat → Prop} (h : OnlyStack s w) (hw : WritableEntry w) (hdev : ¬ CopiedEntry w)
    (hx : Exoforked M K s 0 e s₁) (hdup : Duplicated M K s₁ 0 e pnumEnd m) {s' : KState}
    (hs' : s' = ({ s₁ with pm := m } : KState).setStatus e .runnable)
    (hrun : forkV0 M 0 0x7FFF s = .ok (.returns (s'.envs e).envId.toInt s')) :
    ¬ ForkV0Contract WritableEntry M s 0 0x7FFF := by
  have hdirs : s'.dirs = s₁.dirs := by
    rw [hs']
    exact KState.dirs_setEnv (h := rfl)
  have hpm : s'.pm = m := by
    rw [hs']
    rfl
  have hword (e' : Nat) (va : Word) : wordAt s' e' va = pteWord m s₁.dirs e' (pdx va) (ptx va) := by
    rw [wordAt, hpm, hdirs]
  have hparent : wordAt s 0 0xeebfd000#32 = w := (h.word _ _).trans (if_pos (by decide))
  have hold : pteWord s₁.pm s₁.dirs 0 (pdx 0xeebfd000#32) (ptx 0xeebfd000#32) = w :=
    (hx.pte _ _ _).trans hparent
  rintro (⟨e', s'', hfresh, hrun', hpages⟩ | ⟨msg, r, s'', hrun', -⟩)
  · rw [hrun] at hrun'
    obtain rfl : s' = s'' := (UserEnd.returns.inj (Except.ok.inj hrun')).2
    obtain ⟨hwrite, halone⟩ := hpages.copies 0xeebfd000#32 (by decide) (by rw [hparent]; exact hw)
    have he : e' = e := by
      by_contra hne
      refine hwrite ?_
      rw [hword, hdup.others e' _ _ hne, hx.pte]
      have hz : pteWord s.pm s.dirs e' (pdx 0xeebfd000#32) (ptx 0xeebfd000#32) = 0#32 := by
        refine pteWord_of_no_pde ?_
        unfold pdeWord
        rw [show s.dirs e' = none from hfresh]
      rw [hz]
      exact BitVec.zero_and
    subst he
    have hentry : entry (wordAt s' 0 0xeebfd000#32) = entry (wordAt s' e' 0xeebfd000#32) := by
      rw [hword, hword, hdup.others 0 _ _ hx.ne.symm, hold]
      cases hdup.done (pdx 0xeebfd000#32) (ptx 0xeebfd000#32) (by decide) (by decide) with
      | unmapped hz _ =>
          rw [hold] at hz
          rw [hz] at hw
          exact absurd BitVec.zero_and hw
      | shared hz hno hc =>
          rw [hc, hold, entry_page (pgnum_lt w) (pgnum_sharePerm w)]
          rw [hold] at hz
          exact entry_of_ne hz
      | copied p hcopy _ _ _ _ =>
          rw [hold] at hcopy
          exact absurd hcopy hdev
    exact hx.ne (halone 0 _ (by decide) hentry).1.symm
  · rw [hrun] at hrun'
    cases hrun'

/-- The page that `mapDevice` maps once more is mapped once. -/
theorem mapDevice_fits {s : KState} {free : List Nat} {tf : Trapframe}
    (hinv : PageInv (pc .roundRobin) lowPages s.pm s.dirs free fun _ => 0)
    (href : s.pm.ppRef 0x7FFE = 1#16) (hword : wordAt s 0 0xeebfd000#32 = 0x7FFE007#32) :
    MapFits (trapState s 0 0 tf) 0 0#32 0xeebfd000#32 0#32 0xeebfd000#32 0x12#32 := by
  intro _ _ src dst hsrc _ _
  obtain rfl : 0 = src := Except.ok.inj ((envid2env_zero true).symm.trans hsrc)
  have hcount := hinv.count_eq (p := 0x7FFE) stackPage_not_low
  rw [href] at hcount
  intro _
  rw [wordAt_trapState, hword, dirs_trapState,
    show pgnum 0x7FFE007#32 = 0x7FFE by decide, ← show refs slots (target s.pm s.dirs) 0x7FFE =
      refs slots (target (trapState s 0 0 tf).pm s.dirs) 0x7FFE from rfl, ← hcount]
  exact ⟨by decide, by decide⟩

/-- The stack page of the first environment is a device page, which its child shares. -/
theorem fork_v0_shares_device : ¬ ∀ s cur d,
    (kernel (pc .roundRobin) lowPages).Reach anyEvent s → s.curenv 0 = some cur →
      (s.envs cur).envPgdir = some d → ForkV0Contract WritableEntry (pc .roundRobin) s cur d := by
  intro hall
  have hrun : (run (pc .roundRobin) [.create emptyImage, .start 0] pcBoot).any (fun s =>
      s.pm.ppRef 0x7FFE = 1#16 ∧ wordAt s 0 0xeebfd000#32 = 0x7FFE007#32 ∧
      (harmless s mapDevice && (exec (pc .roundRobin) s mapDevice).any fun s =>
        s.curenv 0 = some 0 ∧ s.envFreeList ≠ none ∧ s.pm.pageFreeList ≠ none ∧
        (sysExofork (pc .roundRobin) s 0).2.pm.pageFreeList ≠ none ∧
        (s.envs 0).envPgdir = some 0x7FFF ∧
        (∀ i, i < pdxUtop → i ≠ 954 → s.pm.mem 0x7FFF i = 0#32) ∧
        s.pm.mem 0x7FFF 954 = 0x7FFD007#32 ∧
        (∀ j, j < nptentries → j ≠ 1021 → s.pm.mem 0x7FFD j = 0#32) ∧
        s.pm.mem 0x7FFD 1021 = 0x7FFE017#32 ∧ s.pm.ppRef 0x7FFE = 1#16)) = true := by
    decide +kernel
  obtain ⟨s₀, hreach₀, hs⟩ := exists_reach (pcBoot_booted .roundRobin)
    (fits_created (M := pc .roundRobin)) hrun
  rw [decide_eq_true_eq, Bool.and_eq_true, Option.any_eq_true] at hs
  obtain ⟨href₀, hword₀, hharmless, s, hexec, hs⟩ := hs
  rw [decide_eq_true_eq] at hs
  obtain ⟨hcur, henvs, hpages, hfree, hdir, hpde, htable, hpte, hpage, href⟩ := hs
  have hs : OnlyStack s 0x7FFE017#32 := ⟨hdir, hpde, htable, hpte, hpage, href⟩
  obtain ⟨free₀, hinv₀⟩ := (base_reach hreach₀).pages
  have hguard : Fits s₀ mapDevice ∧ FreesOwn (pc .roundRobin) s₀ mapDevice := by
    unfold harmless mapDevice call at hharmless
    rw [decide_eq_true_eq] at hharmless
    obtain ⟨_, hcur₀, hst₀, hnone⟩ := hharmless
    exact guard_of_trap hcur₀ (by decide) (by rw [hst₀]; decide)
      (mapDevice_fits hinv₀ href₀ hword₀) hnone
  have hreach := reach_exec mapDevice hreach₀ hguard hexec
  have hbase := base_reach hreach
  rcases hbase.sysExofork_cases (show s.dirs 0 ≠ none by
    rw [show s.dirs 0 = some 0x7FFF from hdir]
    exact Option.some_ne_none _) with
    ⟨r, -, ⟨-, hnil⟩ | ⟨-, hnil⟩⟩ | ⟨e, s₁, hcall, hx⟩
  · exact henvs hnil
  · exact hpages hnil
  have hstart := hx.start hbase.pages hdir (fun va _ hne => (hs.few (by decide) va hne).2)
    fun va _ hcopy => by
      rw [(hs.few (by decide) va fun hz => hcopy.1 (by rw [hz]; exact BitVec.zero_and)).1] at hcopy
      exact absurd hcopy (by decide)
  rw [hcall] at hfree
  obtain ⟨m, hloop, hdup⟩ := hs.pages_returns (by decide) hx hstart hfree
  exact not_forkV0Contract_of_device hs (by decide) (by decide) hx hdup rfl
    (forkV0_returns hx hcall hloop rfl)
    (hall s 0 0x7FFF (hreach.mono fun _ _ _ => trivial) hcur hdir)

end Jos
end Sisop

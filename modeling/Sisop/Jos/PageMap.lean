import Sisop.Jos.Isolation

/-!
# What `sys_page_map` grants and refuses

The comment of `sys_page_map` lists the requests it refuses and their codes, and
one of them is a permission with bits outside `PTE_SYSCALL`.  The code does not
look at those bits.  It keeps to the comment exactly when the permission has none
of them, or when the request is refused for another reason.
-/

namespace Sisop
namespace Jos

open RefCount TransitionSystem

/-! ## `page_insert`, whatever is inserted -/

section

variable {M : Machine} {K : Nat → Prop} {m : PMap} {dirs : Nat → Option Nat}
  {free : List Nat} {held : Nat → Nat} {e d : Nat} {va : Word}

/-- A count goes down without a panic when the page is on no list. -/
theorem pageDecref_ok {p : Nat} (h : m.ppLink p = none) :
    ∃ m', pageDecref m p = .ok m' ∧ m'.mem = m.mem := by
  unfold pageDecref pageFree
  by_cases hz : m.ppRef p - 1#16 = 0#16
  · refine ⟨{ m.setRef p (m.ppRef p - 1#16) with
      ppLink := Function.update m.ppLink p m.pageFreeList, pageFreeList := some p }, ?_, rfl⟩
    simp [PMap.setRef, hz, h]
  · refine ⟨m.setRef p (m.ppRef p - 1#16), ?_, rfl⟩
    simp [PMap.setRef, hz]

theorem write_write_mem (m : PMap) (x : PtePtr) (v w : Word) :
    ((m.write x v).write x w).mem = (m.write x w).mem := by
  simp [PMap.write]

namespace PageInv

/-- A directory keeps its kernel half when a page table is made. -/
theorem pgdirGrow_kernel {t : Nat} (h : PageInv M K m dirs (t :: free) held)
    (hi : pdx va < pdxUtop) {e' d' i : Nat} (hd' : dirs e' = some d') (hk : pdxUtop ≤ i) :
    (pgdirGrow m d va true).mem d' i = m.mem d' i := by
  obtain ⟨m₁, halloc, -, -, -, -, -, -, hmem, -, -⟩ := h.pageAlloc_cons allocZero
  have hdt : d' ≠ t := fun heq => h.free_unref t List.mem_cons_self (.dir e') (heq ▸ hd')
  unfold pgdirGrow
  split
  · rw [halloc]
    dsimp only
    by_cases hdd : d' = d
    · rw [hdd, mem_write_of_index_ne (by omega), mem_incref, hmem d (hdd ▸ hdt)]
    · rw [mem_write_of_page_ne hdd, mem_incref, hmem d' hdt]
  · rfl

/-- `pgdir_walk` that may make a page table, where there is one or memory for one. -/
theorem pgdirWalk_room (h : PageInv M K m dirs free held) (hd : dirs e = some d)
    (hi : pdx va < pdxUtop) (hroom : free = [] → pdeWord m dirs e (pdx va) ≠ 0#32) :
    ∃ m₁ t free₁, pgdirWalk M m (some d) va true = .ok (some ⟨t, ptx va⟩, m₁) ∧
      PageInv M K m₁ dirs free₁ held ∧ entry (pdeWord m₁ dirs e (pdx va)) = some t ∧
      (∀ e' i' j', pteWord m₁ dirs e' i' j' = pteWord m dirs e' i' j') ∧
      ∀ e' d' i, dirs e' = some d' → pdxUtop ≤ i → m₁.mem d' i = m.mem d' i := by
  by_cases hz : pdeWord m dirs e (pdx va) = 0#32
  · cases free with
    | nil => exact absurd hz (hroom rfl)
    | cons t free₁ =>
        obtain ⟨h₁, hpde, hpte, -, -⟩ := h.pgdirGrow_new hd hi hz
        refine ⟨_, t, free₁, h.pgdirWalk_new hd hi hz, h₁, ?_, hpte,
          fun e' d' i hd' hk => h.pgdirGrow_kernel hi hd' hk⟩
        rw [hpde, if_pos ⟨rfl, rfl⟩]
        exact (tableEntry (h.free_pool t List.mem_cons_self).lt).1
  · exact ⟨m, _, free, h.pgdirWalk_table hd hi (entry_of_ne hz) true, h, entry_of_ne hz,
      fun _ _ _ => rfl, fun _ _ _ _ _ => rfl⟩

/-- `page_remove` between the two halves of `page_insert` writes no word but the
entry. -/
theorem pageRemove_incref (h : PageInv M K m dirs free held) (hd : dirs e = some d)
    (hi : pdx va < pdxUtop) {t : Nat} (ht : entry (pdeWord m dirs e (pdx va)) = some t) (pp : Nat) :
    ∃ m', pageRemove M (m.incref pp) (some d) va = .ok m' ∧
      ∀ w, (m'.write ⟨t, ptx va⟩ w).mem = (m.write ⟨t, ptx va⟩ w).mem := by
  have hmem : (m.incref pp).mem = m.mem := rfl
  by_cases hz : pteWord m dirs e (pdx va) (ptx va) = 0#32
  · refine ⟨m.incref pp, ?_, fun w => rfl⟩
    simp only [pageRemove, (pageLookup_mem hmem).trans (h.pageLookup_none hd hi hz),
      Except.ok_bind_eq]
    rfl
  · obtain ⟨t', ht', -, hlook⟩ := h.pageLookup_some hd hi hz
    rw [ht] at ht'
    cases ht'
    have hold := entry_of_ne hz
    have hpool := h.target_pool (.pte e (pdx va) (ptx va)) _ hold
    have hfree : pgnum (pteWord m dirs e (pdx va) (ptx va)) ∉ free :=
      fun hin => h.free_unref _ hin (.pte e (pdx va) (ptx va)) hold
    obtain ⟨m₂, hdec, hmem₂⟩ := pageDecref_ok (m := m.incref pp) (h.link_none _ hpool hfree)
    refine ⟨m₂.write ⟨t, ptx va⟩ 0#32, ?_, fun w => ?_⟩
    · simp only [pageRemove, (pageLookup_mem hmem).trans hlook, Except.ok_bind_eq, hdec]
      rfl
    · rw [write_write_mem]
      simp only [PMap.write, hmem₂, hmem]

/-- `page_insert` of any page with any permission writes one entry, and keeps every
other one.  Counts may wrap and the page may be any page. -/
theorem pageInsert_words (h : PageInv M K m dirs free held) (hd : dirs e = some d)
    (hi : pdx va < pdxUtop) (hroom : free = [] → pdeWord m dirs e (pdx va) ≠ 0#32) (pp : Nat)
    (perm : Word) : ∃ m', pageInsert M m (some d) pp va perm = .ok (0, m') ∧
      (∀ e' i' j', pteWord m' dirs e' i' j' =
        if e' = e ∧ i' = pdx va ∧ j' = ptx va then page2pa pp ||| perm ||| pteP
        else pteWord m dirs e' i' j') ∧
      ∀ e' d' i, dirs e' = some d' → pdxUtop ≤ i → m'.mem d' i = m.mem d' i := by
  obtain ⟨m₁, t, free₁, hwalk, h₁, ht, hpte, hkern⟩ := h.pgdirWalk_room hd hi hroom
  obtain ⟨m₂, hremove, hmem⟩ := h₁.pageRemove_incref hd hi ht pp
  have hmem := hmem (page2pa pp ||| perm ||| pteP)
  refine ⟨m₂.write ⟨t, ptx va⟩ (page2pa pp ||| perm ||| pteP), ?_, fun e' i' j' => ?_,
    fun e' d' i hd' hk => ?_⟩
  · simp only [pageInsert, hwalk, Except.ok_bind_eq, hremove]
    rfl
  · rw [pteWord_congr (fun _ d _ => congrFun hmem d) fun _ _ t _ => congrFun hmem t,
      h₁.pteWord_write_pte ht (ptx_lt va), hpte]
  · rw [hmem, mem_write_of_page_ne (h₁.table_ne_dir ht hd'), hkern e' d' i hd' hk]

end PageInv

end

/-! ## The contract -/

/-- `perm` has no bit outside `PTE_SYSCALL`. -/
def PermOk (perm : Word) : Prop := perm &&& ~~~pteSyscall = 0#32

instance (perm : Word) : Decidable (PermOk perm) := inferInstanceAs (Decidable (_ = _))

/-- What a request has to meet besides the bits of its permission, with `src` and
`dst` the environments its ids name. -/
structure Granted (s : KState) (cur : Nat) (srcenvid srcva dstenvid dstva perm : Word)
    (src dst : Nat) : Prop where
  src_access : envid2env s cur srcenvid true = .ok src
  dst_access : envid2env s cur dstenvid true = .ok dst
  srcva_ok : ¬ badVa srcva
  dstva_ok : ¬ badVa dstva
  page : mapped s src srcva ≠ none
  writable : perm &&& pteW ≠ 0#32 → wordAt s src srcva &&& pteW ≠ 0#32
  room : tableAt s dst (pdx dstva) ≠ none ∨ s.pm.pageFreeList ≠ none

/-- The codes the comment of `sys_page_map` gives, each with what it is for. -/
inductive Documented (s : KState) (cur : Nat) (srcenvid srcva dstenvid dstva perm : Word) :
    Int → Prop
  | badEnv (h : (∀ e, envid2env s cur srcenvid true ≠ .ok e) ∨
      ∀ e, envid2env s cur dstenvid true ≠ .ok e) :
      Documented s cur srcenvid srcva dstenvid dstva perm (-eBadEnv)
  | badAddress (h : badVa srcva ∨ badVa dstva) :
      Documented s cur srcenvid srcva dstenvid dstva perm (-eInval)
  | badPerm (h : ¬ PermOk perm) : Documented s cur srcenvid srcva dstenvid dstva perm (-eInval)
  | unmapped (src : Nat) (hsrc : envid2env s cur srcenvid true = .ok src)
      (h : mapped s src srcva = none) :
      Documented s cur srcenvid srcva dstenvid dstva perm (-eInval)
  | readOnly (src : Nat) (hsrc : envid2env s cur srcenvid true = .ok src)
      (hw : perm &&& pteW ≠ 0#32) (h : wordAt s src srcva &&& pteW = 0#32) :
      Documented s cur srcenvid srcva dstenvid dstva perm (-eInval)
  | noMem (dst : Nat) (hdst : envid2env s cur dstenvid true = .ok dst)
      (ht : tableAt s dst (pdx dstva) = none) (hf : s.pm.pageFreeList = none) :
      Documented s cur srcenvid srcva dstenvid dstva perm (-eNoMem)

/-- The frame of `src` at `srcva` is mapped at `dstva` of `dst` with `perm|PTE_U|PTE_P`,
and nothing else is mapped otherwise than before. -/
structure Remapped (s s' : KState) (src : Nat) (srcva : Word) (dst : Nat) (dstva perm : Word) :
    Prop where
  entry : wordAt s' dst dstva =
    page2pa (pgnum (wordAt s src srcva)) ||| (perm ||| pteU ||| pteP)
  others : ∀ e va, ¬ (e = dst ∧ pdx va = pdx dstva ∧ ptx va = ptx dstva) →
    wordAt s' e va = wordAt s e va
  kernel : ∀ e d i, (s.envs e).envPgdir = some d → pdxUtop ≤ i → s'.pm.mem d i = s.pm.mem d i
  rest : s' = { s with pm := s'.pm }

/-- What the comment of `sys_page_map` promises of one call. -/
structure PageMapContract (M : Machine) (s : KState) (cur : Nat)
    (srcenvid srcva dstenvid dstva perm : Word) : Prop where
  maps : ∀ src dst, Granted s cur srcenvid srcva dstenvid dstva perm src dst → PermOk perm →
    ∃ s', sysPageMap M s cur srcenvid srcva dstenvid dstva perm = .ok (0, s') ∧
      Remapped s s' src srcva dst dstva perm
  refuses : (¬ ∃ src dst, Granted s cur srcenvid srcva dstenvid dstva perm src dst ∧
      PermOk perm) →
    ∃ r, sysPageMap M s cur srcenvid srcva dstenvid dstva perm = .ok (r, s) ∧ r < 0 ∧
      Documented s cur srcenvid srcva dstenvid dstva perm r

section

variable {M : Machine} {K : Nat → Prop} {s : KState} {cur src dst : Nat}
  {srcenvid srcva dstenvid dstva perm : Word}

/-- A word has a bit or does not. -/
theorem and_bit (v : Word) (k : Nat) : v &&& BitVec.twoPow 32 k = 0#32 ∨
    v &&& BitVec.twoPow 32 k = BitVec.twoPow 32 k := by
  rw [BitVec.and_twoPow]
  split
  · exact .inr rfl
  · exact .inl rfl

theorem and_pteW (v : Word) : v &&& pteW = 0#32 ∨ v &&& pteW = pteW := and_bit v 1

theorem and_pteU (v : Word) : v &&& pteU = 0#32 ∨ v &&& pteU = pteU := and_bit v 2

/-- The test of `env_page_map` on a writable mapping. -/
theorem writeTest_iff (perm w : Word) :
    (perm &&& pteW) &&& ~~~(pteW &&& w) ≠ 0#32 ↔ perm &&& pteW ≠ 0#32 ∧ w &&& pteW = 0#32 := by
  rw [BitVec.and_comm pteW w]
  rcases and_pteW perm with hp | hp <;> rcases and_pteW w with hw | hw <;> rw [hp, hw] <;> decide

theorem mapped_eq_none_iff {free : List Nat} {held : Nat → Nat} {e : Nat} {va : Word}
    (h : PageInv M K s.pm s.dirs free held) (hva : ¬ badVa va) :
    mapped s e va = none ↔ wordAt s e va = 0#32 := by
  rw [mapped_eq_target h (Calling.pdx_of_not_badVa hva)]
  exact entry_eq_none

theorem tableAt_eq_none_iff {free : List Nat} {held : Nat → Nat} {e : Nat} {va : Word}
    (h : PageInv M K s.pm s.dirs free held) (hva : ¬ badVa va) :
    tableAt s e (pdx va) = none ↔ pdeWord s.pm s.dirs e (pdx va) = 0#32 := by
  rw [tableAt_eq_target h (Calling.pdx_of_not_badVa hva)]
  exact entry_eq_none

/-- The list of free pages is empty when its head is. -/
theorem PageInv.free_eq_nil_iff {m : PMap} {dirs : Nat → Option Nat} {free : List Nat}
    {held : Nat → Nat} (h : PageInv M K m dirs free held) : free = [] ↔ m.pageFreeList = none := by
  constructor
  · intro hnil
    have hchain := h.chain
    rw [hnil] at hchain
    exact LinkChain.visits_nil.mp hchain
  · intro hnone
    have hchain := h.chain
    rw [hnone] at hchain
    exact LinkChain.eq_nil_of_none hchain

/-- Once the two ids and the two addresses pass, `sys_page_map` is `env_page_map`. -/
theorem sysPageMap_eq (hsrc : envid2env s cur srcenvid true = .ok src)
    (hdst : envid2env s cur dstenvid true = .ok dst) (hsva : ¬ badVa srcva)
    (hdva : ¬ badVa dstva) :
    sysPageMap M s cur srcenvid srcva dstenvid dstva perm =
      withPm s (envPageMap M s.pm (s.envs src).envPgdir srcva (s.envs dst).envPgdir dstva
        (pteP ||| pteU ||| perm)) := by
  unfold sysPageMap
  rw [if_neg hsva, if_neg hdva, hsrc]
  dsimp only
  rw [hdst]

/-- `env_page_map` of a page the source has, and may write if that is asked for. -/
theorem PageInv.envPageMap_insert {m : PMap} {dirs : Nat → Option Nat} {free : List Nat}
    {held : Nat → Nat} {e d : Nat} {dstdir : Option Nat} {va : Word}
    (h : PageInv M K m dirs free held) (hd : dirs e = some d) (hi : pdx va < pdxUtop)
    (hne : pteWord m dirs e (pdx va) (ptx va) ≠ 0#32)
    (hw : perm &&& pteW ≠ 0#32 → pteWord m dirs e (pdx va) (ptx va) &&& pteW ≠ 0#32) :
    envPageMap M m (some d) va dstdir dstva (pteP ||| pteU ||| perm) =
      pageInsert M m dstdir (pgnum (pteWord m dirs e (pdx va) (ptx va))) dstva
        (pteP ||| pteU ||| perm) := by
  obtain ⟨t, ht, hread, hlook⟩ := h.pageLookup_some hd hi hne
  have htest : ¬ ((pteP ||| pteU ||| perm) &&& pteW) &&&
      ~~~(pteW &&& m.read ⟨t, ptx va⟩) ≠ 0#32 := by
    rw [writeTest_iff, flags_and_pteW, show m.read ⟨t, ptx va⟩ = _ from hread]
    exact fun hboth => hw hboth.1 hboth.2
  unfold envPageMap
  rw [hlook, Except.ok_bind_eq]
  exact if_neg htest

/-- A request that meets everything but the bits of its permission is carried out,
whatever those bits are. -/
theorem Granted.maps (hg : Granted s cur srcenvid srcva dstenvid dstva perm src dst)
    (h : BaseInv M K s) (hcur : (s.envs cur).envPgdir ≠ none) :
    ∃ s', sysPageMap M s cur srcenvid srcva dstenvid dstva perm = .ok (0, s') ∧
      Remapped s s' src srcva dst dstva perm := by
  obtain ⟨sd, hsd⟩ := Option.ne_none_iff_exists'.mp (h.envid2env_dir hcur hg.src_access)
  obtain ⟨dd, hdd⟩ := Option.ne_none_iff_exists'.mp (h.envid2env_dir hcur hg.dst_access)
  obtain ⟨free, hp⟩ := h.pages
  have hsi := Calling.pdx_of_not_badVa hg.srcva_ok
  have hdi := Calling.pdx_of_not_badVa hg.dstva_ok
  have hpage : wordAt s src srcva ≠ 0#32 :=
    fun hz => hg.page ((mapped_eq_none_iff hp hg.srcva_ok).mpr hz)
  have hroom : free = [] → pdeWord s.pm s.dirs dst (pdx dstva) ≠ 0#32 := by
    intro hnil hz
    rcases hg.room with ht | hf
    · exact ht ((tableAt_eq_none_iff hp hg.dstva_ok).mpr hz)
    · exact hf (hp.free_eq_nil_iff.mp hnil)
  obtain ⟨m', hins, hwords, hkern⟩ := hp.pageInsert_words (show s.dirs dst = some dd from hdd) hdi
    hroom (pgnum (wordAt s src srcva)) (pteP ||| pteU ||| perm)
  refine ⟨{ s with pm := m' }, ?_, ?_, ?_, ?_, rfl⟩
  · rw [sysPageMap_eq hg.src_access hg.dst_access hg.srcva_ok hg.dstva_ok, hsd, hdd,
      hp.envPageMap_insert (show s.dirs src = some sd from hsd) hsi hpage hg.writable,
      show pteWord s.pm s.dirs src (pdx srcva) (ptx srcva) = wordAt s src srcva from rfl, hins]
    rfl
  · refine (hwords dst (pdx dstva) (ptx dstva)).trans ?_
    rw [if_pos ⟨rfl, rfl, rfl⟩]
    ext i hi
    simp only [BitVec.getElem_or]
    grind
  · intro e va hne
    exact (hwords e (pdx va) (ptx va)).trans (if_neg hne)
  · intro e d i hd hk
    exact hkern e d i hd hk

/-- A request that fails one of the other conditions changes nothing and gets the
code of one it fails. -/
theorem refused (h : BaseInv M K s) (hcur : (s.envs cur).envPgdir ≠ none)
    (hno : ¬ ∃ src dst, Granted s cur srcenvid srcva dstenvid dstva perm src dst) :
    ∃ r, sysPageMap M s cur srcenvid srcva dstenvid dstva perm = .ok (r, s) ∧ r < 0 ∧
      Documented s cur srcenvid srcva dstenvid dstva perm r := by
  by_cases hsva : badVa srcva
  · exact ⟨-eInval, if_pos hsva, eInval_neg, .badAddress (.inl hsva)⟩
  by_cases hdva : badVa dstva
  · refine ⟨-eInval, ?_, eInval_neg, .badAddress (.inr hdva)⟩
    unfold sysPageMap
    rw [if_neg hsva, if_pos hdva]
  cases hsrc : envid2env s cur srcenvid true with
  | error r =>
      have hr := envid2env_error hsrc
      refine ⟨r, ?_, envid2env_neg hsrc, ?_⟩
      · unfold sysPageMap
        rw [if_neg hsva, if_neg hdva, hsrc]
      · rw [hr]
        exact .badEnv (.inl fun e he => by rw [hsrc] at he; cases he)
  | ok src =>
  cases hdst : envid2env s cur dstenvid true with
  | error r =>
      have hr := envid2env_error hdst
      refine ⟨r, ?_, envid2env_neg hdst, ?_⟩
      · unfold sysPageMap
        rw [if_neg hsva, if_neg hdva, hsrc]
        dsimp only
        rw [hdst]
      · rw [hr]
        exact .badEnv (.inr fun e he => by rw [hdst] at he; cases he)
  | ok dst =>
  obtain ⟨sd, hsd⟩ := Option.ne_none_iff_exists'.mp (h.envid2env_dir hcur hsrc)
  obtain ⟨dd, hdd⟩ := Option.ne_none_iff_exists'.mp (h.envid2env_dir hcur hdst)
  obtain ⟨free, hp⟩ := h.pages
  have hsi := Calling.pdx_of_not_badVa hsva
  have hdi := Calling.pdx_of_not_badVa hdva
  rw [sysPageMap_eq hsrc hdst hsva hdva, hsd, hdd]
  by_cases hz : wordAt s src srcva = 0#32
  · refine ⟨-eInval, ?_, eInval_neg, .unmapped src hsrc ((mapped_eq_none_iff hp hsva).mpr hz)⟩
    unfold envPageMap
    rw [hp.pageLookup_none (show s.dirs src = some sd from hsd) hsi hz]
    rfl
  by_cases hw : perm &&& pteW ≠ 0#32 ∧ wordAt s src srcva &&& pteW = 0#32
  · refine ⟨-eInval, ?_, eInval_neg, .readOnly src hsrc hw.1 hw.2⟩
    obtain ⟨t, ht, hread, hlook⟩ := hp.pageLookup_some (show s.dirs src = some sd from hsd) hsi hz
    have htest : ((pteP ||| pteU ||| perm) &&& pteW) &&&
        ~~~(pteW &&& s.pm.read ⟨t, ptx srcva⟩) ≠ 0#32 := by
      rw [writeTest_iff, flags_and_pteW, show s.pm.read ⟨t, ptx srcva⟩ = _ from hread]
      exact hw
    unfold envPageMap
    rw [hlook, Except.ok_bind_eq]
    dsimp only
    rw [if_pos htest]
    rfl
  have hwrite : perm &&& pteW ≠ 0#32 → wordAt s src srcva &&& pteW ≠ 0#32 :=
    fun hpw h0 => hw ⟨hpw, h0⟩
  have hfull : tableAt s dst (pdx dstva) = none ∧ s.pm.pageFreeList = none := by
    by_contra hroom
    rw [not_and_or] at hroom
    exact hno ⟨src, dst, hsrc, hdst, hsva, hdva,
      fun hm => hz ((mapped_eq_none_iff hp hsva).mp hm), hwrite, hroom⟩
  refine ⟨-eNoMem, ?_, eNoMem_neg, .noMem dst hdst hfull.1 hfull.2⟩
  have hnil := hp.free_eq_nil_iff.mpr hfull.2
  rw [hp.envPageMap_insert (show s.dirs src = some sd from hsd) hsi hz hwrite]
  rw [hnil] at hp
  rw [hp.pageInsert_full (show s.dirs dst = some dd from hdd) hdi
    ((tableAt_eq_none_iff hp hdva).mp hfull.1)]
  rfl

/-- `sys_page_map` keeps to its comment exactly when the permission has no bit outside
`PTE_SYSCALL` or the request is refused for another reason. -/
theorem pageMapContract_iff (h : BaseInv M K s) (hcur : (s.envs cur).envPgdir ≠ none)
    (srcenvid srcva dstenvid dstva perm : Word) :
    PageMapContract M s cur srcenvid srcva dstenvid dstva perm ↔
      PermOk perm ∨ ¬ ∃ src dst, Granted s cur srcenvid srcva dstenvid dstva perm src dst := by
  constructor
  · intro hc
    by_contra hbad
    rw [not_or, not_not] at hbad
    obtain ⟨hperm, src, dst, hg⟩ := hbad
    obtain ⟨s', hok, _⟩ := hg.maps h hcur
    obtain ⟨r, hr, hneg, _⟩ := hc.refuses fun ⟨_, _, hboth⟩ => hperm hboth.2
    rw [hok] at hr
    have hzero : (0 : Int) = r := congrArg Prod.fst (Except.ok.inj hr)
    omega
  · intro hgood
    refine ⟨fun src dst hg _ => hg.maps h hcur, fun hno => refused h hcur ?_⟩
    rintro ⟨src, dst, hg⟩
    rcases hgood with hperm | hnone
    · exact hno ⟨src, dst, hg, hperm⟩
    · exact hnone ⟨src, dst, hg⟩

end

/-- The first environment maps its stack page once more. -/
theorem pageMapContract_pc : ∃ s, BaseInv (pc .roundRobin) lowPages s ∧
    mapped s 0 0xeebfd000#32 = some 0x7FFE ∧
    PageMapContract (pc .roundRobin) s 0 0#32 0xeebfd000#32 0#32 0x1000#32 7#32 := by
  have hrun : (run (pc .roundRobin) [.create emptyImage, .start 0] pcBoot).any (fun s =>
      mapped s 0 0xeebfd000#32 = some 0x7FFE ∧ (s.envs 0).envPgdir ≠ none) = true := by
    decide
  obtain ⟨s, hreach, hs⟩ := exists_reach (pcBoot_booted .roundRobin)
    fits_created hrun
  rw [decide_eq_true_eq] at hs
  have hbase := base_reach hreach
  exact ⟨s, hbase, hs.1, (pageMapContract_iff hbase hs.2 _ _ _ _ _).mpr (.inl (by decide))⟩

/-- A permission of `PTE_PWT`, which `PTE_SYSCALL` does not have, is mapped all the same. -/
theorem map_pwt : ¬ ∀ s cur srcenvid srcva dstenvid dstva perm,
    (kernel (pc .roundRobin) lowPages).Reach anyEvent s → s.curenv 0 = some cur →
    PageMapContract (pc .roundRobin) s cur srcenvid srcva dstenvid dstva perm := by
  intro hall
  have hrun : (run (pc .roundRobin) [.create emptyImage, .start 0] pcBoot).any (fun s =>
      s.curenv 0 = some 0 ∧ (sysPageMap (pc .roundRobin) s 0 0#32 0xeebfd000#32 0#32 0x1000#32
        8#32).toOption.any (fun x => x.1 = 0)) = true := by
    decide
  obtain ⟨s, hreach, hs⟩ := reach_of_any (pcBoot_booted .roundRobin) hrun
  rw [decide_eq_true_eq] at hs
  have hc := hall s 0 0#32 0xeebfd000#32 0#32 0x1000#32 8#32 hreach hs.1
  obtain ⟨r, hr, hneg, _⟩ := hc.refuses fun ⟨_, _, hboth⟩ => absurd hboth.2 (by decide)
  have hzero := hs.2
  rw [hr] at hzero
  simp only [Except.toOption, Option.any_some, decide_eq_true_eq] at hzero
  omega

end Jos
end Sisop

import Sisop.Jos.PageMap
import Sisop.Jos.EnvIds
import Sisop.Jos.Solo

/-!
# Calls that run out of memory

`sys_page_alloc` takes a page and then maps it, and the mapping may need one page
more for a page table.  When the page taken is the last one, `env_page_alloc`
returns the error of `page_insert` and forgets the page: it is on no list and in
no page table.  Every other failure of `sys_page_alloc`, and every failure of
`sys_exofork` and `env_alloc`, leaves everything as it was.
-/

namespace Sisop
namespace Jos

open RefCount TransitionSystem Exit

/-- `p` is on `page_free_list`. -/
def OnFreeList (m : PMap) (p : Nat) : Prop :=
  ∃ free, LinkChain.Visits m.ppLink m.pageFreeList free ∧ p ∈ free

/-- `t` left the free list and is an empty page table. -/
structure EmptyTable (s s' : KState) (t : Nat) : Prop where
  free : OnFreeList s.pm t
  taken : ¬ OnFreeList s'.pm t
  counted : s'.pm.ppRef t = 1#16
  table : ∃ e i, i < pdxUtop ∧ tableAt s' e i = some t
  empty : ∀ j, j < nptentries → s'.pm.mem t j = 0#32

/-- The free pages, the reference counts, the mappings below `UTOP` and the table of
environments are those of `s`, up to an added empty page table. -/
structure Restored (s s' : KState) : Prop where
  pages : ∃ t : Option Nat, (∀ p, t = some p → EmptyTable s s' p) ∧ ∀ p, t ≠ some p →
    (OnFreeList s'.pm p ↔ OnFreeList s.pm p) ∧ s'.pm.ppRef p = s.pm.ppRef p
  mappings : ∀ e va, va < utop → wordAt s' e va = wordAt s e va
  envs : s'.envs = s.envs
  envFreeList : s'.envFreeList = s.envFreeList

theorem Restored.refl (s : KState) : Restored s s :=
  ⟨⟨none, fun p hp => absurd hp (Option.some_ne_none p).symm, fun _ _ => ⟨Iff.rfl, rfl⟩⟩,
    fun _ _ _ => rfl, rfl, rfl⟩

/-- The calls that allocate, and `env_alloc` below them. -/
inductive AllocCall
  | pageAlloc (envid va perm : Word)
  | exofork
  | envAlloc (parentId : Word)

/-- The code a call returns and the state it leaves. -/
def AllocCall.outcome (M : Machine) (s : KState) (cur : Nat) :
    AllocCall → Except Stop (Int × KState)
  | .pageAlloc envid va perm => sysPageAlloc M s cur envid va perm
  | .exofork => .ok (sysExofork M s cur)
  | .envAlloc parentId =>
      match Jos.envAlloc M s parentId with
      | .error r => .ok (r, s)
      | .ok (_, s) => .ok (0, s)

/-- A negative code comes with nothing done. -/
def FailsClean (M : Machine) (s : KState) (cur : Nat) (call : AllocCall) : Prop :=
  ∀ r s', call.outcome M s cur = .ok (r, s') → r < 0 → Restored s s'

/-- `env_page_alloc` for environment `e` takes the last free page, and needs one more
for a page table. -/
structure LastPage (s : KState) (e : Nat) (va perm : Word) : Prop where
  perm_ok : PermOk perm
  last : ∃ p, LinkChain.Visits s.pm.ppLink s.pm.pageFreeList [p]
  noTable : tableAt s e (pdx va) = none

/-- `env_page_alloc` has the memory it needs. -/
def PageRoom (s : KState) (e : Nat) (va perm : Word) : Prop :=
  s.pm.pageFreeList ≠ none ∧ ¬ LastPage s e va perm

/-- The calls that lose a page. -/
def AllocCall.Leaks (s : KState) (cur : Nat) : AllocCall → Prop
  | .pageAlloc envid va perm =>
      ¬ badVa va ∧ ∃ e, envid2env s cur envid true = .ok e ∧ LastPage s e va perm
  | .exofork => False
  | .envAlloc _ => False

section

variable {M : Machine} {K : Nat → Prop} {s : KState} {cur e d : Nat} {m : PMap}
  {dirs : Nat → Option Nat} {free : List Nat} {va perm : Word}

theorem PageInv.onFreeList_iff {held : Nat → Nat} (h : PageInv M K m dirs free held) (p : Nat) :
    OnFreeList m p ↔ p ∈ free := by
  constructor
  · rintro ⟨free', hvis, hmem⟩
    rwa [LinkChain.unique hvis h.chain] at hmem
  · exact fun hmem => ⟨free, h.chain, hmem⟩

/-- `PTE_U|PTE_P`, which the calls add, pass the test of the permission. -/
theorem checkPerm_flags (perm : Word) :
    checkPerm (perm ||| pteU ||| pteP) none = if PermOk perm then 0 else -eInval := by
  have hbits : (perm ||| pteU ||| pteP) &&& ~~~pteSyscall = perm &&& ~~~pteSyscall := by
    have h : ∀ i : Nat, i < 32 → (pteU ||| pteP).getLsbD i = true →
        (~~~pteSyscall).getLsbD i = false := by decide
    ext i hi
    have hi' := h i hi
    simp only [BitVec.getElem_and, BitVec.getElem_or, BitVec.getLsbD_eq_getElem hi] at hi' ⊢
    grind
  have hflags : ¬ ((perm ||| pteU ||| pteP) &&& pteP = 0#32 ∨
      (perm ||| pteU ||| pteP) &&& pteU = 0#32) := by
    rintro (hz | hz)
    · have hbit := congrArg (fun w : Word => w.getLsbD 0) hz
      simp [pteP] at hbit
    · have hbit := congrArg (fun w : Word => w.getLsbD 2) hz
      simp [pteU] at hbit
  unfold checkPerm
  rw [hbits, if_neg hflags]
  by_cases hp : PermOk perm
  · rw [if_pos hp]
    exact if_neg (not_not.mpr hp)
  · rw [if_neg hp]
    exact if_pos hp

/-- What `env_page_alloc` does, by the memory there is. -/
inductive PageAllocOutcome (M : Machine) (K : Nat → Prop) (m : PMap) (dirs : Nat → Option Nat)
    (free : List Nat) (e : Nat) (va perm : Word) : Except String (Int × PMap) → Prop
  | refused (hperm : ¬ PermOk perm) :
      PageAllocOutcome M K m dirs free e va perm (.ok (-eInval, m))
  | empty (hperm : PermOk perm) (hfree : free = []) :
      PageAllocOutcome M K m dirs free e va perm (.ok (-eNoMem, m))
  | lost (m' : PMap) (p : Nat) (hperm : PermOk perm) (hfree : free = [p])
      (hpde : pdeWord m dirs e (pdx va) = 0#32) (hinv : PageInv M K m' dirs [] fun _ => 0)
      (hunref : ∀ x, target m' dirs x ≠ some p)
      (hpte : ∀ e' i' j', pteWord m' dirs e' i' j' = pteWord m dirs e' i' j') :
      PageAllocOutcome M K m dirs free e va perm (.ok (-eNoMem, m'))
  | mapped (m' : PMap) (free' : List Nat) (p : Nat) (hperm : PermOk perm) (hp : p ∈ free)
      (hroom : (∃ q, free = [q]) → pdeWord m dirs e (pdx va) ≠ 0#32)
      (hinv : PageInv M K m' dirs free' fun _ => 0)
      (hpte : ∀ e' i' j', pteWord m' dirs e' i' j' =
        if e' = e ∧ i' = pdx va ∧ j' = ptx va then page2pa p ||| (perm ||| pteU ||| pteP) ||| pteP
        else pteWord m dirs e' i' j')
      (hmem : ∀ q, Data m dirs free q → m'.mem q = m.mem q) :
      PageAllocOutcome M K m dirs free e va perm (.ok (0, m'))

theorem PageInv.envPageAlloc_outcome (h : PageInv M K m dirs free fun _ => 0)
    (hd : dirs e = some d) (hi : pdx va < pdxUtop) (perm : Word) :
    PageAllocOutcome M K m dirs free e va perm
      (envPageAlloc M m (some d) va (perm ||| pteU ||| pteP)) := by
  unfold envPageAlloc
  rw [checkPerm_flags]
  by_cases hperm : PermOk perm
  · have hlow : (perm ||| pteU ||| pteP).toNat < 4096 := by
      have hle := toNat_le_of_and_not (show perm &&& ~~~pteSyscall = 0#32 from hperm)
      have hmask : pteSyscall.toNat = 0xE07 := by decide
      have hor : (perm ||| pteU ||| pteP).toNat < 2 ^ 12 := by
        rw [BitVec.toNat_or, BitVec.toNat_or]
        exact Nat.or_lt_two_pow (Nat.or_lt_two_pow (by omega) (by decide)) (by decide)
      exact hor
    rw [if_pos hperm]
    dsimp only
    rw [if_neg (lt_irrefl _)]
    cases free with
    | nil =>
        rw [h.pageAlloc_nil]
        exact .empty hperm rfl
    | cons p free =>
        obtain ⟨m₁, halloc, h₁, hpool, hpf, hunref, hpde₁, hpte₁, hmem₁, _, href⟩ :=
          h.pageAlloc_cons allocZero
        have hcount : (m₁.ppRef p).toNat < 65535 := by
          rw [href, h.count_eq hpool.2.2, refs_eq_zero_iff.mpr fun x _ =>
            h.free_unref p List.mem_cons_self x]
          decide
        have hbits : p ||| pgnum (perm ||| pteU ||| pteP) = p := by
          rw [pgnum_eq_zero hlow, Nat.or_zero]
        rw [halloc]
        rcases h₁.pageInsert_spec hd hi hpool ⟨hpf, fun x hx => absurd hx (hunref x)⟩ hbits
          hcount with ⟨hnil, hz, hins⟩ | ⟨m', free', hins, h', _, hpte', hmem'⟩
        · dsimp only
          rw [hins]
          rw [hnil] at h₁ ⊢
          exact .lost m₁ p hperm rfl ((hpde₁ e (pdx va)).symm.trans hz) h₁ hunref hpte₁
        · dsimp only
          rw [hins]
          refine .mapped m' free' p hperm List.mem_cons_self ?_ h' (fun e' i' j' => ?_)
            fun q hq => ?_
          · rintro ⟨q, hlast⟩ hz
            cases hlast
            rw [h₁.pageInsert_full hd hi ((hpde₁ e (pdx va)).trans hz)] at hins
            exact absurd (Except.ok.inj hins) (by simp [eNoMem])
          · rw [hpte', hpte₁]
          · have hq₁ : Data m₁ dirs free q := by
              rw [Data, target_congr hpde₁ hpte₁]
              exact ⟨fun hf => hq.1 (List.mem_cons_of_mem p hf), hq.2⟩
            exact (hmem' q hq₁).trans (hmem₁ q fun heq => hq.1 (heq ▸ List.mem_cons_self))
  · rw [if_neg hperm]
    exact .refused hperm

/-- A call of `env_page_alloc` that loses a page is not one that restores. -/
theorem not_restored_of_lost {s' : KState} {p : Nat} (h : PageInv M K s.pm s.dirs [p] fun _ => 0)
    (h' : PageInv M K s'.pm s'.dirs [] fun _ => 0)
    (hunref : ∀ x, target s'.pm s'.dirs x ≠ some p) : ¬ Restored s s' := by
  intro hr
  obtain ⟨t, htable, hpages⟩ := hr.pages
  have hon : OnFreeList s.pm p := (h.onFreeList_iff p).mpr List.mem_cons_self
  have hoff : ¬ OnFreeList s'.pm p := fun hmem =>
    absurd ((h'.onFreeList_iff p).mp hmem) List.not_mem_nil
  by_cases ht : t = some p
  · obtain ⟨e, i, hi, hat⟩ := (htable p ht).table
    rw [tableAt_eq_target h' hi] at hat
    exact hunref (.pde e i) hat
  · exact hoff ((hpages p ht).1.mpr hon)

theorem lastPage_iff {free : List Nat} (h : PageInv M K s.pm s.dirs free fun _ => 0)
    (hi : pdx va < pdxUtop) : LastPage s e va perm ↔
      PermOk perm ∧ (∃ p, free = [p]) ∧ pdeWord s.pm s.dirs e (pdx va) = 0#32 := by
  have htable : tableAt s e (pdx va) = none ↔ pdeWord s.pm s.dirs e (pdx va) = 0#32 := by
    rw [tableAt_eq_target h hi]
    exact entry_eq_none
  constructor
  · rintro ⟨hperm, ⟨p, hvis⟩, hnone⟩
    exact ⟨hperm, ⟨p, LinkChain.unique h.chain hvis⟩, htable.mp hnone⟩
  · rintro ⟨hperm, ⟨p, hfree⟩, hz⟩
    refine ⟨hperm, ⟨p, ?_⟩, htable.mpr hz⟩
    have hchain := h.chain
    rwa [hfree] at hchain

/-- The id of a new environment is positive. -/
theorem nextEnvId_pos (envId : Word) {e : Nat} (he : e < nenv) :
    0 < (nextEnvId envId e).toInt := by
  have hor : ∀ g : Word, 0 < g.toInt → 0 < (g ||| BitVec.ofNat 32 e).toInt := by
    intro g hg
    have hg32 := g.isLt
    rw [BitVec.toInt_eq_toNat_cond] at hg
    have hlt : g.toNat < 2 ^ 31 := by
      split at hg <;> omega
    have hsum : (g ||| BitVec.ofNat 32 e).toNat < 2 ^ 31 := by
      rw [BitVec.toNat_or, BitVec.toNat_ofNat]
      unfold nenv at he
      exact Nat.or_lt_two_pow hlt (Nat.lt_of_le_of_lt (Nat.mod_le _ _) (by omega))
    have hge : g.toNat ≤ (g ||| BitVec.ofNat 32 e).toNat := by
      rw [BitVec.toNat_or]
      exact Nat.left_le_or
    rw [BitVec.toInt_eq_toNat_cond, if_pos (by omega)]
    split at hg <;> omega
  unfold nextEnvId
  dsimp only
  split
  · exact hor _ (by decide)
  · rename_i hpos
    exact hor _ (by omega)

theorem sysExofork_error {r : Int} (halloc : envAlloc M s (s.envs cur).envId = .error r) :
    sysExofork M s cur = (r, s) := by
  unfold sysExofork
  rw [halloc]

/-- `sys_exofork` that finds a slot and a page returns the id of the child. -/
theorem sysExofork_nonneg (h : BaseInv M K s) {s' : KState}
    (halloc : envAlloc M s (s.envs cur).envId = .ok (e, s')) : 0 ≤ (sysExofork M s cur).1 := by
  have ha := envAlloc_alloced halloc
  obtain ⟨l, hl, hall⟩ := h.freeEnvs
  rw [ha.head] at hl
  obtain ⟨rest, rfl, _⟩ := LinkChain.exists_cons hl
  obtain ⟨d, hself⟩ := ha.self
  have hres : (sysExofork M s cur).1 = (nextEnvId (s.envs e).envId e).toInt := by
    unfold sysExofork
    rw [halloc]
    dsimp only
    rw [KState.envs_setEnv_self, hself]
  rw [hres]
  exact (nextEnvId_pos _ (hall e List.mem_cons_self).1).le

/-- What `env_page_alloc` leaves when it fails, by whether it loses a page. -/
theorem envPageAlloc_failure {free : List Nat} (h : PageInv M K s.pm s.dirs free fun _ => 0)
    (hd : s.dirs e = some d) (hi : pdx va < pdxUtop) (perm : Word) :
    LastPage s e va perm ∧ (∃ m', envPageAlloc M s.pm (some d) va (perm ||| pteU ||| pteP) =
        .ok (-eNoMem, m') ∧ ¬ Restored s { s with pm := m' }) ∨
      ¬ LastPage s e va perm ∧ ∃ r m', envPageAlloc M s.pm (some d) va
        (perm ||| pteU ||| pteP) = .ok (r, m') ∧ (r < 0 → m' = s.pm) := by
  have hout := h.envPageAlloc_outcome hd hi perm
  generalize hx : envPageAlloc M s.pm (some d) va (perm ||| pteU ||| pteP) = x at hout
  rw [lastPage_iff h hi]
  cases hout with
  | refused hperm => exact .inr ⟨fun hl => hperm hl.1, _, _, rfl, fun _ => rfl⟩
  | empty hperm hfree =>
      refine .inr ⟨fun hl => ?_, _, _, rfl, fun _ => rfl⟩
      obtain ⟨p, hp⟩ := hl.2.1
      rw [hfree] at hp
      cases hp
  | lost m' p hperm hfree hpde hinv hunref hpte =>
      refine .inl ⟨⟨hperm, ⟨p, hfree⟩, hpde⟩, m', rfl, ?_⟩
      rw [hfree] at h
      exact (not_restored_of_lost h hinv hunref : ¬ Restored s { s with pm := m' })
  | mapped m' free' p hperm hp hroom hinv hpte hmem =>
      exact .inr ⟨fun hl => hroom hl.2.1 hl.2.2, _, _, rfl, fun hneg => absurd hneg (lt_irrefl _)⟩

/-- Once the id and the address pass, `sys_page_alloc` is `env_page_alloc`. -/
theorem sysPageAlloc_eq {envid : Word} (he : envid2env s cur envid true = .ok e)
    (hva : ¬ badVa va) (perm : Word) :
    sysPageAlloc M s cur envid va perm =
      withPm s (envPageAlloc M s.pm (s.envs e).envPgdir va (perm ||| pteU ||| pteP)) := by
  unfold sysPageAlloc
  rw [if_neg hva, he]

theorem sysPageAlloc_failsClean_iff (h : BaseInv M K s) (hcur : (s.envs cur).envPgdir ≠ none)
    (envid va perm : Word) : FailsClean M s cur (.pageAlloc envid va perm) ↔
      ¬ (AllocCall.pageAlloc envid va perm).Leaks s cur := by
  have hsame : ∀ r, sysPageAlloc M s cur envid va perm = .ok (r, s) →
      FailsClean M s cur (.pageAlloc envid va perm) := by
    intro r hr r' s' hcall _
    have heq : (r, s) = (r', s') := Except.ok.inj (hr.symm.trans hcall)
    cases heq
    exact .refl s
  by_cases hva : badVa va
  · exact iff_of_true (hsame (-eInval) (if_pos hva)) fun hl => hl.1 hva
  cases he : envid2env s cur envid true with
  | error r =>
      refine iff_of_true (hsame r ?_) ?_
      · unfold sysPageAlloc
        rw [if_neg hva, he]
      · rintro ⟨_, e, he', _⟩
        rw [he] at he'
        cases he'
  | ok e =>
      obtain ⟨d, hd⟩ := Option.ne_none_iff_exists'.mp (h.envid2env_dir hcur he)
      obtain ⟨free, hp⟩ := h.pages
      have heq := sysPageAlloc_eq (M := M) he hva perm
      rw [hd] at heq
      have hleak : (AllocCall.pageAlloc envid va perm).Leaks s cur ↔ LastPage s e va perm := by
        constructor
        · rintro ⟨_, e', he', hl⟩
          rw [he] at he'
          cases he'
          exact hl
        · exact fun hl => ⟨hva, e, he, hl⟩
      rw [hleak]
      rcases envPageAlloc_failure (e := e) hp hd (Calling.pdx_of_not_badVa hva) perm with
        ⟨hlast, m', hcall, hno⟩ | ⟨hnot, r, m', hcall, hkeep⟩
      · rw [hcall] at heq
        refine iff_of_false (fun hclean => hno (hclean (-eNoMem) _ heq eNoMem_neg)) ?_
        exact not_not.mpr hlast
      · rw [hcall] at heq
        refine iff_of_true (fun r' s' hr hneg => ?_) hnot
        have hpair : (r, { s with pm := m' }) = (r', s') := Except.ok.inj (heq.symm.trans hr)
        cases hpair
        rw [hkeep hneg]
        exact .refl s

/-- A failed call leaves everything as it was exactly when it does not lose a page. -/
theorem failsClean_iff (h : BaseInv M K s) (hcur : (s.envs cur).envPgdir ≠ none)
    (call : AllocCall) : FailsClean M s cur call ↔ ¬ call.Leaks s cur := by
  cases call with
  | pageAlloc envid va perm => exact sysPageAlloc_failsClean_iff h hcur envid va perm
  | exofork =>
      refine iff_of_true (fun r s' hcall hneg => ?_) id
      have hpair : sysExofork M s cur = (r, s') := Except.ok.inj hcall
      cases halloc : envAlloc M s (s.envs cur).envId with
      | error r' =>
          rw [sysExofork_error halloc] at hpair
          cases hpair
          exact .refl s
      | ok x =>
          have hnn := sysExofork_nonneg h halloc
          rw [hpair] at hnn
          exact absurd hneg (not_lt.mpr hnn)
  | envAlloc parentId =>
      refine iff_of_true (fun r s' hcall hneg => ?_) id
      unfold AllocCall.outcome at hcall
      dsimp only at hcall
      cases halloc : envAlloc M s parentId with
      | error r' =>
          rw [halloc] at hcall
          cases hcall
          exact .refl s
      | ok x =>
          rw [halloc] at hcall
          cases hcall
          exact absurd hneg (lt_irrefl _)

end

/-- A machine on which boot leaves four pages. -/
def scarce : Machine :=
  { pc .roundRobin with
    kernEnd := 0x7FFC
    kernPgdir_lt := by decide }

theorem scarce_booted : Booted scarce lowPages (downBoot 0x7FFC 4) :=
  downBoot_booted (by decide) rfl rfl rfl

theorem exists_outcome {x : Except Stop (Int × KState)} {r : Int}
    (h : x.toOption.any (fun y => y.1 = r) = true) : ∃ s', x = .ok (r, s') := by
  cases x with
  | error stop => cases h
  | ok y =>
      obtain rfl : y.1 = r := of_decide_eq_true h
      exact ⟨y.2, rfl⟩

/-- What fails with a code leaves everything as it was, when it loses no page. -/
theorem exists_restored {M : Machine} {s : KState} {cur : Nat} {call : AllocCall} {r : Int}
    (hclean : FailsClean M s cur call) (hr : r < 0)
    (h : (call.outcome M s cur).toOption.any (fun x => x.1 = r) = true) :
    ∃ s', call.outcome M s cur = .ok (r, s') ∧ Restored s s' := by
  obtain ⟨s', hout⟩ := exists_outcome h
  exact ⟨s', hout, hclean r s' hout hr⟩

/-- The first environment takes the fourth page as well; then neither a child nor a page is to
be had, and a bad address is no better. -/
theorem failsClean_full : ∃ s, BaseInv scarce lowPages s ∧ s.pm.pageFreeList = none ∧
    (∃ s', AllocCall.exofork.outcome scarce s 0 = .ok (-eNoMem, s') ∧ Restored s s') ∧
    (∃ s', (AllocCall.pageAlloc 0#32 0xeebfb000#32 7#32).outcome scarce s 0 = .ok (-eNoMem, s') ∧
      Restored s s') ∧
    ∃ s', (AllocCall.pageAlloc 0#32 0x1001#32 7#32).outcome scarce s 0 = .ok (-eInval, s') ∧
      Restored s s' := by
  have hrun : (runCarefully scarce [.create emptyImage, .start 0,
      call 0 4#32 0#32 0xeebfc000#32 7#32 0#32 0#32] (downBoot 0x7FFC 4)).any (fun s =>
        s.pm.pageFreeList = none ∧ (s.envs 0).envPgdir ≠ none ∧
        (AllocCall.exofork.outcome scarce s 0).toOption.any (fun x => x.1 = -eNoMem) = true ∧
        ((AllocCall.pageAlloc 0#32 0xeebfb000#32 7#32).outcome scarce s 0).toOption.any
          (fun x => x.1 = -eNoMem) = true ∧
        ((AllocCall.pageAlloc 0#32 0x1001#32 7#32).outcome scarce s 0).toOption.any
          (fun x => x.1 = -eInval) = true) = true := by decide +kernel
  obtain ⟨s, -, hbase, -, hs⟩ := exists_careful anyEvent (fun _ _ _ _ _ _ => trivial)
    scarce_booted hrun
  rw [decide_eq_true_eq] at hs
  obtain ⟨hfree, hdir, hfork, halloc, hbad⟩ := hs
  refine ⟨s, hbase, hfree, exists_restored ?_ (by decide) hfork, exists_restored ?_ (by decide) halloc,
    exists_restored ?_ (by decide) hbad⟩
  · exact (failsClean_iff hbase hdir _).mpr id
  · refine (failsClean_iff hbase hdir _).mpr ?_
    rintro ⟨_, e, _, _, ⟨p, hhead, _⟩, _⟩
    rw [hfree] at hhead
    cases hhead
  · exact (failsClean_iff hbase hdir _).mpr fun hleak => hleak.1 (by decide)

/-- The first environment takes three of them, and its `sys_page_alloc` the fourth, which
it does not get. -/
theorem pageAlloc_leaks : ¬ ∀ s cur call, (kernel scarce lowPages).Reach anyEvent s →
    s.curenv 0 = some cur → FailsClean scarce s cur call := by
  intro hall
  have hrun : (run scarce [.create emptyImage, .start 0] (downBoot 0x7FFC 4)).any (fun s =>
      s.pm.pageFreeList = some 0x7FFC ∧ s.pm.ppLink 0x7FFC = none ∧
        s.curenv 0 = some 0 ∧ tableAt s 0 (pdx 0x1000#32) = none) = true := by
    decide
  obtain ⟨s, hreach, hs⟩ := exists_reach scarce_booted fits_created hrun
  rw [decide_eq_true_eq] at hs
  have hbase := base_reach hreach
  have hclean := hall s 0 (.pageAlloc 0#32 0x1000#32 7#32)
    (hreach.mono fun _ _ _ => trivial) hs.2.2.1
  refine (sysPageAlloc_failsClean_iff hbase (hbase.cur_dir hs.2.2.1) _ _ _).mp hclean
    ⟨by decide, 0, rfl, ?_⟩
  exact ⟨by decide, ⟨0x7FFC, hs.1, hs.2.1⟩, hs.2.2.2⟩

end Jos
end Sisop

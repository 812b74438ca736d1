import Sisop.Jos.Mapping

/-!
# The reference count wraps

`pp_ref` has sixteen bits, and `page_insert` increments it without a test.  The
count is the number of references as long as no page is mapped that has 65535 of
them already.  An environment that maps its stack page at 65535 other addresses
takes the count to 65536, which is zero.
-/

namespace Sisop
namespace Jos

open TransitionSystem RefCount

/-! ## The run that wraps -/

def stackVa : Word := 0xeebfd000#32

/-- The page the first environment has for its stack. -/
def stackPage : Nat := 0x7FFE

theorem stackPage_not_low : ¬ lowPages stackPage := by
  unfold lowPages stackPage
  decide

/-- The `k`-th address the stack page is mapped at. -/
def spreadVa (k : Nat) : Word := pgaddr (64 + k / 1024) (k % 1024) 0

/-- `sys_page_map` of the stack page at the `k`-th address. -/
def spreadCall (k : Nat) : Event := call 0 5#32 0#32 stackVa 0#32 (spreadVa k) 0#32

theorem pdx_spreadVa {k : Nat} (hk : k < 65536) : pdx (spreadVa k) = 64 + k / 1024 :=
  pdx_pgaddr (by omega) (Nat.mod_lt _ (by decide))

theorem ptx_spreadVa {k : Nat} (hk : k < 65536) : ptx (spreadVa k) = k % 1024 :=
  ptx_pgaddr (by omega) (Nat.mod_lt _ (by decide))

theorem spreadVa_ok {k : Nat} (hk : k < 65536) : ¬ badVa (spreadVa k) := by
  have hmod : k % 1024 < 1024 := Nat.mod_lt _ (by decide)
  have hva := toNat_pgaddr (d := 64 + k / 1024) (by omega) hmod
  rintro (hle | hne)
  · rw [BitVec.le_def, show utop.toNat = 955 * 4194304 from rfl, spreadVa, hva] at hle
    omega
  · refine hne (BitVec.eq_of_toNat_eq ?_)
    rw [BitVec.toNat_umod, spreadVa, hva]
    show (_ : Nat) % 4096 = 0
    omega

/-- The state after the stack page has been mapped at the first `n` addresses. -/
structure Spread (s : KState) (n : Nat) : Prop where
  reach : (kernel (pc .roundRobin) lowPages).Reach
    (fun s ev => Fits s ev ∧ FreesOwn (pc .roundRobin) s ev) s
  curenv : s.curenv 0 = some 0
  running : (s.envs 0).envStatus = .running
  source : entry (wordAt s 0 stackVa) = some stackPage
  count : (s.pm.ppRef stackPage).toNat = n + 1
  fresh : ∀ k, n ≤ k → k < 65536 → wordAt s 0 (spreadVa k) = 0#32
  room : ∃ free, LinkChain.Visits s.pm.ppLink s.pm.pageFreeList free ∧
    64 ≤ free.length + (n + 1023) / 1024
  table : n % 1024 ≠ 0 → pdeWord s.pm s.dirs 0 (64 + n / 1024) ≠ 0#32

/-- What one more mapping does: the page table is there or is made, the count
goes up by one modulo 65536, and the new entry is written. -/
structure SpreadStep (s : KState) (n : Nat) (s' : KState) (m : PMap) (t : Nat)
    (free : List Nat) : Prop where
  inv : PageInv (pc .roundRobin) lowPages m s.dirs free fun _ => 0
  room : 64 ≤ free.length + (n + 1 + 1023) / 1024
  table : entry (pdeWord m s.dirs 0 (pdx (spreadVa n))) = some t
  ptes : ∀ e i j, pteWord m s.dirs e i j = pteWord s.pm s.dirs e i j
  count : m.ppRef stackPage = s.pm.ppRef stackPage
  pm : s'.pm = (m.incref stackPage).write ⟨t, ptx (spreadVa n)⟩
    (page2pa stackPage ||| (pteP ||| pteU ||| 0#32) ||| pteP)
  dirs : s'.dirs = s.dirs
  curenv : s'.curenv 0 = some 0
  running : (s'.envs 0).envStatus = .running

/-- The trap frame of the call. -/
def spreadTf (n : Nat) : Trapframe :=
  { initTf with
    trapno := tSyscall
    regs := ⟨spreadVa n, 0#32, 0#32, 0#32, 0#32, 0#32, stackVa, 5#32⟩ }

theorem spread_syscall {s : KState} {n : Nat} {src : Nat} {pte : PtePtr} {m' : PMap}
    (hn : n < 65536)
    (hlook : pageLookup (pc .roundRobin) s.pm (s.envs 0).envPgdir stackVa = .ok (some (src, pte)))
    (hins : pageInsert (pc .roundRobin) s.pm (s.envs 0).envPgdir src (spreadVa n)
      (pteP ||| pteU ||| 0#32) = .ok (0, m')) (inp : Inputs) :
    syscall (pc .roundRobin) s 0 0 (spreadTf n).regs inp = .ok (0, { s with pm := m' }) := by
  have hself : envid2env s 0 0#32 true = .ok 0 := if_pos rfl
  have hstack : ¬ badVa stackVa := by decide
  have hperm : (pteP ||| pteU ||| 0#32) &&& pteW = 0#32 := by decide
  show sysPageMap (pc .roundRobin) s 0 0#32 stackVa 0#32 (spreadVa n) 0#32 = _
  unfold sysPageMap envPageMap
  rw [if_neg hstack, if_neg (spreadVa_ok hn), hself]
  simp only [hlook, hperm, Except.ok_bind_eq, BitVec.zero_and, ne_eq, not_true_eq_false, if_false,
    hins]
  rfl

theorem Spread.step {s : KState} {n : Nat} (h : Spread s n) (hn : n < 65535) :
    ∃ s' m t free, (spreadCall n).outcome (pc .roundRobin) s = .left s' ∧
      SpreadStep s n s' m t free := by
  have hb := base_reach h.reach
  have hd : (s.envs 0).envPgdir = some (s.cpus 0).cr3 := hb.cpu 0 0 h.curenv
  obtain ⟨hne, hpg⟩ := entry_eq_some.mp h.source
  have hpdx : pdx (spreadVa n) = 64 + n / 1024 := pdx_spreadVa (by omega)
  have hi : pdx (spreadVa n) < pdxUtop := by
    rw [hpdx, pdxUtop]
    omega
  obtain ⟨free, hvis, hroom⟩ := h.room
  obtain ⟨free', hp⟩ := hb.pages
  obtain rfl := LinkChain.unique hvis hp.chain
  have hnot : stackPage ∉ free := fun hmem => hp.free_unref _ hmem (.pte 0 _ _) h.source
  have hspare : free = [] → pdeWord s.pm s.dirs 0 (pdx (spreadVa n)) ≠ 0#32 := by
    rintro rfl
    rw [hpdx]
    simp only [List.length_nil] at hroom
    exact h.table (by omega)
  have hfresh : wordAt s 0 (spreadVa n) = 0#32 := h.fresh n (le_refl n) (by omega)
  obtain ⟨m, t, free₁, h₁, hgrow, ht, hptes, hpdes, href, hins⟩ :=
    @PageInv.pageInsert_unmapped _ _ _ _ _ _ _ _ _ _ (pteP ||| pteU ||| 0#32) hp hd hi hfresh hnot
      hspare
  obtain ⟨_, _, _, hlook⟩ := hp.pageLookup_some hd (by decide) hne
  rw [show pgnum (pteWord s.pm s.dirs 0 (pdx stackVa) (ptx stackVa)) = stackPage from hpg] at hlook
  have hdirs : (trapState s 0 0 (spreadTf n)).dirs = s.dirs := dirs_trapState s 0 0 _
  have hdir : ((trapState s 0 0 (spreadTf n)).envs 0).envPgdir = (s.envs 0).envPgdir :=
    congrFun hdirs 0
  have hcall := spread_syscall (s := trapState s 0 0 (spreadTf n)) (n := n) (by omega)
    (by rw [hdir, hd]; exact hlook) (by rw [hdir, hd]; exact hins) ⟨0#32, none, 0⟩
  have hrun : ((trapState s 0 0 (spreadTf n)).envs 0).envStatus = .running :=
    (trapState_status s 0 0 0 (spreadTf n)).trans h.running
  obtain ⟨s', hleft, hran⟩ := trap_call h.curenv (by rw [h.running]; decide) rfl hcall
    ((curenv_trapState s 0 0 0 (spreadTf n)).trans h.curenv) hrun (hdir.trans hd)
  refine ⟨s', m, t, free₁, hleft, h₁, ?_, ht, hptes, href, hran.pm, ?_, ?_, ?_⟩
  · rcases hgrow with ⟨rfl, hpde⟩ | ⟨rfl, hpde⟩
    · omega
    · have hmod : n % 1024 = 0 := by
        by_contra hmod
        rw [hpdx] at hpde
        exact h.table hmod hpde
      simp only [List.length_cons] at hroom
      omega
  · rw [hran.dirs, dirs_setEax]
    exact hdirs
  · rw [KState.curenv, hran.cpus, if_pos rfl]
  · rw [hran.self]

theorem wordAt_trapState (s : KState) (c cur e : Nat) (tf : Trapframe) (va : Word) :
    wordAt (trapState s c cur tf) e va = wordAt s e va := by
  rw [wordAt, dirs_trapState]
  rfl

theorem Spread.mapFits {s : KState} {n : Nat} (h : Spread s n) (hn : n < 65534) :
    MapFits (trapState s 0 0 (spreadTf n)) 0 0#32 stackVa 0#32 (spreadVa n) 0#32 := by
  intro _ _ src dst hsrc _ _
  have hself : envid2env (trapState s 0 0 (spreadTf n)) 0 0#32 true = .ok 0 := if_pos rfl
  obtain rfl : src = 0 := Except.ok.inj (hsrc.symm.trans hself)
  obtain ⟨free, hp⟩ := (base_reach h.reach).pages
  have hcount := hp.count_eq (p := stackPage) stackPage_not_low
  rw [h.count] at hcount
  have hpg : pgnum (wordAt s 0 stackVa) = stackPage := (entry_eq_some.mp h.source).2
  rw [wordAt_trapState]
  intro _
  rw [dirs_trapState, hpg, ← show refs slots (target s.pm s.dirs) stackPage =
    refs slots (target (trapState s 0 0 (spreadTf n)).pm s.dirs) stackPage from rfl, ← hcount]
  exact ⟨by decide, by omega⟩

theorem spread_destroys (s : KState) (n : Nat) :
    destroys (pc .roundRobin) s 0 (spreadTf n) = none := rfl

/-- As long as the count has room the call maps a page that fits. -/
theorem Spread.guard {s : KState} {n : Nat} (h : Spread s n) (hn : n < 65534) :
    Fits s (spreadCall n) ∧ FreesOwn (pc .roundRobin) s (spreadCall n) := by
  have hcur : ∀ cur, s.curenv 0 = some cur → cur = 0 := by
    intro cur hc
    rw [h.curenv] at hc
    exact (Option.some.inj hc).symm
  constructor
  · intro cur hc
    obtain rfl := hcur cur hc
    exact fun _ => ⟨fun _ => by decide, fun _ => h.mapFits hn⟩
  · intro cur hc
    obtain rfl := hcur cur hc
    rw [h.running]
    refine ⟨fun hst => absurd hst (by decide), fun _ e he => ?_⟩
    exact absurd ((spread_destroys (trapState s 0 0 (spreadTf n)) n).symm.trans he) (by simp)

/-- The stack and the `k`-th address have different page tables. -/
theorem stack_ne_spread {k : Nat} (hk : k < 65536) : pdx stackVa ≠ pdx (spreadVa k) := by
  rw [pdx_spreadVa hk, show pdx stackVa = 954 by decide]
  omega

namespace SpreadStep

variable {s s' : KState} {n t : Nat} {m : PMap} {free : List Nat}

theorem pteWord_eq (h : SpreadStep s n s' m t free) (i j : Nat) :
    pteWord s'.pm s'.dirs 0 i j =
      if i = pdx (spreadVa n) ∧ j = ptx (spreadVa n) then
        page2pa stackPage ||| (pteP ||| pteU ||| 0#32) ||| pteP
      else pteWord s.pm s.dirs 0 i j := by
  have hw := h.inv.pteWord_write_pte (w := page2pa stackPage ||| (pteP ||| pteU ||| 0#32) ||| pteP)
    h.table (ptx_lt (spreadVa n)) 0 i j
  rw [h.ptes] at hw
  rw [h.dirs, h.pm]
  exact hw.trans (by simp only [true_and])

theorem pdeWord_eq (h : SpreadStep s n s' m t free) (i : Nat) :
    pdeWord s'.pm s'.dirs 0 i = pdeWord m s.dirs 0 i := by
  rw [h.dirs, h.pm]
  exact h.inv.pdeWord_write_pte h.table _ _

theorem source (h : SpreadStep s n s' m t free) (hn : n < 65536) :
    wordAt s' 0 stackVa = wordAt s 0 stackVa := by
  rw [wordAt, h.pteWord_eq, if_neg fun heq => stack_ne_spread hn heq.1, wordAt]

theorem ppRef (h : SpreadStep s n s' m t free) :
    s'.pm.ppRef stackPage = s.pm.ppRef stackPage + 1#16 := by
  rw [h.pm, ← h.count]
  show Function.update m.ppRef stackPage (m.ppRef stackPage + 1#16) stackPage = _
  rw [Function.update_self]

end SpreadStep

theorem spread_enabled {s : KState} {n : Nat} (h : Spread s n) (k : Nat) :
    (spreadCall k).enabled (pc .roundRobin) s := by
  refine ⟨by decide, ?_, show initTf.cs &&& 3#16 = 3#16 by decide⟩
  rw [h.curenv]
  exact Option.some_ne_none 0

theorem Spread.next {s : KState} {n : Nat} (h : Spread s n) (hn : n < 65534) :
    ∃ s', Spread s' (n + 1) := by
  obtain ⟨s', m, t, free, hleft, hstep⟩ := h.step (by omega)
  refine ⟨s', ?_, hstep.curenv, hstep.running, ?_, ?_, ?_, ⟨free, ?_, hstep.room⟩, ?_⟩
  · exact .step h.reach (h.guard hn) ⟨spread_enabled h n, by rw [hleft]; exact rfl⟩
  · rw [hstep.source (by omega)]
    exact h.source
  · rw [hstep.ppRef, BitVec.toNat_add, h.count, BitVec.toNat_ofNat]
    omega
  · intro k hk hlt
    rw [wordAt, hstep.pteWord_eq, pdx_spreadVa hlt, ptx_spreadVa hlt, pdx_spreadVa (by omega),
      ptx_spreadVa (by omega), if_neg (by omega), ← pdx_spreadVa hlt, ← ptx_spreadVa hlt]
    exact h.fresh k (by omega) hlt
  · rw [hstep.pm]
    exact hstep.inv.chain
  · intro hmod
    have htable := (entry_eq_some.mp hstep.table).1
    rw [pdx_spreadVa (by omega)] at htable
    rw [hstep.pdeWord_eq, show (n + 1) / 1024 = n / 1024 by omega]
    exact htable

theorem Spread.reaches {s : KState} (h : Spread s 0) {n : Nat} (hn : n ≤ 65534) :
    ∃ s', Spread s' n := by
  induction n with
  | zero => exact ⟨s, h⟩
  | succ n ih =>
      obtain ⟨s', hs'⟩ := ih (by omega)
      exact hs'.next (by omega)

/-- The mapping that takes the count to zero leaves the stack mapped. -/
theorem Spread.wraps {s : KState} (h : Spread s 65534) :
    ∃ s', (kernel (pc .roundRobin) lowPages).Reach anyEvent s' ∧
      s'.pm.ppRef stackPage = 0#16 ∧ mapped s' 0 stackVa = some stackPage := by
  obtain ⟨s', m, t, free, hleft, hstep⟩ := h.step (by decide)
  have hreach : (kernel (pc .roundRobin) lowPages).Reach anyEvent s :=
    h.reach.mono fun _ _ _ => trivial
  refine ⟨s', .step (e := spreadCall 65534) hreach trivial ⟨spread_enabled h _, ?_⟩, ?_, ?_⟩
  · rw [hleft]
    exact rfl
  · rw [hstep.ppRef]
    refine BitVec.eq_of_toNat_eq ?_
    rw [BitVec.toNat_add, h.count]
    rfl
  · have hword : pteWord s'.pm s'.dirs 0 (pdx stackVa) (ptx stackVa) = wordAt s 0 stackVa :=
      hstep.source (by decide)
    obtain ⟨hne, hpg⟩ := entry_eq_some.mp h.source
    have hm : pteWord m s.dirs 0 (pdx stackVa) (ptx stackVa) ≠ 0#32 := by
      rw [hstep.ptes]
      exact hne
    have hpde : pdeWord m s.dirs 0 (pdx stackVa) ≠ 0#32 := fun hz => hm (pteWord_of_no_pde hz)
    have hperm := hstep.inv.pte_perm _ _ _ hm
    rw [hstep.ptes] at hperm
    obtain ⟨d, hd, hi, _⟩ := pdeWord_ne_zero hpde
    rw [← hstep.dirs] at hd
    rw [mapped, show (s'.envs 0).envPgdir = some d from hd, Option.bind_some,
      translate_of_pde hd hi (by decide) (by rw [hstep.pdeWord_eq]; exact hpde)
        (by rw [hstep.pdeWord_eq]; exact hstep.inv.pde_perm _ _ hpde), hword,
      if_pos (show wordAt s 0 stackVa &&& pteP = pteP from hperm), hpg]

theorem exists_spread : ∃ s, Spread s 0 := by
  have hsome : (run (pc .roundRobin) [.create emptyImage, .start 0] pcBoot).any (fun s =>
      s.curenv 0 = some 0 ∧ (s.envs 0).envStatus = .running ∧
      entry (wordAt s 0 stackVa) = some stackPage ∧ (s.pm.ppRef stackPage).toNat = 1 ∧
      (∀ i, i < 64 → pdeWord s.pm s.dirs 0 (64 + i) = 0#32) ∧
      LinkChain.Visits s.pm.ppLink s.pm.pageFreeList
        ((List.range 125).reverse.map (0x7F80 + ·))) = true := by
    decide +kernel
  cases h₁ : exec (pc .roundRobin) pcBoot (.create emptyImage) with
  | none => simp [run, h₁] at hsome
  | some s₁ =>
      cases h₂ : exec (pc .roundRobin) s₁ (.start 0) with
      | none => simp [run, h₁, h₂] at hsome
      | some s₂ =>
          simp only [run, List.foldlM_cons, List.foldlM_nil, h₁, h₂, Option.bind_eq_bind,
            Option.bind_some, Option.pure_def, Option.any_some, decide_eq_true_eq] at hsome
          obtain ⟨hcur, hrun, hsrc, hcount, hpde, hvis⟩ := hsome
          have hboot := pcBoot_booted .roundRobin
          refine ⟨s₂, ?_, hcur, hrun, hsrc, hcount, fun k _ hk => ?_, ⟨_, hvis, by simp⟩, ?_⟩
          · exact reach_exec (.start 0)
              (reach_exec (.create emptyImage) (.init hboot) ⟨trivial, trivial⟩ h₁)
              ⟨trivial, trivial⟩ h₂
          · refine pteWord_of_no_pde ?_
            rw [pdx_spreadVa hk]
            exact hpde _ (by omega)
          · exact fun h0 => absurd rfl h0

/-! ## The bound -/

/-- Reference counts do not wrap, and no page on the free list is mapped, in
every run in which no page with 65535 references is mapped once more. -/
theorem counted_of_reach {M : Machine} {K : Nat → Prop} {s : KState}
    (h : (kernel M K).Reach (fun s ev => Fits s ev ∧ FreesOwn M s ev) s) : Counted M K s := by
  obtain ⟨free, hp⟩ := (base_reach h).pages
  exact counted_of_pageInv hp

/-- A page with the largest count there is. -/
theorem counted_full : ∃ s, (s.pm.ppRef stackPage).toNat = 65535 ∧
    Counted (pc .roundRobin) lowPages s := by
  obtain ⟨s₀, h₀⟩ := exists_spread
  obtain ⟨s, h⟩ := h₀.reaches (n := 65534) (by decide)
  exact ⟨s, h.count, counted_of_reach h.reach⟩

/-- A reference count wraps to zero under a page that is mapped. -/
theorem count_wraps : ¬ ∀ s, (kernel (pc .roundRobin) lowPages).Reach anyEvent s →
    Counted (pc .roundRobin) lowPages s := by
  intro hall
  obtain ⟨s₀, h₀⟩ := exists_spread
  obtain ⟨s₁, h₁⟩ := h₀.reaches (n := 65534) (by decide)
  obtain ⟨s, hreach, hzero, hmap⟩ := h₁.wraps
  have hcount := (hall s hreach).ppRef stackPage (by decide) stackPage_not_low
  rw [hzero] at hcount
  have hpos : 0 < mappings s stackPage := by
    refine refs_pos (x := (0, pdx stackVa, ptx stackVa)) ?_ ?_
    · simp only [Finset.mem_product, Finset.mem_range]
      decide
    · show mapped s 0 (pgaddr (pdx stackVa) (ptx stackVa) 0) = some stackPage
      rw [pgaddr_pdx_ptx (by decide)]
      exact hmap
  rw [BitVec.toNat_ofNat] at hcount
  omega

end Jos
end Sisop

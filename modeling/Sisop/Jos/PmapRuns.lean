import Sisop.Jos.Isolation

/-!
# Runs of the page table functions

The functions of `kern/pmap.c` and the two of `kern/env.c` that make and free
address spaces, as operations of a transition system of their own, from the
state `page_init` leaves.  The counting invariant holds after every operation,
and no operation panics, as long as no count reaches its largest value.
-/

namespace Sisop
namespace Jos

open RefCount Exit TransitionSystem

variable (M : Machine)

/-! ## `page_init` -/

/-- Physical memory before `page_init`: `pages` is cleared. -/
def clearedPm (mem : Nat → Nat → Word) : PMap :=
  { ppRef := fun _ => 0#16, ppLink := fun _ => none, pageFreeList := none, mem := mem }

/-- The state `page_init` leaves, with `envs` initialised and no environment. -/
structure PageInitDone (s : KState) : Prop where
  pm : ∃ mem, (∀ i, i < pdxUtop → mem M.kernPgdir i = 0#32) ∧ s.pm = pageInit M (clearedPm mem)
  envs : ∃ envs, (∀ e, (envs e).envPgdir = none ∧ (envs e).envIpcDstva = 0#32) ∧
    s.envs = envInit envs
  envFreeList : s.envFreeList = some 0
  cpus : ∀ c, (s.cpus c).cpuEnv = none ∧ (s.cpus c).cr3 = M.kernPgdir ∧
    (c < M.ncpu → (s.cpus c).cpuStatus = .started)

/-- The loop of `page_init` after its first `n` turns. -/
theorem pageInit_prefix (mem : Nat → Nat → Word) (n : Nat) :
    ∃ free, LinkChain.Visits ((List.range n).foldl (pageInitStep M) (clearedPm mem)).ppLink
        ((List.range n).foldl (pageInitStep M) (clearedPm mem)).pageFreeList free ∧
      (∀ p, p ∈ free ↔ p < n ∧ ¬ kept M p) ∧
      (∀ p, p ∉ free →
        ((List.range n).foldl (pageInitStep M) (clearedPm mem)).ppLink p = none) ∧
      (∀ p, ((List.range n).foldl (pageInitStep M) (clearedPm mem)).ppRef p = 0#16) ∧
      ((List.range n).foldl (pageInitStep M) (clearedPm mem)).mem = mem := by
  induction n with
  | zero => exact ⟨[], rfl, by simp, fun _ _ => rfl, fun _ => rfl, rfl⟩
  | succ n ih =>
      obtain ⟨free, hvis, hmem, hnone, href, hm⟩ := ih
      rw [List.range_succ, List.foldl_append, List.foldl_cons, List.foldl_nil]
      generalize (List.range n).foldl (pageInitStep M) (clearedPm mem) = m at hvis hnone href hm
      have hn : n ∉ free := fun h => Nat.lt_irrefl n ((hmem n).mp h).1
      unfold pageInitStep
      by_cases hk : kept M n
      · rw [if_pos hk]
        refine ⟨free, LinkChain.congr hvis fun p hp => ?_, fun p => ?_, fun p hp => ?_, href, hm⟩
        · have hpn : p ≠ n := fun heq => hn (heq ▸ hp)
          exact Function.update_of_ne hpn _ _
        · rw [hmem, Nat.lt_succ_iff_lt_or_eq]
          constructor
          · exact fun h => ⟨.inl h.1, h.2⟩
          · rintro ⟨hlt | rfl, hp⟩
            · exact ⟨hlt, hp⟩
            · exact absurd hk hp
        · by_cases hpn : p = n
          · rw [hpn]
            exact Function.update_self _ _ _
          · exact (Function.update_of_ne hpn _ _).trans (hnone p hp)
      · rw [if_neg hk]
        refine ⟨n :: free, LinkChain.push hvis hn, fun p => ?_, fun p hp => ?_, fun p => ?_, hm⟩
        · rw [List.mem_cons, hmem, Nat.lt_succ_iff_lt_or_eq]
          constructor
          · rintro (rfl | h)
            · exact ⟨.inr rfl, hk⟩
            · exact ⟨.inl h.1, h.2⟩
          · rintro ⟨hlt | rfl, hp⟩
            · exact .inr ⟨hlt, hp⟩
            · exact .inl rfl
        · rw [List.mem_cons, not_or] at hp
          exact (Function.update_of_ne hp.1 _ _).trans (hnone p hp.2)
        · show Function.update m.ppRef n 0#16 p = 0#16
          by_cases hpn : p = n
          · rw [hpn, Function.update_self]
          · rw [Function.update_of_ne hpn, href]

variable {M} in
theorem PageInitDone.booted {s : KState} (h : PageInitDone M s) :
    Booted M (fun _ => False) s := by
  obtain ⟨mem, hkern, hpm⟩ := h.pm
  obtain ⟨free, hvis, hmem, hnone, href, hm⟩ := pageInit_prefix M mem M.npages
  rw [← pageInit, ← hpm] at hvis hnone href hm
  refine ⟨⟨free, hvis, fun p => ?_, hnone⟩, fun p _ => href p, fun i hi => ?_, h.envs,
    h.envFreeList, h.cpus⟩
  · rw [hmem]
    exact ⟨fun hp => ⟨hp.1, hp.2, id⟩, fun hp => ⟨hp.1, hp.2.1⟩⟩
  · rw [hm]
    exact hkern i hi

/-! ## Operations -/

inductive PageOp
  | alloc (flags : Nat)
  | walk (e : Nat) (va : Word) (create : Bool)
  | insert (e pp : Nat) (va perm : Word)
  | remove (e : Nat) (va : Word)
  | envAlloc (parentId : Word)
  | envFree (e : Nat)

/-- The operations named in terms of a live environment and an address below
`UTOP`, and for `page_insert` of a page in use for data, fresh or mapped, and a
permission inside the low twelve bits. -/
def PageOp.enabled (s : KState) : PageOp → Prop
  | .alloc _ => True
  | .walk e va _ => (s.envs e).envPgdir ≠ none ∧ va < utop
  | .insert e pp va perm => (s.envs e).envPgdir ≠ none ∧ va < utop ∧ perm.toNat < 4096 ∧
      DataPage M (fun _ => False) s pp
  | .remove e va => (s.envs e).envPgdir ≠ none ∧ va < utop
  | .envAlloc _ => True
  | .envFree e => (s.envs e).envPgdir ≠ none

def PageOp.exec (s : KState) : PageOp → Except Stop KState
  | .alloc flags => .ok { s with pm := (pageAlloc s.pm flags).2 }
  | .walk e va create => do
      let (_, m) ← panics (pgdirWalk M s.pm (s.envs e).envPgdir va create)
      pure { s with pm := m }
  | .insert e pp va perm => do
      let (_, m) ← panics (pageInsert M s.pm (s.envs e).envPgdir pp va perm)
      pure { s with pm := m }
  | .remove e va => do
      let m ← panics (pageRemove M s.pm (s.envs e).envPgdir va)
      pure { s with pm := m }
  | .envAlloc parentId =>
      match Jos.envAlloc M s parentId with
      | .error _ => .ok s
      | .ok (_, s) => .ok s
  | .envFree e => Jos.envFree M s 0 e

def pmap : TransitionSystem KState PageOp where
  init := PageInitDone M
  step s op s' := op.enabled M s ∧ op.exec M s = .ok s'

/-- No count is at its largest value. -/
def RefsBelowMax (s : KState) (_ : PageOp) : Prop := ∀ p, (s.pm.ppRef p).toNat < 65535

section

variable {M} {s : KState}

/-- The invariant of these runs: memory and the table agree, and no CPU runs an
environment yet. -/
structure Offline (M : Machine) (s : KState) : Prop where
  base : BaseInv M (fun _ => False) s
  idle : ∀ c, s.curenv c = none
  started : (s.cpus 0).cpuStatus = .started

theorem Offline.setPm (h : Offline M s) {m : PMap}
    (hm : ∃ free, PageInv M (fun _ => False) m s.dirs free fun _ => 0) :
    Offline M { s with pm := m } :=
  ⟨h.base.setPm hm, h.idle, h.started⟩

theorem data_of_dataPage {free : List Nat} {K : Nat → Prop}
    (h : PageInv M K s.pm s.dirs free fun _ => 0) {q : Nat} (hq : DataPage M K s q) :
    Data s.pm s.dirs free q := by
  refine ⟨hq.allocated free h.chain, fun x hx => ?_⟩
  cases x with
  | dir e => exact absurd hx (hq.not_dir e)
  | pde e i =>
      obtain ⟨d, _, hi, _⟩ := pdeWord_ne_zero (entry_eq_some.mp hx).1
      rw [← tableAt_eq_target h hi] at hx
      exact absurd hx (hq.not_table e i hi)
  | pte e i j => trivial

/-- Every operation keeps the invariant and returns. -/
theorem PageOp.exec_post (h : Offline M s) {op : PageOp} (hen : op.enabled M s)
    (hmax : RefsBelowMax s op) : Post (op.exec M s) (Offline M) fun _ => False := by
  obtain ⟨free, hp⟩ := h.base.pages
  cases op with
  | alloc flags =>
      refine post_ok.mpr (h.setPm ?_)
      cases free with
      | nil =>
          rw [hp.pageAlloc_nil]
          exact ⟨[], hp⟩
      | cons p free =>
          obtain ⟨m', halloc, hp', _⟩ := hp.pageAlloc_cons flags
          rw [halloc]
          exact ⟨free, hp'⟩
  | walk e va create =>
      obtain ⟨hd, hva⟩ := hen
      obtain ⟨d, hd⟩ := Option.ne_none_iff_exists'.mp hd
      have hd' : s.dirs e = some d := hd
      have hi := (pdx_lt_pdxUtop_iff va).mpr hva
      unfold PageOp.exec
      dsimp only
      rw [hd]
      cases ht : entry (pdeWord s.pm s.dirs e (pdx va)) with
      | some t =>
          rw [hp.pgdirWalk_table hd' hi ht]
          exact post_pure.mpr (h.setPm ⟨free, hp⟩)
      | none =>
          have hz := entry_eq_none.mp ht
          cases create with
          | false =>
              rw [PageInv.pgdirWalk_none hd' hi hz]
              exact post_pure.mpr (h.setPm ⟨free, hp⟩)
          | true =>
              cases free with
              | nil =>
                  rw [hp.pgdirWalk_full hd' hi hz]
                  exact post_pure.mpr (h.setPm ⟨[], hp⟩)
              | cons t free =>
                  rw [hp.pgdirWalk_new hd' hi hz]
                  exact post_pure.mpr (h.setPm ⟨free, (hp.pgdirGrow_new hd' hi hz).1⟩)
  | insert e pp va perm =>
      obtain ⟨hd, hva, hperm, hdata⟩ := hen
      obtain ⟨d, hd⟩ := Option.ne_none_iff_exists'.mp hd
      have hd' : s.dirs e = some d := hd
      have hi := (pdx_lt_pdxUtop_iff va).mpr hva
      have hpool : Pool M (fun _ => False) pp := ⟨hdata.memory, hdata.not_kept, id⟩
      unfold PageOp.exec
      dsimp only
      rw [hd]
      rcases hp.pageInsert_spec hd' hi hpool (data_of_dataPage hp hdata)
        (by rw [pgnum_eq_zero hperm, Nat.or_zero]) (hmax pp) with
        ⟨_, _, hins⟩ | ⟨m', free', hins, hp', _⟩
      · rw [hins]
        exact post_pure.mpr (h.setPm ⟨free, hp⟩)
      · rw [hins]
        exact post_pure.mpr (h.setPm ⟨free', hp'⟩)
  | remove e va =>
      obtain ⟨hd, hva⟩ := hen
      obtain ⟨d, hd⟩ := Option.ne_none_iff_exists'.mp hd
      have hi := (pdx_lt_pdxUtop_iff va).mpr hva
      obtain ⟨m', free', hrem, hp', _⟩ := hp.pageRemove_spec (show s.dirs e = some d from hd) hi
      unfold PageOp.exec
      dsimp only
      rw [hd, hrem]
      exact post_pure.mpr (h.setPm ⟨free', hp'⟩)
  | envAlloc parentId =>
      unfold PageOp.exec
      dsimp only
      have halloc := h.base.envAlloc_post parentId
      cases hx : Jos.envAlloc M s parentId with
      | error r => exact post_ok.mpr h
      | ok x =>
          obtain ⟨hb, hcpus, _⟩ := halloc.value hx
          refine post_ok.mpr ⟨hb, fun c => ?_, ?_⟩
          · rw [KState.curenv, hcpus]
            exact h.idle c
          · rw [hcpus]
            exact h.started
  | envFree e =>
      have hin : InKernel M (fun _ => False) 0 s :=
        ⟨h.base, h.started, fun cur hcur => by rw [h.idle 0] at hcur; cases hcur⟩
      have hother : ¬ elsewhere s 0 e := by
        rintro ⟨c', _, hc'⟩
        rw [h.idle] at hc'
        cases hc'
      have hfree := hin.envFree_post hen hother
      have hne : s.curenv 0 ≠ some e := by
        rw [h.idle]
        exact (Option.some_ne_none e).symm
      show Post (Jos.envFree M s 0 e) (Offline M) fun _ => False
      cases hx : Jos.envFree M s 0 e with
      | error stop => exact (hfree.exit hx).elim
      | ok s' =>
          have hback := (hfree.value hx).2.1 hne
          exact post_ok.mpr ⟨hback.base, fun c =>
            (InKernel.envFree_curenv s 0 e hx c).trans (h.idle c), hback.started⟩

theorem PageInitDone.offline (h : PageInitDone M s) : Offline M s :=
  ⟨h.booted.base, fun c => (h.cpus c).1, (h.cpus 0).2.2 M.ncpu_pos⟩

end

/-- The invariant of the runs. -/
theorem offline_of_reach {M : Machine} {s : KState} (h : (pmap M).Reach RefsBelowMax s) :
    Offline M s := by
  refine h.invariant (P := Offline M) (fun s hs => PageInitDone.offline hs) ?_
  rintro s op s' hs hmax ⟨hen, hstep⟩
  exact (PageOp.exec_post hs hen hmax).value hstep

theorem Offline.counted {M : Machine} {s : KState} (h : Offline M s) :
    Counted M (fun _ => False) s := by
  obtain ⟨free, hp⟩ := h.base.pages
  exact counted_of_pageInv hp

/-- In every run of the page table functions from the state `page_init` leaves in
which no count is at its largest value, every count is the number of references
to its page and the free list is sound; and every operation returns. -/
theorem counted_of_pmap_reach {M : Machine} {s : KState} (h : (pmap M).Reach RefsBelowMax s) :
    Counted M (fun _ => False) s ∧ ∀ op, op.enabled M s → RefsBelowMax s op →
      ∃ s', op.exec M s = .ok s' ∧ Counted M (fun _ => False) s' := by
  have hinv := offline_of_reach h
  refine ⟨hinv.counted, fun op hen hmax => ?_⟩
  have hpost := PageOp.exec_post hinv hen hmax
  cases hx : op.exec M s with
  | error stop => exact (hpost.exit hx).elim
  | ok s' => exact ⟨s', rfl, (hpost.value hx).counted⟩

/-! ## A page that is mapped twice -/

section

variable {M : Machine} {s s' : KState}

/-- What `page_alloc` gives may be mapped. -/
theorem Offline.dataPage_alloc (h : Offline M s) {flags p : Nat} {m : PMap}
    (halloc : pageAlloc s.pm flags = (some p, m)) :
    DataPage M (fun _ => False) { s with pm := m } p := by
  obtain ⟨free, hp⟩ := h.base.pages
  cases free with
  | nil =>
      rw [hp.pageAlloc_nil] at halloc
      cases halloc
  | cons q free =>
      obtain ⟨m', halloc', hp', hpool, hfree, hunref, -⟩ := hp.pageAlloc_cons flags
      cases halloc'.symm.trans halloc
      exact hp'.dataPage (s := { s with pm := m }) hpool ⟨hfree, fun x hx => absurd hx (hunref x)⟩

/-- No page behind the end of memory has references. -/
theorem Offline.refsBelowMax (h : Offline M s) (op : PageOp)
    (hlow : ((List.range M.npages).all fun p => (s.pm.ppRef p).toNat < 65535) = true) :
    RefsBelowMax s op := by
  intro p
  obtain ⟨free, hp⟩ := h.base.pages
  by_cases hlt : p < M.npages
  · exact of_decide_eq_true (List.all_eq_true.mp hlow p (List.mem_range.mpr hlt))
  · have hzero : refs slots (target s.pm s.dirs) p = 0 :=
      refs_eq_zero_iff.mpr fun x _ hx => hlt (hp.target_pool x p hx).1
    rw [hp.count_eq (p := p) id, hzero]
    decide

theorem reach_pageOp {op : PageOp} (hr : (pmap M).Reach RefsBelowMax s) (hx : op.exec M s = .ok s')
    (hlow : ((List.range M.npages).all fun p => (s.pm.ppRef p).toNat < 65535) = true)
    (hen : op.enabled M s) : (pmap M).Reach RefsBelowMax s' :=
  hr.step ((offline_of_reach hr).refsBelowMax op hlow) ⟨hen, hx⟩

end

/-- Operations and what is to hold in the state behind each of them. -/
def checkRun (M : Machine) : List (PageOp × (KState → Bool)) → KState → Bool
  | [], _ => true
  | (op, p) :: rest, s =>
      match op.exec M s with
      | .ok s' => p s' && checkRun M rest s'
      | .error _ => false

theorem checkRun_cons {M : Machine} {op : PageOp} {p : KState → Bool}
    {rest : List (PageOp × (KState → Bool))} {s : KState}
    (h : checkRun M ((op, p) :: rest) s = true) :
    ∃ s', op.exec M s = .ok s' ∧ p s' = true ∧ checkRun M rest s' = true := by
  rw [checkRun] at h
  cases hx : op.exec M s with
  | error stop =>
      rw [hx] at h
      cases h
  | ok s' =>
      rw [hx] at h
      obtain ⟨hp, hrest⟩ := Bool.and_eq_true_iff.mp h
      exact ⟨s', rfl, hp, hrest⟩

/-- A machine with six pages behind its kernel. -/
def smallPc : Machine :=
  { npages := 0x108
    kernEnd := 0x102
    kernPgdir := 0x101
    ncpu := 3
    build := .roundRobin
    npages_le := by decide
    ncpu_pos := by decide
    ncpu_le := by decide
    le_kernPgdir := by decide
    kernPgdir_lt := by decide }

/-- The state `page_init` leaves on it. -/
def smallPageInit : KState :=
  { pcBoot with
    pm := pageInit smallPc (clearedPm fun _ _ => 0#32)
    cpus := fun _ => { cpuStatus := .started, cpuEnv := none, cr3 := 0x101 } }

theorem smallPageInit_done : PageInitDone smallPc smallPageInit := by
  unfold smallPageInit
  generalize hm : pageInit smallPc (clearedPm fun _ _ => 0#32) = m
  exact ⟨⟨fun _ _ => 0#32, fun _ _ => rfl, hm.symm⟩, ⟨fun _ => zeroEnv, fun _ => ⟨rfl, rfl⟩, rfl⟩,
    rfl, fun _ => ⟨rfl, rfl, fun _ => rfl⟩⟩

/-- What is to hold behind the operations that make an environment, map a page in it twice at one
address and once at another, remove the first mapping and free the environment. -/
def mapTwice : List (PageOp × (KState → Bool)) :=
  let live := fun s : KState =>
    (List.range smallPc.npages).all (fun p => (s.pm.ppRef p).toNat < 65535) &&
      (s.envs 0).envPgdir ≠ none
  [(.envAlloc 0#32, fun s => live s && (pageAlloc s.pm 0).1 = some 0x106),
    (.alloc 0, live),
    (.insert 0 0x106 0x800000#32 (pteU ||| pteW), fun s =>
      live s && mapped s 0 0x800000#32 = some 0x106),
    (.insert 0 0x106 0x800000#32 pteU, fun s => live s && mapped s 0 0x800000#32 = some 0x106),
    (.insert 0 0x106 0xC00000#32 pteU, fun s => live s && (s.pm.ppRef 0x106).toNat = 2),
    (.remove 0 0x800000#32, fun s => live s && (s.pm.ppRef 0x106).toNat = 1),
    (.envFree 0, fun s => (s.pm.ppRef 0x106).toNat = 0)]

/-- A page is mapped twice at one address and once at another; it has two references then, one
when the first mapping is removed, and none when the environment is freed. -/
theorem counted_mapTwice : ∃ s₁ s₂ s₃,
    (mapTwice.take 5).foldlM (fun s x => x.1.exec smallPc s) smallPageInit = .ok s₁ ∧
    (s₁.pm.ppRef 0x106).toNat = 2 ∧ Counted smallPc (fun _ => False) s₁ ∧
    (PageOp.remove 0 0x800000#32).exec smallPc s₁ = .ok s₂ ∧
    (s₂.pm.ppRef 0x106).toNat = 1 ∧ Counted smallPc (fun _ => False) s₂ ∧
    (PageOp.envFree 0).exec smallPc s₂ = .ok s₃ ∧
    (s₃.pm.ppRef 0x106).toNat = 0 ∧ Counted smallPc (fun _ => False) s₃ := by
  have hrun : checkRun smallPc mapTwice smallPageInit = true := by decide +kernel
  obtain ⟨s₁, hx₁, hp₁, hrun⟩ := checkRun_cons hrun
  obtain ⟨s₂, hx₂, hp₂, hrun⟩ := checkRun_cons hrun
  obtain ⟨s₃, hx₃, hp₃, hrun⟩ := checkRun_cons hrun
  obtain ⟨s₄, hx₄, hp₄, hrun⟩ := checkRun_cons hrun
  obtain ⟨s₅, hx₅, hp₅, hrun⟩ := checkRun_cons hrun
  obtain ⟨s₆, hx₆, hp₆, hrun⟩ := checkRun_cons hrun
  obtain ⟨s₇, hx₇, hp₇, -⟩ := checkRun_cons hrun
  simp only [Bool.and_eq_true, decide_eq_true_eq] at hp₁ hp₂ hp₃ hp₄ hp₅ hp₆ hp₇
  obtain ⟨⟨hlow₁, hdir₁⟩, hnext⟩ := hp₁
  obtain ⟨hlow₂, hdir₂⟩ := hp₂
  obtain ⟨⟨hlow₃, hdir₃⟩, hmap₃⟩ := hp₃
  obtain ⟨⟨hlow₄, hdir₄⟩, hmap₄⟩ := hp₄
  obtain ⟨⟨hlow₅, hdir₅⟩, href₅⟩ := hp₅
  obtain ⟨⟨hlow₆, hdir₆⟩, href₆⟩ := hp₆
  have hr₁ := reach_pageOp (.init smallPageInit_done) hx₁ (by decide +kernel) trivial
  have hr₂ := reach_pageOp hr₁ hx₂ hlow₁ trivial
  have hdata : DataPage smallPc (fun _ => False) s₂ 0x106 := by
    cases hx₂
    exact (offline_of_reach hr₁).dataPage_alloc (Prod.ext hnext rfl)
  have hr₃ := reach_pageOp hr₂ hx₃ hlow₂ ⟨hdir₂, by decide, by decide, hdata⟩
  have hr₄ := reach_pageOp hr₃ hx₄ hlow₃
    ⟨hdir₃, by decide, by decide, (offline_of_reach hr₃).base.isolated _ _ _ (by decide) hmap₃⟩
  have hr₅ := reach_pageOp hr₄ hx₅ hlow₄
    ⟨hdir₄, by decide, by decide, (offline_of_reach hr₄).base.isolated _ _ _ (by decide) hmap₄⟩
  have hr₆ := reach_pageOp hr₅ hx₆ hlow₅ ⟨hdir₅, by decide⟩
  have hr₇ := reach_pageOp hr₆ hx₇ hlow₆ hdir₆
  refine ⟨s₅, s₆, s₇, ?_, href₅, (counted_of_pmap_reach hr₅).1, hx₆, href₆,
    (counted_of_pmap_reach hr₆).1, hx₇, hp₇, (counted_of_pmap_reach hr₇).1⟩
  simp only [mapTwice, List.take_succ_cons, List.take_zero, List.foldlM_cons, List.foldlM_nil, hx₁, hx₂,
    hx₃, hx₄, hx₅, Except.ok_bind_eq]
  rfl

end Jos
end Sisop

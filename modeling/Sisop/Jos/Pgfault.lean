import Sisop.Jos.UserLib
import Sisop.Jos.UserCheck
import Sisop.Jos.Upcall

/-!
# The page fault handler of `fork`

The guard of `pgfault` is `(err & FEC_WR) & !(fault_pte & PTE_COW)`.  The first operand
is 0 or 2 and the second 0 or 1, so their bitwise conjunction is always 0 and the handler
never refuses a fault there.  A fault that is not a write to a copy-on-write page goes
on to the copy, which replaces the page, or faults on the same address again.
-/

namespace Sisop
namespace Jos

open RefCount TransitionSystem UserLib

def fecWr : Word := 0x2#32
def pteCow : Word := 0x800#32

/-- The `!` of C. -/
def lnot (w : Word) : Word := if w = 0#32 then 1#32 else 0#32

/-- `PTE_P | PTE_U | PTE_W`. -/
def pgfaultPerm : Word := pteP ||| pteU ||| pteW

/-- `pgfault` of environment `cur`, with page directory `d`. -/
def pgfault (M : Machine) (cur d : Nat) (utfFaultVa utfErr : Word) : UserLib Unit := do
  let faultPte ← readUvpt d (pgnum utfFaultVa)
  if (utfErr &&& fecWr) &&& lnot (faultPte &&& pteCow) ≠ 0#32 then
    UserLib.panic "pgfault: write fault on a non COW page" 0
  else do
    let _ ← orPanic "pgfault: sys_page_alloc" fun s =>
      sysPageAlloc M s cur 0#32 pftemp pgfaultPerm
    let addr := rounddown utfFaultVa
    memmovePage d pftemp addr
    let _ ← orPanic "pgfault: sys_page_map" fun s =>
      sysPageMap M s cur 0#32 pftemp 0#32 addr pgfaultPerm
    let _ ← orPanic "pgfault: sys_page_unmap" fun s => sysPageUnmap M s cur 0#32 pftemp
    pure ()

/-- The fault is a write to a page that is present and copy-on-write. -/
def CowWrite (m : PMap) (d : Nat) (va err : Word) : Prop :=
  err &&& fecWr ≠ 0#32 ∧ pteAt m d va &&& pteP ≠ 0#32 ∧ pteAt m d va &&& pteCow ≠ 0#32

instance (m : PMap) (d : Nat) (va err : Word) : Decidable (CowWrite m d va err) :=
  inferInstanceAs (Decidable (_ ∧ _ ∧ _))

/-- Page `p`, which was free, is mapped writable at `va` of `cur` and nowhere else, with the
contents of the page that was there.  The other mappings stay, `PFTEMP` apart. -/
structure PrivateCopy (s s' : KState) (cur : Nat) (va : Word) (p : Nat) : Prop where
  fresh : OnFreeList s.pm p
  word : wordAt s' cur va = page2pa p ||| pgfaultPerm
  alone : ∀ e x, x < utop → entry (wordAt s' e x) = some p →
    e = cur ∧ pdx x = pdx va ∧ ptx x = ptx va
  contents : ∀ i, i < 1024 → s'.pm.mem p i = s.pm.mem (pgnum (wordAt s cur va)) i
  others : ∀ e x, ¬ (e = cur ∧ pdx x = pdx va ∧ ptx x = ptx va) →
    ¬ (e = cur ∧ pdx x = pdx pftemp ∧ ptx x = ptx pftemp) → wordAt s' e x = wordAt s e x

/-- What the comment of `pgfault` promises of one fault. -/
structure PgfaultContract (M : Machine) (s : KState) (cur d : Nat) (va err : Word) : Prop where
  copies : CowWrite s.pm d va err → ∃ s' p, pgfault M cur d va err s = .ok (.returns () s') ∧
    PrivateCopy s s' cur va p
  panics : ¬ CowWrite s.pm d va err → ∃ msg r s', pgfault M cur d va err s =
    .ok (.panics msg r s') ∧ ∀ e x, x < utop → wordAt s' e x = wordAt s e x

/-- A write to a copy-on-write page that the handler copies: the page is the program's, it
is not the temporary one, and there is memory.  Any other fault ends in a panic only when
the entry of the page can be read and there is no memory. -/
def PgfaultFits (s : KState) (cur d : Nat) (va err : Word) : Prop :=
  if CowWrite s.pm d va err then
    va < utop ∧ rounddown va ≠ pftemp ∧ translate s.pm d userLoad va ≠ none ∧
      PageRoom s cur pftemp pgfaultPerm
  else uvpt s.pm d (pgnum va) ≠ none ∧ ¬ PageRoom s cur pftemp pgfaultPerm

section

variable {M : Machine} {K : Nat → Prop} {s : KState} {cur d : Nat} {va err : Word}

/-- The guard of the handler never holds. -/
theorem guard_eq_zero (err w : Word) : (err &&& fecWr) &&& lnot w = 0#32 := by
  have hor : lnot w = 0#32 ∨ lnot w = 1#32 := by
    unfold lnot
    split
    · exact .inr rfl
    · exact .inl rfl
  rcases hor with h | h
  · rw [h, BitVec.and_zero]
  · rw [h, BitVec.and_assoc, show fecWr &&& 1#32 = 0#32 by decide, BitVec.and_zero]

/-- The handler behind its copy. -/
def pgfaultMap (M : Machine) (cur : Nat) (addr : Word) : UserLib Unit := do
  let _ ← orPanic "pgfault: sys_page_map" fun s =>
    sysPageMap M s cur 0#32 pftemp 0#32 addr pgfaultPerm
  let _ ← orPanic "pgfault: sys_page_unmap" fun s => sysPageUnmap M s cur 0#32 pftemp
  pure ()

/-- The handler behind its `sys_page_alloc`. -/
def pgfaultCopy (M : Machine) (cur d : Nat) (addr : Word) : UserLib Unit := do
  memmovePage d pftemp addr
  pgfaultMap M cur addr

theorem pgfault_unreadable (h : uvpt s.pm d (pgnum va) = none) :
    pgfault M cur d va err s = .ok (.faults (uvptVa (pgnum va)) s) := by
  have hread : readUvpt d (pgnum va) s = .ok (.faults (uvptVa (pgnum va)) s) := by
    rw [readUvpt, h]
  exact bind_faults hread

theorem pgfault_readable (h : uvpt s.pm d (pgnum va) ≠ none) :
    pgfault M cur d va err s = (orPanic "pgfault: sys_page_alloc" (fun s =>
      sysPageAlloc M s cur 0#32 pftemp pgfaultPerm) >>= fun _ =>
        pgfaultCopy M cur d (rounddown va)) s := by
  obtain ⟨pte, hpte⟩ := Option.ne_none_iff_exists'.mp h
  have hread : readUvpt d (pgnum va) s = .ok (.returns pte s) := by
    rw [readUvpt, hpte]
  unfold pgfault
  rw [bind_returns hread, if_neg (not_not.mpr (guard_eq_zero err _))]
  rfl

theorem pftemp_ok : ¬ badVa pftemp := by decide

theorem rounddown_aligned (va : Word) : (rounddown va).toNat % 4096 = 0 := by
  rw [toNat_rounddown_eq]
  omega

theorem rounddown_slot (va : Word) : pdx (rounddown va) = pdx va ∧ ptx (rounddown va) = ptx va := by
  have hround := toNat_rounddown_eq va
  rw [pdx_eq, pdx_eq, ptx_eq, ptx_eq]
  constructor <;> omega

theorem rounddown_badVa (va : Word) : badVa (rounddown va) ↔ utop ≤ va := by
  have hround := toNat_rounddown_eq va
  have hutop : utop.toNat = 4005560320 := rfl
  have hal : rounddown va % 4096#32 = 0#32 := by
    refine BitVec.eq_of_toNat_eq ?_
    rw [BitVec.toNat_umod]
    exact rounddown_aligned va
  unfold badVa
  rw [BitVec.le_def, BitVec.le_def]
  constructor
  · rintro (hle | hne)
    · omega
    · exact absurd hal hne
  · intro hle
    exact .inl (by omega)

theorem pgfaultPerm_eq : pgfaultPerm = userStore := by decide

/-- The entry of a page mapped with `PTE_P|PTE_U|PTE_W`. -/
theorem pgfault_word (p : Nat) : page2pa p ||| (pgfaultPerm ||| pteU ||| pteP) ||| pteP =
      page2pa p ||| pgfaultPerm ∧
    page2pa p ||| (pteP ||| pteU ||| pgfaultPerm) ||| pteP = page2pa p ||| pgfaultPerm := by
  constructor
  · rw [BitVec.or_assoc, show pgfaultPerm ||| pteU ||| pteP ||| pteP = pgfaultPerm by decide]
  · rw [BitVec.or_assoc, show pteP ||| pteU ||| pgfaultPerm ||| pteP = pgfaultPerm by decide]

/-- The temporary page: fresh, and mapped at `PFTEMP` alone. -/
structure Temporary (M : Machine) (K : Nat → Prop) (s : KState) (cur d p : Nat)
    (free : List Nat) : Prop where
  inv : PageInv M K s.pm s.dirs free fun _ => 0
  dir : s.dirs cur = some d
  lt : p < 2 ^ 20
  word : wordAt s cur pftemp = page2pa p ||| pgfaultPerm
  refs : refs slots (target s.pm s.dirs) p = 1

/-- The temporary page goes where `addr` is, or it cannot be mapped there. -/
theorem pgfaultMap_cases {p : Nat} {free : List Nat} (h : Temporary M K s cur d p free)
    (addr : Word) :
    (∃ msg r, (badVa addr ∨ pdeWord s.pm s.dirs cur (pdx addr) = 0#32) ∧
      pgfaultMap M cur addr s = .ok (.panics msg r s)) ∨
    ¬ badVa addr ∧ ∃ m', pgfaultMap M cur addr s = .ok (.returns () { s with pm := m' }) ∧
      (∀ i, m'.mem p i = s.pm.mem p i) ∧
      ∀ e i j, pteWord m' s.dirs e i j =
        if e = cur ∧ i = pdx pftemp ∧ j = ptx pftemp then 0#32
        else if e = cur ∧ i = pdx addr ∧ j = ptx addr then page2pa p ||| pgfaultPerm
        else pteWord s.pm s.dirs e i j := by
  obtain ⟨hne, hpg, hentry, hwrite⟩ := entry_store h.lt
  rw [← pgfaultPerm_eq] at hne hpg hentry hwrite
  by_cases hbad : badVa addr
  · have hmap : sysPageMap M s cur 0#32 pftemp 0#32 addr pgfaultPerm = .ok (-eInval, s) := by
      unfold sysPageMap
      rw [if_neg pftemp_ok, if_pos hbad]
    exact .inl ⟨_, _, .inl hbad, bind_panics (orPanic_panics hmap (by decide))⟩
  · rcases h.inv.sysPageMap_cases pgfaultPerm (envid2env_zero true)
      (envid2env_zero true) h.dir h.dir pftemp_ok hbad (by rw [h.word]; exact hne)
      (fun _ => by rw [h.word]; exact hwrite) (by decide)
      (by rw [h.word, hpg, h.refs]; omega) with
      ⟨-, hz, hmap⟩ | ⟨m₁, free₁, hmap, hinv₁, hpte₁, hmem₁⟩
    · exact .inl ⟨_, _, .inr hz, bind_panics (orPanic_panics hmap (by decide))⟩
    · obtain ⟨m₂, free₂, hunmap, -, hpte₂, hmem₂⟩ := PageInv.sysPageUnmap_spec
        (s := { s with pm := m₁ }) hinv₁ (envid2env_zero true) h.dir pftemp_ok
      refine .inr ⟨hbad, m₂, ?_, fun i => ?_, fun e i j => ?_⟩
      · have hcall : pgfaultMap M cur addr s = (orPanic "pgfault: sys_page_unmap" (fun s =>
            sysPageUnmap M s cur 0#32 pftemp) >>= fun _ => pure ()) { s with pm := m₁ } :=
          bind_returns (orPanic_returns hmap (by decide))
        rw [hcall]
        exact bind_returns (orPanic_returns hunmap (by decide))
      · have hdata : Data s.pm s.dirs free p := h.inv.data_of_pte
          (show target s.pm s.dirs (.pte cur (pdx pftemp) (ptx pftemp)) = some p by
            rw [← hentry, ← h.word]
            rfl)
        have hdata₁ : Data m₁ s.dirs free₁ p := hinv₁.data_of_pte
          (show target m₁ s.dirs (.pte cur (pdx addr) (ptx addr)) = some p by
            simp only [target, hpte₁]
            rw [if_pos ⟨trivial, trivial, trivial⟩, h.word, hpg, (pgfault_word p).2]
            exact hentry)
        rw [hmem₂ p hdata₁, hmem₁ p hdata]
      · refine (hpte₂ e i j).trans ?_
        by_cases htemp : e = cur ∧ i = pdx pftemp ∧ j = ptx pftemp
        · rw [if_pos htemp, if_pos htemp]
        · rw [if_neg htemp, if_neg htemp]
          refine (hpte₁ e i j).trans ?_
          rw [h.word, hpg, (pgfault_word p).2]

/-- The copy changes the contents of the temporary page only. -/
theorem memmovePage_cases {p : Nat} {free : List Nat} {addr : Word}
    (h : Temporary M K s cur d p free) (hal : addr.toNat % 4096 = 0) :
    ∃ m', Temporary M K { s with pm := m' } cur d p free ∧
      (∀ e i, pdeWord m' s.dirs e i = pdeWord s.pm s.dirs e i) ∧
      (∀ e i j, pteWord m' s.dirs e i j = pteWord s.pm s.dirs e i j) ∧
      (memmovePage d pftemp addr s = .ok (.returns () { s with pm := m' }) ∨
        ∃ a, memmovePage d pftemp addr s = .ok (.faults a { s with pm := m' })) ∧
      ∀ q, pdx addr < pdxUtop → translate s.pm d userLoad addr = some q → q ≠ p →
        memmovePage d pftemp addr s = .ok (.returns () { s with pm := m' }) ∧
        ∀ i, i < 1024 → m'.mem p i = s.pm.mem q i := by
  obtain ⟨-, hpg, -, -⟩ := entry_store h.lt
  have hi : pdx pftemp < pdxUtop := by decide
  have hstore : translate s.pm d userStore pftemp = some p := by
    rw [h.inv.translate_eq h.dir hi (by decide) (by decide),
      show pteWord s.pm s.dirs cur (pdx pftemp) (ptx pftemp) = _ from h.word,
      pgfaultPerm_eq, if_pos (or_and_self _ _), hpg]
  obtain ⟨m', hframe, hend, hcopy⟩ := h.inv.movsl_spec (n := nptentries) (k := 0) h.dir
    (show pftemp.toNat % 4096 = 0 by decide) hi hstore addr (by decide)
  have hreturns (hok : movsl s.pm d pftemp addr nptentries 0 = .ok m') :
      memmovePage d pftemp addr s = .ok (.returns () { s with pm := m' }) := by
    rw [memmovePage, hok]
  refine ⟨m', ⟨hframe.inv, h.dir, h.lt, (hframe.pte _ _ _).trans h.word, ?_⟩, hframe.pde,
    hframe.pte, ?_, fun q hq ht hqp => ?_⟩
  · rw [← h.refs]
    exact congrArg (refs slots · p) (target_congr hframe.pde hframe.pte)
  · rcases hend with hok | ⟨a, herr⟩
    · exact .inl (hreturns hok)
    · refine .inr ⟨a, ?_⟩
      rw [memmovePage, herr]
  · obtain ⟨hok, hmem⟩ := hcopy q hal hq ht hqp
    refine ⟨hreturns hok, fun i hlt => ?_⟩
    rw [hmem, if_pos]
    exact ⟨Nat.zero_le i, by unfold nptentries; omega⟩

/-- Behind its `sys_page_alloc` the handler faults in the copy, panics at the
`sys_page_map`, or puts the copy where `addr` is. -/
theorem pgfaultCopy_cases {p : Nat} {free : List Nat} {addr : Word}
    (h : Temporary M K s cur d p free) (hal : addr.toNat % 4096 = 0) :
    ∃ m, Temporary M K { s with pm := m } cur d p free ∧
      ((∃ a, memmovePage d pftemp addr s = .ok (.faults a { s with pm := m }) ∧
          pgfaultCopy M cur d addr s = .ok (.faults a { s with pm := m })) ∨
        (∃ msg r, pgfaultCopy M cur d addr s = .ok (.panics msg r { s with pm := m })) ∨
        ¬ badVa addr ∧ memmovePage d pftemp addr s = .ok (.returns () { s with pm := m }) ∧
          ∃ m', pgfaultCopy M cur d addr s = .ok (.returns () { s with pm := m' }) ∧
            ∀ e i j, pteWord m' s.dirs e i j =
              if e = cur ∧ i = pdx pftemp ∧ j = ptx pftemp then 0#32
              else if e = cur ∧ i = pdx addr ∧ j = ptx addr then page2pa p ||| pgfaultPerm
              else pteWord m s.dirs e i j) := by
  obtain ⟨m, htemp, -, -, hmove | ⟨a, hmove⟩, -⟩ := memmovePage_cases h hal
  · have hcall : pgfaultCopy M cur d addr s = pgfaultMap M cur addr { s with pm := m } :=
      bind_returns hmove
    refine ⟨m, htemp, .inr ?_⟩
    rw [hcall]
    rcases pgfaultMap_cases htemp addr with ⟨msg, r, -, hmap⟩ | ⟨hok, m', hmap, -, hpte⟩
    · exact .inl ⟨msg, r, hmap⟩
    · exact .inr ⟨hok, hmove, m', hmap, hpte⟩
  · exact ⟨m, htemp, .inl ⟨a, hmove, bind_faults hmove⟩⟩

theorem rounddown_eq_pftemp_iff (va : Word) :
    rounddown va = pftemp ↔ pdx va = pdx pftemp ∧ ptx va = ptx pftemp := by
  obtain ⟨hpdx, hptx⟩ := rounddown_slot va
  constructor
  · intro heq
    exact ⟨by rw [← hpdx, heq], by rw [← hptx, heq]⟩
  · rintro ⟨hi, hj⟩
    have hround := toNat_rounddown_eq va
    have htemp : pftemp.toNat = 8384512 := rfl
    rw [pdx_eq, pdx_eq] at hi
    rw [ptx_eq, ptx_eq] at hj
    refine BitVec.eq_of_toNat_eq ?_
    omega

/-- What the program reads, it reads through a directory entry `uvpt` can follow. -/
theorem uvpt_of_translate {m : PMap} (h : translate m d userLoad va ≠ none) :
    uvpt m d (pgnum va) ≠ none := by
  intro hnone
  refine h ?_
  have hidx : pgnum va / 1024 = pdx va := by
    rw [pgnum_eq, pdx_eq]
    omega
  unfold uvpt uvpd at hnone
  rw [hidx] at hnone
  unfold translate
  dsimp only
  split at hnone
  · cases hnone
  · rename_i hperm
    rw [if_neg hperm]

/-- The first `sys_page_alloc`. -/
theorem pgfault_alloc {free : List Nat} (h : PageInv M K s.pm s.dirs free fun _ => 0)
    (hdir : s.dirs cur = some d) (hread : uvpt s.pm d (pgnum va) ≠ none) (err : Word) :
    (¬ PageRoom s cur pftemp pgfaultPerm ∧ ∃ msg r m', pgfault M cur d va err s =
        .ok (.panics msg r { s with pm := m' }) ∧
        ∀ e i j, pteWord m' s.dirs e i j = pteWord s.pm s.dirs e i j) ∨
    PageRoom s cur pftemp pgfaultPerm ∧ ∃ m' free' p, p ∈ free ∧
      pgfault M cur d va err s = pgfaultCopy M cur d (rounddown va) { s with pm := m' } ∧
      Temporary M K { s with pm := m' } cur d p free' ∧
      (∀ e i j, pteWord m' s.dirs e i j =
        if e = cur ∧ i = pdx pftemp ∧ j = ptx pftemp then page2pa p ||| pgfaultPerm
        else pteWord s.pm s.dirs e i j) ∧
      ∀ q, Data s.pm s.dirs free q → m'.mem q = s.pm.mem q := by
  rw [pgfault_readable hread]
  rcases h.sysPageAlloc_cases (envid2env_zero true) hdir pftemp_ok
    (show PermOk pgfaultPerm by decide) with
    ⟨hroom, m', hcall, -, hpte⟩ | ⟨hroom, m', free', p, hcall, hp, h', hpte, hmem⟩
  · exact .inl ⟨hroom, _, _, m', bind_panics (orPanic_panics hcall (by decide)), hpte⟩
  · rw [(pgfault_word p).1] at hpte
    have hlt := (h.free_pool p hp).lt
    obtain ⟨-, hrefs⟩ := h.mapped_once h' hp (pgfaultPerm_eq ▸ (entry_store hlt).2.2.1)
      (by rw [hdir]; exact Option.some_ne_none d) (by decide) (by decide) hpte
    refine .inr ⟨hroom, m', free', p, hp, bind_returns (orPanic_returns hcall (by decide)),
      ⟨h', hdir, hlt, ?_, hrefs⟩, hpte, hmem⟩
    exact (hpte _ _ _).trans (if_pos ⟨rfl, rfl, rfl⟩)

/-- The temporary mapping is in the way of no other page of the program. -/
theorem translate_alloc {m' : PMap} {free free' : List Nat} {w : Word}
    (h : PageInv M K s.pm s.dirs free fun _ => 0) (h' : PageInv M K m' s.dirs free' fun _ => 0)
    (hdir : s.dirs cur = some d) (hva : va < utop) (hne : rounddown va ≠ pftemp)
    (hpte : ∀ e i j, pteWord m' s.dirs e i j =
      if e = cur ∧ i = pdx pftemp ∧ j = ptx pftemp then w else pteWord s.pm s.dirs e i j) :
    translate m' d userLoad (rounddown va) = translate s.pm d userLoad va := by
  obtain ⟨hpdx, hptx⟩ := rounddown_slot va
  have hi : pdx va < pdxUtop := (pdx_lt_pdxUtop_iff va).mpr hva
  have hword : pteWord m' s.dirs cur (pdx va) (ptx va) =
      pteWord s.pm s.dirs cur (pdx va) (ptx va) :=
    (hpte _ _ _).trans (if_neg fun hsame => hne ((rounddown_eq_pftemp_iff va).mpr hsame.2))
  rw [h.translate_eq hdir hi (by decide) (by decide),
    h'.translate_eq hdir (by rw [hpdx]; exact hi) (by decide) (by decide), hpdx, hptx, hword]

/-- A fault on a page of the program ends with the page replaced by a copy. -/
theorem pgfault_copies {free : List Nat} (h : PageInv M K s.pm s.dirs free fun _ => 0)
    (hdir : s.dirs cur = some d) (hva : va < utop) (hne : rounddown va ≠ pftemp)
    (ht : translate s.pm d userLoad va ≠ none) (hroom : PageRoom s cur pftemp pgfaultPerm) :
    ∃ s' p, pgfault M cur d va err s = .ok (.returns () s') ∧ PrivateCopy s s' cur va p := by
  obtain ⟨hpdx, hptx⟩ := rounddown_slot va
  obtain ⟨q, hq⟩ := Option.ne_none_iff_exists'.mp ht
  have hi : pdx va < pdxUtop := (pdx_lt_pdxUtop_iff va).mpr hva
  rcases pgfault_alloc h hdir (uvpt_of_translate ht) err with
    ⟨hno, -⟩ | ⟨-, m₁, free₁, p, hp, hgo, htemp, hpte₁, hmem₁⟩
  · exact absurd hroom hno
  -- The page of `va` is another one than the temporary page, which was free.
  have htgt := h.translate_target hdir hi (by decide) (by decide) hq
  have hqp : q ≠ p := fun heq => h.free_unref p hp _ (heq ▸ htgt)
  have hq₁ : translate m₁ d userLoad (rounddown va) = some q := by
    rw [translate_alloc h htemp.inv hdir hva hne hpte₁]
    exact hq
  obtain ⟨m₂, htemp₂, hpde₂, hpte₂, -, hcopy⟩ := memmovePage_cases htemp (rounddown_aligned va)
  obtain ⟨hmove, hmem₂⟩ := hcopy q (by rw [hpdx]; exact hi) hq₁ hqp
  have hslot : ¬ (pdx va = pdx pftemp ∧ ptx va = ptx pftemp) :=
    fun hsame => hne ((rounddown_eq_pftemp_iff va).mpr hsame)
  have hold : pteWord m₂ s.dirs cur (pdx va) (ptx va) = wordAt s cur va :=
    (hpte₂ _ _ _).trans ((hpte₁ _ _ _).trans (if_neg fun hsame => hslot hsame.2))
  have hword : wordAt s cur va ≠ 0#32 := (entry_eq_some.mp htgt).1
  rcases pgfaultMap_cases htemp₂ (rounddown va) with
    ⟨_, _, hbad | hz, -⟩ | ⟨-, m₃, hmap, hmem₃, hpte₃⟩
  · exact absurd ((rounddown_badVa va).mp hbad) (BitVec.not_le.mpr hva)
  · rw [hpdx] at hz
    exact absurd (hold ▸ pteWord_of_no_pde hz) hword
  have hend (e i j : Nat) : pteWord m₃ s.dirs e i j =
      if e = cur ∧ i = pdx pftemp ∧ j = ptx pftemp then 0#32
      else if e = cur ∧ i = pdx va ∧ j = ptx va then page2pa p ||| pgfaultPerm
      else pteWord s.pm s.dirs e i j := by
    refine (hpte₃ e i j).trans ?_
    rw [hpdx, hptx]
    split
    · rfl
    · rename_i hno
      split
      · rfl
      · exact (hpte₂ _ _ _).trans ((hpte₁ _ _ _).trans (if_neg hno))
  refine ⟨{ s with pm := m₃ }, p, ?_, ?_⟩
  · rw [hgo]
    exact (bind_returns hmove).trans hmap
  refine ⟨(h.onFreeList_iff p).mpr hp, ?_, ?_, ?_, ?_⟩
  · refine (hend _ _ _).trans ?_
    rw [if_neg fun hsame => hslot hsame.2, if_pos ⟨rfl, rfl, rfl⟩]
  · intro e x _ hx
    by_contra hno
    rw [show wordAt { s with pm := m₃ } e x = pteWord m₃ s.dirs e (pdx x) (ptx x) from rfl,
      hend, if_neg hno] at hx
    split at hx
    · cases hx
    · exact h.free_unref p hp (.pte e (pdx x) (ptx x)) hx
  · intro i hlt
    have hpage : q = pgnum (wordAt s cur va) := ((entry_eq_some.mp htgt).2).symm
    rw [← hpage]
    exact (hmem₃ i).trans ((hmem₂ i hlt).trans (congrFun (hmem₁ q (h.data_of_pte htgt)) i))
  · intro e x hno htmp
    refine (hend _ _ _).trans ?_
    rw [if_neg htmp, if_neg hno]
    rfl

/-- A copy from an address the program cannot read faults there. -/
theorem memmovePage_faults {addr : Word} (h : translate s.pm d userLoad addr = none) :
    memmovePage d pftemp addr s = .ok (.faults addr s) := by
  have hword : wordOf s.pm d addr = none := by
    rw [wordOf, h]
    rfl
  have hmove : movsl s.pm d pftemp addr nptentries 0 = .error (addr, s.pm) := by
    unfold nptentries
    rw [movsl, show addr + BitVec.ofNat 32 (4 * 0) = addr by simp, hword]
  rw [memmovePage, hmove]

/-- A fault that the handler copies is one it can copy. -/
theorem fits_of_copies {free : List Nat} (h : PageInv M K s.pm s.dirs free fun _ => 0)
    (hdir : s.dirs cur = some d) {s' : KState} {p : Nat}
    (hrun : pgfault M cur d va err s = .ok (.returns () s')) (hcopy : PrivateCopy s s' cur va p) :
    va < utop ∧ rounddown va ≠ pftemp ∧ translate s.pm d userLoad va ≠ none ∧
      PageRoom s cur pftemp pgfaultPerm := by
  obtain ⟨hpdx, hptx⟩ := rounddown_slot va
  by_cases hread : uvpt s.pm d (pgnum va) = none
  · rw [pgfault_unreadable hread] at hrun
    cases hrun
  rcases pgfault_alloc h hdir hread err with
    ⟨-, _, _, _, hpanic, -⟩ | ⟨hroom, m₁, free₁, p₁, hp, hgo, htemp, hpte₁, -⟩
  · rw [hpanic] at hrun
    cases hrun
  rw [hgo] at hrun
  obtain ⟨m₂, -, ⟨a, -, hfault⟩ | ⟨_, _, hpanic⟩ | ⟨hok, hmove, m₃, hmap, hpte₃⟩⟩ :=
    pgfaultCopy_cases htemp (rounddown_aligned va)
  · rw [hfault] at hrun
    cases hrun
  · rw [hpanic] at hrun
    cases hrun
  rw [hmap] at hrun
  cases hrun
  have hva : va < utop := BitVec.not_le.mp fun hle => hok ((rounddown_badVa va).mpr hle)
  have hne : rounddown va ≠ pftemp := by
    intro heq
    have hword : wordAt { s with pm := m₃ } cur va = 0#32 := by
      refine (hpte₃ _ _ _).trans (if_pos ?_)
      exact ⟨rfl, (rounddown_eq_pftemp_iff va).mp heq⟩
    have hzero := hword.symm.trans hcopy.word
    exact absurd (hzero ▸ or_and_self (page2pa p) pgfaultPerm) (by decide)
  refine ⟨hva, hne, fun hnone => ?_, hroom⟩
  rw [← translate_alloc h htemp.inv hdir hva hne hpte₁] at hnone
  rw [memmovePage_faults hnone] at hmove
  cases hmove

/-- With room for the temporary page, the handler never ends in a panic that leaves every
mapping as it was. -/
theorem pgfault_remaps {free : List Nat} (h : PageInv M K s.pm s.dirs free fun _ => 0)
    (hdir : s.dirs cur = some d) (hread : uvpt s.pm d (pgnum va) ≠ none)
    (hroom : PageRoom s cur pftemp pgfaultPerm) {s' : KState} {msg : String} {r : Int}
    (hrun : pgfault M cur d va err s = .ok (.panics msg r s')) :
    wordAt s' cur pftemp ≠ wordAt s cur pftemp := by
  rcases pgfault_alloc h hdir hread err with
    ⟨hno, -⟩ | ⟨-, m₁, free₁, p, hp, hgo, htemp, -, -⟩
  · exact absurd hroom hno
  rw [hgo] at hrun
  obtain ⟨m₂, htemp₂, ⟨a, -, hfault⟩ | ⟨_, _, hpanic⟩ | ⟨-, -, m₃, hmap, -⟩⟩ :=
    pgfaultCopy_cases htemp (rounddown_aligned va)
  · rw [hfault] at hrun
    cases hrun
  swap
  · rw [hmap] at hrun
    cases hrun
  rw [hpanic] at hrun
  cases hrun
  rw [htemp₂.word]
  intro hsame
  refine h.free_unref p hp (.pte cur (pdx pftemp) (ptx pftemp)) ?_
  rw [show target s.pm s.dirs (.pte cur (pdx pftemp) (ptx pftemp)) =
    entry (wordAt s cur pftemp) from rfl, ← hsame]
  exact pgfaultPerm_eq ▸ (entry_store htemp.lt).2.2.1

/-- Of every fault of a program that runs the handler. -/
theorem pgfaultContract_iff (h : BaseInv M K s) (hdir : (s.envs cur).envPgdir = some d)
    (va err : Word) :
    PgfaultContract M s cur d va err ↔ PgfaultFits s cur d va err := by
  obtain ⟨free, hp⟩ := h.pages
  unfold PgfaultFits
  by_cases hcow : CowWrite s.pm d va err
  · rw [if_pos hcow]
    constructor
    · intro hcontract
      obtain ⟨s', p, hrun, hcopy⟩ := hcontract.copies hcow
      exact fits_of_copies hp hdir hrun hcopy
    · rintro ⟨hva, hne, ht, hroom⟩
      exact ⟨fun _ => pgfault_copies hp hdir hva hne ht hroom, fun hno => absurd hcow hno⟩
  · rw [if_neg hcow]
    constructor
    · intro hcontract
      obtain ⟨msg, r, s', hrun, hsame⟩ := hcontract.panics hcow
      have hread : uvpt s.pm d (pgnum va) ≠ none := by
        intro hnone
        rw [pgfault_unreadable hnone] at hrun
        cases hrun
      exact ⟨hread, fun hroom =>
        pgfault_remaps hp hdir hread hroom hrun (hsame cur pftemp (by decide))⟩
    · rintro ⟨hread, hfull⟩
      refine ⟨fun hyes => absurd hyes hcow, fun _ => ?_⟩
      rcases pgfault_alloc hp hdir hread err with
        ⟨-, msg, r, m', hrun, hpte⟩ | ⟨hroom, -⟩
      · exact ⟨msg, r, { s with pm := m' }, hrun, fun e x _ => hpte e (pdx x) (ptx x)⟩
      · exact absurd hroom hfull

end

/-- How a fault of the handler itself ends. -/
def faultsAt (x : Except Stop (UserEnd Unit)) : Option Word :=
  match x with
  | .ok (.faults va _) => some va
  | _ => none

/-- `sys_page_alloc` of a page that is marked copy-on-write. -/
def allocCow : Event := call 0 4#32 0#32 0x1000#32 0x805#32 0#32 0#32

/-- A write to that page. -/
theorem pgfaultContract_pc : ∃ s, BaseInv (pc .roundRobin) lowPages s ∧
    CowWrite s.pm 0x7FFF 0x1234#32 7#32 ∧
      PgfaultContract (pc .roundRobin) s 0 0x7FFF 0x1234#32 7#32 := by
  have hrun : (run (pc .roundRobin) [.create emptyImage, .start 0] pcBoot).any (fun s =>
      harmless s allocCow && (exec (pc .roundRobin) s allocCow).any fun s =>
        (s.envs 0).envPgdir = some 0x7FFF ∧ CowWrite s.pm 0x7FFF 0x1234#32 7#32 ∧
          translate s.pm 0x7FFF userLoad 0x1234#32 ≠ none ∧
          s.pm.pageFreeList.bind s.pm.ppLink ≠ none) = true := by
    decide
  obtain ⟨s, hreach, hs⟩ := exists_reach (pcBoot_booted .roundRobin) fits_created hrun
  rw [Bool.and_eq_true, Option.any_eq_true] at hs
  obtain ⟨hharmless, s₁, hexec, hs₁⟩ := hs
  rw [decide_eq_true_eq] at hs₁
  obtain ⟨hdir, hcow, ht, hmem⟩ := hs₁
  have hbase := base_reach
    (reach_exec allocCow hreach (guard_of_harmless hharmless fun _ => trivial) hexec)
  refine ⟨s₁, hbase, hcow, (pgfaultContract_iff hbase hdir _ _).mpr ?_⟩
  unfold PgfaultFits
  rw [if_pos hcow]
  refine ⟨by decide, by decide, ht, fun hnone => hmem ?_, fun hlast => ?_⟩
  · rw [hnone]
    rfl
  · obtain ⟨_, ⟨p, hhead, hlink⟩, _⟩ := hlast
    rw [hhead] at hmem
    exact hmem hlink

/-- The first environment reads below its stack page, and the handler reads there too. -/
theorem pgfault_faults_again : ¬ ∀ s cur d va err, (kernel (pc .roundRobin) lowPages).Reach
    anyEvent s → s.curenv 0 = some cur → (s.envs cur).envPgdir = some d →
      PgfaultContract (pc .roundRobin) s cur d va err := by
  intro hall
  have hrun : (run (pc .roundRobin) [.create emptyImage, .start 0] pcBoot).any (fun s =>
      s.curenv 0 = some 0 ∧ (s.envs 0).envPgdir = some 0x7FFF ∧
        ¬ CowWrite s.pm 0x7FFF 0xeebfc000#32 4#32 ∧
        faultsAt (pgfault (pc .roundRobin) 0 0x7FFF 0xeebfc000#32 4#32 s) =
          some 0xeebfc000#32) = true := by
    decide
  obtain ⟨s, hreach, hs⟩ := reach_of_any (pcBoot_booted .roundRobin) hrun
  rw [decide_eq_true_eq] at hs
  obtain ⟨hcur, hdir, hcow, hfaults⟩ := hs
  obtain ⟨msg, r, s', hpanics, -⟩ := (hall s 0 0x7FFF 0xeebfc000#32 4#32 hreach hcur hdir).panics
    hcow
  rw [hpanics] at hfaults
  cases hfaults

end Jos
end Sisop

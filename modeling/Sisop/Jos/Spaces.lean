import Sisop.Lib.CopyOnWrite
import Sisop.Jos.ForkV0
import Sisop.Jos.Pgfault
import Sisop.Jos.LoadIcode

/-!
# Address spaces as places

The pages below `UTOP` of all environments as places that have frames.  A system call that
maps or unmaps a page changes one place and no contents that anybody has mapped; a store
changes one byte of one frame and no place.
-/

namespace Sisop
namespace Jos

open RefCount CopyOnWrite

/-- The entry of environment `x.1` for its page `x.2`. -/
def wordOn (s : KState) (x : Nat × Nat) : Word := pageEntry s.pm s.dirs x.1 x.2

/-- The frames of the environments, and which may be written. -/
def spaces (s : KState) : Spaces Nat Nat Nat where
  frame x := entry (wordOn s x)
  writes x := wordOn s x &&& pteW ≠ 0#32

/-- The byte of environment `e` at `va`, if a page is there. -/
def byteAt (s : KState) (e : Nat) (va : Word) : Option (BitVec 8) :=
  (entry (wordOn s (e, pgnum va))).map fun p => s.pm.byte p (va.toNat % pgsize)

/-- The place has the entry it had, with the contents it had. -/
def Kept (s s' : KState) (x : Nat × Nat) : Prop :=
  wordOn s' x = wordOn s x ∧ ∀ p, entry (wordOn s x) = some p → s'.pm.mem p = s.pm.mem p

/-- One place has got entry `w`, and no frame that anybody had has changed. -/
structure Replaced (M : Machine) (K : Nat → Prop) (s s' : KState) (x₀ : Nat × Nat) (w : Word) :
    Prop where
  base : BaseInv M K s'
  envs : s'.envs = s.envs
  word : ∀ x, wordOn s' x = if x = x₀ then w else wordOn s x
  mem : ∀ x p, entry (wordOn s x) = some p → s'.pm.mem p = s.pm.mem p

/-- Nothing that anybody has mapped has changed. -/
structure Unchanged (M : Machine) (K : Nat → Prop) (s s' : KState) : Prop where
  base : BaseInv M K s'
  envs : s'.envs = s.envs
  kept : ∀ x, Kept s s' x

/-- The contents of frame `p` alone have changed. -/
structure Written (M : Machine) (K : Nat → Prop) (s s' : KState) (p : Nat) : Prop where
  base : BaseInv M K s'
  envs : s'.envs = s.envs
  word : ∀ x, wordOn s' x = wordOn s x
  mem : ∀ q, q ≠ p → s'.pm.mem q = s.pm.mem q

section

variable {M : Machine} {K : Nat → Prop} {s s' : KState} {x x₀ : Nat × Nat} {w : Word}
  {e d p n : Nat} {va : Word} {free : List Nat}

/-! ## Places -/

theorem wordOn_pgnum (s : KState) (e : Nat) (va : Word) :
    wordOn s (e, pgnum va) = pteWord s.pm s.dirs e (pdx va) (ptx va) :=
  pageEntry_pgnum s.pm s.dirs e va

theorem wordOn_eq_wordAt (s : KState) (e : Nat) (va : Word) :
    wordOn s (e, pgnum va) = wordAt s e va := wordOn_pgnum s e va

/-- The place an entry belongs to. -/
theorem place_eq_iff {e' n : Nat} (va : Word) : (e', n) = (e, pgnum va) ↔
    e' = e ∧ n / 1024 = pdx va ∧ n % 1024 = ptx va := by
  rw [Prod.mk.injEq, pgnum_eq, pdx_eq, ptx_eq]
  constructor
  · rintro ⟨rfl, rfl⟩
    exact ⟨rfl, by omega, rfl⟩
  · rintro ⟨rfl, hi, hj⟩
    exact ⟨rfl, by omega⟩

theorem Kept.refl (s : KState) (x : Nat × Nat) : Kept s s x := ⟨rfl, fun _ _ => rfl⟩

theorem Kept.byteAt_eq {va : Word} (h : Kept s s' (e, pgnum va)) : byteAt s' e va = byteAt s e va := by
  unfold byteAt
  rw [h.1]
  cases hp : entry (wordOn s (e, pgnum va)) with
  | none => rfl
  | some p =>
      rw [Option.map_some, Option.map_some, PMap.byte, PMap.byte, h.2 p hp]

theorem Replaced.kept (h : Replaced M K s s' x₀ w) (hne : x ≠ x₀) : Kept s s' x :=
  ⟨by rw [h.word, if_neg hne], fun p hp => h.mem x p hp⟩

theorem Replaced.word_self (h : Replaced M K s s' x₀ w) : wordOn s' x₀ = w := by
  rw [h.word, if_pos rfl]

theorem Written.kept (h : Written M K s s' p) (hne : entry (wordOn s x) ≠ some p) :
    Kept s s' x :=
  ⟨h.word x, fun q hq => h.mem q fun heq => hne (heq ▸ hq)⟩

/-- An environment without a page directory has no page. -/
theorem wordOn_of_no_dir (h : s.dirs e = none) (n : Nat) : wordOn s (e, n) = 0#32 := by
  refine pteWord_of_no_pde ?_
  unfold pdeWord
  rw [h]

/-- A frame that is mapped is one of the user's. -/
theorem frame_data (h : PageInv M K s.pm s.dirs free fun _ => 0)
    (hp : entry (wordOn s x) = some p) :
    Data s.pm s.dirs free p ∧ Pool M K p ∧ p ∉ free := by
  have htgt : target s.pm s.dirs (.pte x.1 (x.2 / 1024) (x.2 % 1024)) = some p := hp
  exact ⟨h.data_of_pte htgt, h.target_pool _ p htgt, fun hin => h.free_unref p hin _ htgt⟩

/-- A page the program may load from or store to is at the place of its address. -/
theorem translate_place (h : PageInv M K s.pm s.dirs free fun _ => 0) (hd : s.dirs e = some d)
    (hva : va < utop) {need : Word} (hneed : (pteP ||| pteW ||| pteU) &&& need = need)
    (hp : need &&& pteP = pteP) :
    translate s.pm d need va = if wordOn s (e, pgnum va) &&& need = need then
      some (pgnum (wordOn s (e, pgnum va))) else none := by
  rw [wordOn_pgnum]
  exact h.translate_eq hd ((pdx_lt_pdxUtop_iff va).mpr hva) hneed hp

/-- An entry with a bit of `need` in it is not zero. -/
theorem entry_of_and {need : Word} (hp : need &&& pteP = pteP) (hw : w &&& need = need) :
    entry w = some (pgnum w) := by
  refine entry_of_ne fun h0 => ?_
  rw [h0, BitVec.zero_and] at hw
  rw [← hw] at hp
  exact absurd hp (by decide)

/-- What the program can read at an address. -/
theorem loadByte_eq_byteAt (h : BaseInv M K s) (hd : s.dirs e = some d) (hva : va < utop)
    (huser : wordOn s (e, pgnum va) ≠ 0#32 → wordOn s (e, pgnum va) &&& userLoad = userLoad) :
    loadByte s.pm d va = byteAt s e va := by
  obtain ⟨free, hp⟩ := h.pages
  unfold loadByte byteAt
  rw [if_pos hva, translate_place hp hd hva (by decide) (by decide)]
  by_cases hz : wordOn s (e, pgnum va) = 0#32
  · rw [hz, if_neg (by decide), entry_zero]
  · rw [if_pos (huser hz), entry_of_ne hz]

/-! ## Stores -/

/-- A store that goes through changes one byte of the frame of its page. -/
theorem storeByte_written (h : BaseInv M K s) (hd : s.dirs e = some d) (hva : va < utop)
    {need : Word} (hneed : (pteP ||| pteW ||| pteU) &&& need = need) (hp : need &&& pteP = pteP)
    {b : BitVec 8} {m : PMap} (hs : storeByte s.pm d need va b = some m) :
    ∃ p, wordOn s (e, pgnum va) &&& need = need ∧ entry (wordOn s (e, pgnum va)) = some p ∧
      m = s.pm.writeByte p (va.toNat % pgsize) b ∧ Written M K s { s with pm := m } p := by
  obtain ⟨free, hinv⟩ := h.pages
  unfold storeByte at hs
  rw [translate_place hinv hd hva hneed hp] at hs
  split at hs
  · rename_i hand
    cases hs
    have hentry := entry_of_and hp hand
    obtain ⟨hdata, hpool, -⟩ := frame_data hinv hentry
    have hmem : ∀ q, q ≠ pgnum (wordOn s (e, pgnum va)) →
        (s.pm.writeByte (pgnum (wordOn s (e, pgnum va))) (va.toNat % pgsize) b).mem q =
          s.pm.mem q := fun q hq => mem_write_of_page_ne hq
    obtain ⟨h', -, hpte⟩ := hinv.data_frame
      (n := s.pm.writeByte (pgnum (wordOn s (e, pgnum va))) (va.toNat % pgsize) b)
      hdata hpool rfl rfl rfl hmem
    exact ⟨_, hand, hentry, rfl, h.setPm ⟨free, h'⟩, rfl, fun x => hpte _ _ _, hmem⟩
  · cases hs

/-- What a store to `va` leaves at an address. -/
theorem byteAt_store {e' : Nat} {va' : Word} {b : BitVec 8} {m : PMap}
    (hw : Written M K s { s with pm := m } p)
    (hm : m = s.pm.writeByte p (va.toNat % pgsize) b)
    (hne : entry (wordOn s (e', pgnum va')) = some p → va'.toNat % pgsize ≠ va.toNat % pgsize) :
    byteAt { s with pm := m } e' va' = byteAt s e' va' := by
  unfold byteAt
  rw [hw.word]
  cases hq : entry (wordOn s (e', pgnum va')) with
  | none => rfl
  | some q =>
      rw [Option.map_some, Option.map_some, hm, byte_writeByte, if_neg]
      rintro ⟨rfl, hoff⟩
      exact hne hq hoff

theorem byteAt_stored {b : BitVec 8} {m : PMap} (hw : Written M K s { s with pm := m } p)
    (hm : m = s.pm.writeByte p (va.toNat % pgsize) b)
    (hp : entry (wordOn s (e, pgnum va)) = some p) :
    byteAt { s with pm := m } e va = some b := by
  unfold byteAt
  rw [hw.word, hp, Option.map_some, hm, byte_writeByte, if_pos ⟨rfl, rfl⟩]

/-- Addresses on one page that differ do so in their offset. -/
theorem eq_of_page {va' : Word} (hp : pgnum va' = pgnum va)
    (hoff : va'.toNat % pgsize = va.toNat % pgsize) : va' = va := by
  rw [pgnum_eq, pgnum_eq] at hp
  unfold pgsize at hoff
  refine BitVec.eq_of_toNat_eq ?_
  omega

/-- The kernel's stores for a program change frames of the pages they are to. -/
theorem kernelStoreBytes_written (h : BaseInv M K s) (hd : s.dirs e = some d)
    (bs : List (BitVec 8)) {p : Nat}
    (hbs : ∀ k, k < bs.length → ∀ q, entry (wordOn s (e, pgnum (va + BitVec.ofNat 32 k))) = some q →
      q = p) {m : PMap} (hs : kernelStoreBytes s.pm d va bs = .ok m) :
    Written M K s { s with pm := m } p := by
  induction bs generalizing s va with
  | nil =>
      cases hs
      exact ⟨h, rfl, fun _ => rfl, fun _ _ => rfl⟩
  | cons b bs ih =>
      unfold kernelStoreBytes at hs
      by_cases hlow : va < utop
      swap
      · rw [if_neg hlow] at hs
        split at hs <;> cases hs
      rw [if_pos hlow] at hs
      cases hb : storeByte s.pm d kernelStore va b with
      | none =>
          rw [hb] at hs
          cases hs
      | some m₁ =>
          rw [hb] at hs
          obtain ⟨q, -, hq, -, hw⟩ := storeByte_written h hd hlow (by decide) (by decide) hb
          have hqp : q = p := hbs 0 (Nat.succ_pos _) q (by
            rw [show va + BitVec.ofNat 32 0 = va from BitVec.add_zero va]
            exact hq)
          rw [hqp] at hw
          have hrest := ih (s := { s with pm := m₁ }) hw.base hd (fun k hk q hq' =>
            hbs (k + 1) (Nat.succ_lt_succ hk) q (by
              rw [add_ofNat_succ, ← hw.word]
              exact hq')) hs
          exact ⟨hrest.base, rfl, fun x => (hrest.word x).trans (hw.word x),
            fun r hr => (hrest.mem r hr).trans (hw.mem r hr)⟩

/-! ## System calls -/

/-- The entries after a call that changed the one at `va` of `e`. -/
theorem replaced_of_pte {m : PMap} (h : BaseInv M K s)
    (hm : ∃ free', PageInv M K m s.dirs free' fun _ => 0)
    (hp : PageInv M K s.pm s.dirs free fun _ => 0)
    (hpte : ∀ e' i j, pteWord m s.dirs e' i j =
      if e' = e ∧ i = pdx va ∧ j = ptx va then w else pteWord s.pm s.dirs e' i j)
    (hmem : ∀ q, Data s.pm s.dirs free q → m.mem q = s.pm.mem q) :
    Replaced M K s { s with pm := m } (e, pgnum va) w := by
  refine ⟨h.setPm hm, rfl, fun x => ?_, fun x p hx => hmem p (frame_data hp hx).1⟩
  refine (hpte x.1 (x.2 / 1024) (x.2 % 1024)).trans ?_
  by_cases hx : x = (e, pgnum va)
  · rw [if_pos hx, if_pos ((place_eq_iff va).mp hx)]
  · rw [if_neg hx, if_neg fun hx' => hx ((place_eq_iff va).mpr hx')]
    rfl

/-- Whatever comes of `env_page_alloc`, the contents of pages in use stay. -/
theorem PageInv.envPageAlloc_mem {m : PMap} {dirs : Nat → Option Nat}
    (h : PageInv M K m dirs free fun _ => 0) (hd : dirs e = some d) (hi : pdx va < pdxUtop)
    {perm : Word} (hlow : perm.toNat < 4096) {r : Int} {m' : PMap}
    (hrun : envPageAlloc M m (some d) va perm = .ok (r, m')) :
    ∀ q, Data m dirs free q → m'.mem q = m.mem q := by
  unfold envPageAlloc at hrun
  dsimp only at hrun
  split at hrun
  · cases hrun
    exact fun _ _ => rfl
  cases free with
  | nil =>
      rw [h.pageAlloc_nil] at hrun
      cases hrun
      exact fun _ _ => rfl
  | cons p free =>
      obtain ⟨m₁, halloc, h₁, hpool, hpf, hunref, hpde₁, hpte₁, hmem₁, _, href⟩ :=
        h.pageAlloc_cons allocZero
      rw [halloc] at hrun
      dsimp only at hrun
      have hcount : (m₁.ppRef p).toNat < 65535 := by
        rw [href, h.count_eq hpool.2.2, refs_eq_zero_iff.mpr fun x _ =>
          h.free_unref p List.mem_cons_self x]
        decide
      have hbits : p ||| pgnum perm = p := by rw [pgnum_eq_zero hlow, Nat.or_zero]
      intro q hq
      have hqp : q ≠ p := fun heq => hq.1 (heq ▸ List.mem_cons_self)
      rcases h₁.pageInsert_spec hd hi hpool ⟨hpf, fun x hx => absurd hx (hunref x)⟩ hbits hcount
        with ⟨_, _, hins⟩ | ⟨m₂, free', hins, -, _, -, hmem'⟩
      · rw [hins] at hrun
        cases hrun
        exact hmem₁ q hqp
      · rw [hins] at hrun
        cases hrun
        have hq₁ : Data m₁ dirs free q := by
          rw [Data, target_congr hpde₁ hpte₁]
          exact ⟨fun hf => hq.1 (List.mem_cons_of_mem p hf), hq.2⟩
        exact (hmem' q hq₁).trans (hmem₁ q hqp)

/-- `sys_page_alloc` with all permissions: a frame that nobody had, or an error. -/
theorem sysPageAlloc_places {cur : Nat} {envid : Word} (h : BaseInv M K s)
    (he : envid2env s cur envid true = .ok e) (hd : s.dirs e = some d) (hva : ¬ badVa va)
    {r : Int} (hrun : sysPageAlloc M s cur envid va pgfaultPerm = .ok (r, s')) :
    (r < 0 ∧ Unchanged M K s s') ∨ 0 ≤ r ∧ ∃ p, (∀ x, entry (wordOn s x) ≠ some p) ∧
      entry (page2pa p ||| pgfaultPerm) = some p ∧
      Replaced M K s s' (e, pgnum va) (page2pa p ||| pgfaultPerm) := by
  obtain ⟨free, hp⟩ := h.pages
  have hi := Calling.pdx_of_not_badVa hva
  unfold sysPageAlloc at hrun
  rw [if_neg hva, he] at hrun
  dsimp only at hrun
  rw [show (s.envs e).envPgdir = some d from hd,
    show pgfaultPerm ||| pteU ||| pteP = pgfaultPerm by decide] at hrun
  cases hcall : envPageAlloc M s.pm (some d) va pgfaultPerm with
  | error msg =>
      rw [hcall] at hrun
      cases hrun
  | ok x =>
      obtain ⟨r', m⟩ := x
      rw [hcall] at hrun
      obtain ⟨rfl, rfl⟩ := Prod.mk.inj (Except.ok.inj hrun)
      have hmem := hp.envPageAlloc_mem hd hi (by decide) hcall
      obtain ⟨hinv, ⟨hneg, hpte⟩ | ⟨hz, -, p, hpf, hpte⟩⟩ :=
        (hp.envPageAlloc_spec hd hi pgfaultPerm).value hcall
      · exact .inl ⟨hneg, h.setPm hinv, rfl, fun x => ⟨hpte _ _ _,
          fun q hq => hmem q (frame_data hp hq).1⟩⟩
      · have hor : page2pa p ||| pgfaultPerm ||| pteP = page2pa p ||| pgfaultPerm := by
          rw [BitVec.or_assoc, show pgfaultPerm ||| pteP = pgfaultPerm by decide]
        rw [hor] at hpte
        refine .inr ⟨le_of_eq hz.symm, p, fun x hx => (frame_data hp hx).2.2 hpf, ?_,
          replaced_of_pte h hinv hp hpte hmem⟩
        exact pgfaultPerm_eq ▸ (entry_store (hp.free_pool p hpf).lt).2.2.1

/-- The entry `sys_page_map` makes. -/
def mappedWord (p : Nat) (perm : Word) : Word := page2pa p ||| (pteP ||| pteU ||| perm) ||| pteP

/-- `sys_page_map` gives a place the frame of another one, or returns an error. -/
theorem sysPageMap_places {cur se de sd dd : Nat} {srcenvid dstenvid srcva dstva perm : Word}
    (h : BaseInv M K s) (hse : envid2env s cur srcenvid true = .ok se)
    (hde : envid2env s cur dstenvid true = .ok de) (hsd : s.dirs se = some sd)
    (hdd : s.dirs de = some dd)
    (hw : perm &&& pteW ≠ 0#32 → wordOn s (se, pgnum srcva) ≠ 0#32 →
      wordOn s (se, pgnum srcva) &&& pteW ≠ 0#32)
    (hlow : perm.toNat < 4096)
    (hcount : ∀ p, entry (wordOn s (se, pgnum srcva)) = some p →
      refs slots (target s.pm s.dirs) p < 65535)
    {r : Int} (hrun : sysPageMap M s cur srcenvid srcva dstenvid dstva perm = .ok (r, s')) :
    (r < 0 ∧ s' = s ∧ (badVa srcva ∨ badVa dstva ∨ wordOn s (se, pgnum srcva) = 0#32 ∨
        pdeWord s.pm s.dirs de (pdx dstva) = 0#32)) ∨
      0 ≤ r ∧ ¬ badVa dstva ∧ ∃ p, entry (wordOn s (se, pgnum srcva)) = some p ∧
        Replaced M K s s' (de, pgnum dstva) (mappedWord p perm) := by
  obtain ⟨free, hp⟩ := h.pages
  by_cases hsva : badVa srcva
  · rw [sysPageMap, if_pos hsva] at hrun
    cases hrun
    exact .inl ⟨eInval_neg, rfl, .inl hsva⟩
  by_cases hdva : badVa dstva
  · rw [sysPageMap, if_neg hsva, if_pos hdva] at hrun
    cases hrun
    exact .inl ⟨eInval_neg, rfl, .inr (.inl hdva)⟩
  have hsi := Calling.pdx_of_not_badVa hsva
  have hat := wordOn_eq_wordAt s se srcva
  by_cases hz : wordOn s (se, pgnum srcva) = 0#32
  · rw [sysPageMap_eq hse hde hsva hdva, show (s.envs se).envPgdir = some sd from hsd,
      envPageMap, hp.pageLookup_none hsd hsi (hat.symm.trans hz)] at hrun
    cases hrun
    exact .inl ⟨eInval_neg, rfl, .inr (.inr (.inl hz))⟩
  have hentry := entry_of_ne hz
  rcases hp.sysPageMap_cases perm hse hde hsd hdd hsva hdva (hat ▸ hz)
    (fun hperm => hat ▸ hw hperm hz) hlow (by rw [← hat]; exact hcount _ hentry) with
    ⟨-, hpde, hcall⟩ | ⟨m', free', hcall, h', hpte, hmem⟩
  · rw [hcall] at hrun
    cases hrun
    exact .inl ⟨eNoMem_neg, rfl, .inr (.inr (.inr hpde))⟩
  · rw [hcall] at hrun
    cases hrun
    refine .inr ⟨le_refl 0, hdva, _, hentry, replaced_of_pte h ⟨free', h'⟩ hp (fun e i j => ?_) hmem⟩
    rw [hpte, ← hat]
    rfl

/-- `sys_page_unmap` leaves a place without a frame. -/
theorem sysPageUnmap_places {cur : Nat} {envid : Word} (h : BaseInv M K s)
    (he : envid2env s cur envid true = .ok e) (hd : s.dirs e = some d) (hva : ¬ badVa va)
    {r : Int} (hrun : sysPageUnmap M s cur envid va = .ok (r, s')) :
    0 ≤ r ∧ Replaced M K s s' (e, pgnum va) 0#32 := by
  obtain ⟨free, hp⟩ := h.pages
  obtain ⟨m', free', hcall, h', hpte, hmem⟩ := hp.sysPageUnmap_spec he hd hva
  rw [hcall] at hrun
  cases hrun
  exact ⟨le_refl 0, replaced_of_pte h ⟨free', h'⟩ hp hpte hmem⟩

/-- The child of `sys_exofork` is not to be run. -/
theorem Exoforked.held {cur : Nat} (h : BaseInv M K s) (hx : Exoforked M K s cur e s')
    (hcall : sysExofork M s cur = ((s'.envs e).envId.toInt, s')) :
    (s'.envs e).envStatus = .notRunnable := by
  rcases h.envAlloc_cases (s.envs cur).envId with
    ⟨r, halloc, -⟩ | ⟨e₁, s₁, p, halloc, hlt, -, hdirs, -⟩
  · rw [sysExofork_error halloc] at hcall
    obtain ⟨-, rfl⟩ := Prod.mk.inj hcall
    exact absurd hx.fresh hx.dir
  · unfold sysExofork at hcall
    rw [halloc] at hcall
    obtain ⟨hid, hs⟩ := Prod.mk.inj hcall
    -- The slot is the one the id names.
    have hdir₁ : s'.dirs e₁ ≠ none := by
      rw [← hs, KState.dirs_setEnv (h := rfl), hdirs, Function.update_self]
      exact Option.some_ne_none p
    rw [hs] at hid
    have hids := hx.base.ids
    have heq : e₁ = e := by
      rw [← hids e₁ hdir₁, ← hids e hx.dir, BitVec.eq_of_toInt_eq hid]
    rw [← heq, ← hs, KState.envs_setEnv_self]

/-- `sys_exofork` changes no place. -/
theorem Exoforked.kept {cur : Nat} (h : BaseInv M K s) (hx : Exoforked M K s cur e s')
    (x : Nat × Nat) : Kept s s' x := by
  obtain ⟨free, hp⟩ := h.pages
  exact ⟨hx.pte _ _ _, fun p hx' => hx.mem free p hp (frame_data hp hx').2.2⟩

end

end Jos
end Sisop

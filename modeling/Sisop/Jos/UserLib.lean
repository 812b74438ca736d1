import Sisop.Jos.Exhaustion
import Sisop.Jos.UserMemory

/-!
# Library functions of a program

A function of `lib/` runs between system calls of its environment, and is run here
without interruption.  It returns, or calls `panic`, or faults on an address.

`uvpt` and `uvpd` are the page tables as the program reads them: the page directory
maps itself at `UVPT`.  `memmove` of a page is a `rep movsl`, a word at a time.
-/

namespace Sisop
namespace Jos

open RefCount

/-- How a function of the library ends, with the state it leaves.  `panic` prints `err`. -/
inductive UserEnd (α : Type)
  | returns (a : α) (s : KState)
  | panics (msg : String) (err : Int) (s : KState)
  | faults (va : Word) (s : KState)

def UserLib (α : Type) : Type := KState → Except Stop (UserEnd α)

namespace UserLib

variable {α β : Type} {x : UserLib α} {f : α → UserLib β} {s s' : KState} {a : α}

protected def bind (x : UserLib α) (f : α → UserLib β) : UserLib β := fun s =>
  match x s with
  | .error stop => .error stop
  | .ok (.returns a s) => f a s
  | .ok (.panics msg err s) => .ok (.panics msg err s)
  | .ok (.faults va s) => .ok (.faults va s)

instance : Monad UserLib where
  pure a := fun s => .ok (.returns a s)
  bind := UserLib.bind

theorem bind_returns (h : x s = .ok (.returns a s')) : (x >>= f) s = f a s' := by
  show UserLib.bind x f s = f a s'
  rw [UserLib.bind, h]

theorem bind_panics {msg : String} {err : Int} (h : x s = .ok (.panics msg err s')) :
    (x >>= f) s = .ok (.panics msg err s') := by
  show UserLib.bind x f s = _
  rw [UserLib.bind, h]

theorem bind_faults {va : Word} (h : x s = .ok (.faults va s')) :
    (x >>= f) s = .ok (.faults va s') := by
  show UserLib.bind x f s = _
  rw [UserLib.bind, h]

def panic (msg : String) (err : Int) : UserLib α := fun s => .ok (.panics msg err s)

/-- A system call whose error ends in `panic`. -/
def orPanic (msg : String) (call : KState → Except Stop (Int × KState)) : UserLib Int := fun s =>
  match call s with
  | .error stop => .error stop
  | .ok (r, s) => if r < 0 then .ok (.panics msg r s) else .ok (.returns r s)

theorem orPanic_returns {msg : String} {call : KState → Except Stop (Int × KState)} {r : Int}
    (h : call s = .ok (r, s')) (hr : 0 ≤ r) : orPanic msg call s = .ok (.returns r s') := by
  rw [orPanic, h]
  exact if_neg (Int.not_lt.mpr hr)

theorem orPanic_panics {msg : String} {call : KState → Except Stop (Int × KState)} {r : Int}
    (h : call s = .ok (r, s')) (hr : r < 0) : orPanic msg call s = .ok (.panics msg r s') := by
  rw [orPanic, h]
  exact if_pos hr

end UserLib

/-! ## Reading the page tables -/

def uvptVa (n : Nat) : Word := 0xef400000#32 + BitVec.ofNat 32 (4 * n)

/-- `uvpd[i]`. -/
def uvpd (m : PMap) (d i : Nat) : Word := m.mem d i

/-- `uvpt[n]`, which is there when the directory entry above it is readable. -/
def uvpt (m : PMap) (d n : Nat) : Option Word :=
  if uvpd m d (n / 1024) &&& userLoad = userLoad then
    some (m.mem (pgnum (uvpd m d (n / 1024))) (n % 1024))
  else none

def readUvpt (d n : Nat) : UserLib Word := fun s =>
  match uvpt s.pm d n with
  | none => .ok (.faults (uvptVa n) s)
  | some pte => .ok (.returns pte s)

/-! ## Copying a page -/

/-- The word a program reads at an aligned address. -/
def wordOf (m : PMap) (d : Nat) (va : Word) : Option Word :=
  (translate m d userLoad va).map fun page => m.mem page (va.toNat % pgsize / 4)

/-- A program's store of a word at an aligned address. -/
def setWordOf (m : PMap) (d : Nat) (va w : Word) : Option PMap :=
  (translate m d userStore va).map fun page => m.write ⟨page, va.toNat % pgsize / 4⟩ w

/-- `rep movsl` from the `k`-th word of a page on; a fault leaves what was copied. -/
def movsl (m : PMap) (d : Nat) (dst src : Word) : Nat → Nat → Except (Word × PMap) PMap
  | 0, _ => .ok m
  | n + 1, k =>
      let s := src + BitVec.ofNat 32 (4 * k)
      let t := dst + BitVec.ofNat 32 (4 * k)
      match wordOf m d s with
      | none => .error (s, m)
      | some w =>
          match setWordOf m d t w with
          | none => .error (t, m)
          | some m => movsl m d dst src n (k + 1)

/-- `memmove(dst, src, PGSIZE)` of aligned pages. -/
def memmovePage (d : Nat) (dst src : Word) : UserLib Unit := fun s =>
  match movsl s.pm d dst src nptentries 0 with
  | .error (va, m) => .ok (.faults va { s with pm := m })
  | .ok m => .ok (.returns () { s with pm := m })

section

variable {M : Machine} {K : Nat → Prop} {m m' : PMap} {dirs : Nat → Option Nat} {free : List Nat}
  {held : Nat → Nat} {s : KState} {e d p q n k : Nat} {va dst src w : Word}

theorem or_and_self (a b : Word) : (a ||| b) &&& b = b := by
  ext i hi
  simp only [BitVec.getElem_and, BitVec.getElem_or]
  cases a[i] <;> cases b[i] <;> rfl

/-- An entry with `PTE_P`, `PTE_W` and `PTE_U` refers to its page, and allows writes. -/
theorem entry_store (hp : p < 2 ^ 20) : page2pa p ||| userStore ≠ 0#32 ∧
    pgnum (page2pa p ||| userStore) = p ∧ entry (page2pa p ||| userStore) = some p ∧
      (page2pa p ||| userStore) &&& pteW ≠ 0#32 := by
  have hne : page2pa p ||| userStore ≠ 0#32 := by
    intro hz
    have hand := or_and_self (page2pa p) userStore
    rw [hz] at hand
    exact absurd hand (by decide)
  have hpg : pgnum (page2pa p ||| userStore) = p := by
    simp [pgnum_or, pgnum_page2pa hp, userStore]
  refine ⟨hne, hpg, entry_eq_some.mpr ⟨hne, hpg⟩, ?_⟩
  rw [show userStore = (pteP ||| pteU) ||| pteW by decide, ← BitVec.or_assoc, or_and_self]
  decide

/-! ## What a copy does -/

/-- The `k`-th word of an aligned page. -/
theorem toNat_wordVa (hal : va.toNat % 4096 = 0) (hk : k < 1024) :
    (va + BitVec.ofNat 32 (4 * k)).toNat = va.toNat + 4 * k := by
  have hlt := va.isLt
  rw [BitVec.toNat_add, BitVec.toNat_ofNat]
  omega

/-- Only the contents of page `p` differ, and it holds data. -/
structure CopyFrame (M : Machine) (K : Nat → Prop) (dirs : Nat → Option Nat) (free : List Nat)
    (held : Nat → Nat) (p : Nat) (m m' : PMap) : Prop where
  inv : PageInv M K m' dirs free held
  pde : ∀ e i, pdeWord m' dirs e i = pdeWord m dirs e i
  pte : ∀ e i j, pteWord m' dirs e i j = pteWord m dirs e i j
  mem : ∀ r, r ≠ p → m'.mem r = m.mem r
  ppRef : m'.ppRef = m.ppRef

namespace PageInv

/-- The program finds the same pages as long as the entries are the same. -/
theorem translate_congr (h : PageInv M K m dirs free held) (h' : PageInv M K m' dirs free held)
    (hd : dirs e = some d) (hi : pdx va < pdxUtop) {need : Word}
    (hneed : (pteP ||| pteW ||| pteU) &&& need = need) (hp : need &&& pteP = pteP)
    (hpte : ∀ e i j, pteWord m' dirs e i j = pteWord m dirs e i j) :
    translate m' d need va = translate m d need va := by
  rw [h.translate_eq hd hi hneed hp, h'.translate_eq hd hi hneed hp, hpte]

/-- A program's store of a word changes a data page, and no entry. -/
theorem setWordOf_spec (h : PageInv M K m dirs free held) (hd : dirs e = some d)
    (hi : pdx va < pdxUtop) (hp : translate m d userStore va = some p) (w : Word) :
    setWordOf m d va w = some (m.write ⟨p, va.toNat % pgsize / 4⟩ w) ∧
      CopyFrame M K dirs free held p m (m.write ⟨p, va.toNat % pgsize / 4⟩ w) := by
  have htgt := h.translate_target hd hi (by decide) (by decide) hp
  obtain ⟨h', hpde, hpte⟩ := h.data_frame (n := m.write ⟨p, va.toNat % pgsize / 4⟩ w)
    (h.data_of_pte htgt) (h.target_pool _ p htgt) rfl rfl rfl fun _ => mem_write_of_page_ne
  refine ⟨?_, h', hpde, hpte, fun _ => mem_write_of_page_ne, rfl⟩
  unfold setWordOf
  rw [hp]
  rfl

/-- A copy into a page the program can write changes that page alone.  From a page it can
read, other than that one, it ends without a fault and copies every word. -/
theorem movsl_spec (h : PageInv M K m dirs free held) (hd : dirs e = some d)
    (hal : dst.toNat % 4096 = 0) (hi : pdx dst < pdxUtop)
    (hp : translate m d userStore dst = some p) (src : Word) (hk : k + n ≤ 1024) :
    ∃ m', CopyFrame M K dirs free held p m m' ∧
      (movsl m d dst src n k = .ok m' ∨ ∃ a, movsl m d dst src n k = .error (a, m')) ∧
      ∀ q, src.toNat % 4096 = 0 → pdx src < pdxUtop → translate m d userLoad src = some q →
        q ≠ p → movsl m d dst src n k = .ok m' ∧
          ∀ i, m'.mem p i = if k ≤ i ∧ i < k + n then m.mem q i else m.mem p i := by
  induction n generalizing m k with
  | zero =>
      refine ⟨m, ⟨h, fun _ _ => rfl, fun _ _ _ => rfl, fun _ _ => rfl, rfl⟩, .inl rfl, ?_⟩
      intro q _ _ _ _
      exact ⟨rfl, fun i => (if_neg (by omega)).symm⟩
  | succ n ih =>
      have hkt := toNat_wordVa hal (show k < 1024 by omega)
      have hpage : (dst + BitVec.ofNat 32 (4 * k)).toNat / 4096 = dst.toNat / 4096 := by omega
      have hit : pdx (dst + BitVec.ofNat 32 (4 * k)) < pdxUtop := by
        rw [pdx_eq] at hi ⊢
        omega
      have hoff : (dst + BitVec.ofNat 32 (4 * k)).toNat % pgsize / 4 = k := by
        rw [hkt, pgsize]
        omega
      cases hw : wordOf m d (src + BitVec.ofNat 32 (4 * k)) with
      | none =>
          have hstop : movsl m d dst src (n + 1) k =
              .error (src + BitVec.ofNat 32 (4 * k), m) := by
            rw [movsl, hw]
          refine ⟨m, ⟨h, fun _ _ => rfl, fun _ _ _ => rfl, fun _ _ => rfl, rfl⟩,
            .inr ⟨_, hstop⟩, fun q hsal _ hq _ => ?_⟩
          have hks := toNat_wordVa hsal (show k < 1024 by omega)
          have hspage : (src + BitVec.ofNat 32 (4 * k)).toNat / 4096 = src.toNat / 4096 := by omega
          unfold wordOf at hw
          rw [translate_page hspage, hq] at hw
          cases hw
      | some w =>
          have htp := (translate_page hpage).trans hp
          obtain ⟨hset, hframe⟩ := h.setWordOf_spec hd hit htp w
          rw [hoff] at hset hframe
          have hgo : movsl m d dst src (n + 1) k =
              movsl (m.write ⟨p, k⟩ w) d dst src n (k + 1) := by
            rw [movsl, hw]
            dsimp only
            rw [hset]
          have hp' : translate (m.write ⟨p, k⟩ w) d userStore dst = some p :=
            (h.translate_congr hframe.inv hd hi (by decide) (by decide) hframe.pte).trans hp
          obtain ⟨m', hframe', hend, hcopy⟩ := ih hframe.inv hp' (show k + 1 + n ≤ 1024 by omega)
          rw [hgo]
          refine ⟨m', ⟨hframe'.inv, fun e i => (hframe'.pde e i).trans (hframe.pde e i),
            fun e i j => (hframe'.pte e i j).trans (hframe.pte e i j),
            fun r hr => (hframe'.mem r hr).trans (hframe.mem r hr),
            hframe'.ppRef.trans hframe.ppRef⟩, hend, fun q hsal hsi hq hqp => ?_⟩
          have hks := toNat_wordVa hsal (show k < 1024 by omega)
          have hspage : (src + BitVec.ofNat 32 (4 * k)).toNat / 4096 = src.toNat / 4096 := by omega
          have hword : w = m.mem q k := by
            unfold wordOf at hw
            rw [translate_page hspage, hq, hks] at hw
            have hidx : (src.toNat + 4 * k) % pgsize / 4 = k := by
              rw [pgsize]
              omega
            rw [hidx] at hw
            exact (Option.some.inj hw).symm
          have hq' := (h.translate_congr hframe.inv hd hsi (by decide) (by decide)
            hframe.pte).trans hq
          obtain ⟨hok, hmem⟩ := hcopy q hsal hsi hq' hqp
          refine ⟨hok, fun i => ?_⟩
          rw [hmem, hframe.mem q hqp]
          by_cases hik : i = k
          · subst hik
            rw [if_neg (by omega), if_pos (by omega), mem_write_self, hword]
          · rw [mem_write_of_index_ne hik]
            by_cases hin : k + 1 ≤ i ∧ i < k + 1 + n
            · rw [if_pos hin, if_pos (by omega)]
            · rw [if_neg hin, if_neg (by omega)]

end PageInv

/-! ## The system calls of the library -/

section

variable {s : KState} {cur se sd de dd : Nat} {envid srcenvid dstenvid srcva dstva perm : Word}

theorem envid2env_zero (checkperm : Bool) : envid2env s cur 0#32 checkperm = .ok cur := if_pos rfl

/-- `sys_page_alloc` maps a page that was free, or there is no memory. -/
theorem PageInv.sysPageAlloc_cases (h : PageInv M K s.pm s.dirs free fun _ => 0)
    (he : envid2env s cur envid true = .ok e) (hd : s.dirs e = some d) (hva : ¬ badVa va)
    (hperm : PermOk perm) :
    (¬ PageRoom s e va perm ∧ ∃ m', sysPageAlloc M s cur envid va perm =
        .ok (-eNoMem, { s with pm := m' }) ∧ m'.pageFreeList = none ∧
        ∀ e i j, pteWord m' s.dirs e i j = pteWord s.pm s.dirs e i j) ∨
    (PageRoom s e va perm ∧ ∃ m' free' p, sysPageAlloc M s cur envid va perm =
        .ok (0, { s with pm := m' }) ∧ p ∈ free ∧ PageInv M K m' s.dirs free' (fun _ => 0) ∧
        (∀ e' i' j', pteWord m' s.dirs e' i' j' =
          if e' = e ∧ i' = pdx va ∧ j' = ptx va then
            page2pa p ||| (perm ||| pteU ||| pteP) ||| pteP
          else pteWord s.pm s.dirs e' i' j') ∧
        ∀ q, Data s.pm s.dirs free q → m'.mem q = s.pm.mem q) := by
  have hi := Calling.pdx_of_not_badVa hva
  have hout := h.envPageAlloc_outcome hd hi perm
  rw [sysPageAlloc_eq he hva, show (s.envs e).envPgdir = some d from hd]
  unfold PageRoom
  rw [lastPage_iff h hi, ne_eq, ← h.free_eq_nil_iff]
  generalize envPageAlloc M s.pm (some d) va (perm ||| pteU ||| pteP) = x at hout ⊢
  cases hout with
  | refused hno => exact absurd hperm hno
  | empty _ hfree =>
      exact .inl ⟨fun hroom => hroom.1 hfree, s.pm, rfl, h.free_eq_nil_iff.mp hfree,
        fun _ _ _ => rfl⟩
  | lost m' p _ hfree hpde hinv hunref hpte =>
      exact .inl ⟨fun hroom => hroom.2 ⟨hperm, ⟨p, hfree⟩, hpde⟩, m', rfl, hinv.chain, hpte⟩
  | mapped m' free' p _ hp hroom hinv hpte hmem =>
      refine .inr ⟨⟨fun hnil => ?_, fun hl => hroom hl.2.1 hl.2.2⟩, m', free', p, rfl, hp, hinv,
        hpte, hmem⟩
      rw [hnil] at hp
      exact absurd hp List.not_mem_nil

/-- `sys_page_map` of a page the source may map, or there is no memory for a page table. -/
theorem PageInv.sysPageMap_cases (h : PageInv M K s.pm s.dirs free fun _ => 0) (perm : Word)
    (hse : envid2env s cur srcenvid true = .ok se) (hde : envid2env s cur dstenvid true = .ok de)
    (hsd : s.dirs se = some sd) (hdd : s.dirs de = some dd) (hsva : ¬ badVa srcva)
    (hdva : ¬ badVa dstva) (hne : wordAt s se srcva ≠ 0#32)
    (hw : perm &&& pteW ≠ 0#32 → wordAt s se srcva &&& pteW ≠ 0#32) (hlow : perm.toNat < 4096)
    (hcount : refs slots (target s.pm s.dirs) (pgnum (wordAt s se srcva)) < 65535) :
    (free = [] ∧ pdeWord s.pm s.dirs de (pdx dstva) = 0#32 ∧
      sysPageMap M s cur srcenvid srcva dstenvid dstva perm = .ok (-eNoMem, s)) ∨
    ∃ m' free', sysPageMap M s cur srcenvid srcva dstenvid dstva perm =
        .ok (0, { s with pm := m' }) ∧ PageInv M K m' s.dirs free' (fun _ => 0) ∧
      (∀ e' i' j', pteWord m' s.dirs e' i' j' =
        if e' = de ∧ i' = pdx dstva ∧ j' = ptx dstva then
          page2pa (pgnum (wordAt s se srcva)) ||| (pteP ||| pteU ||| perm) ||| pteP
        else pteWord s.pm s.dirs e' i' j') ∧
      ∀ q, Data s.pm s.dirs free q → m'.mem q = s.pm.mem q := by
  have hsi := Calling.pdx_of_not_badVa hsva
  have hdi := Calling.pdx_of_not_badVa hdva
  have htgt : target s.pm s.dirs (.pte se (pdx srcva) (ptx srcva)) =
      some (pgnum (wordAt s se srcva)) := entry_of_ne hne
  have hpool := h.target_pool _ _ htgt
  have hbits : pgnum (wordAt s se srcva) ||| pgnum (pteP ||| pteU ||| perm) =
      pgnum (wordAt s se srcva) := by
    simp [pgnum_or, pgnum_eq_zero hlow]
  have hlt : (s.pm.ppRef (pgnum (wordAt s se srcva))).toNat < 65535 := by
    rw [h.count_eq hpool.2.2]
    exact hcount
  rw [sysPageMap_eq hse hde hsva hdva, show (s.envs se).envPgdir = some sd from hsd,
    show (s.envs de).envPgdir = some dd from hdd, h.envPageMap_insert hsd hsi hne hw,
    show pteWord s.pm s.dirs se (pdx srcva) (ptx srcva) = wordAt s se srcva from rfl]
  rcases h.pageInsert_spec hdd hdi hpool (h.data_of_pte htgt) hbits hlt with
    ⟨hnil, hz, hins⟩ | ⟨m', free', hins, h', _, hpte, hmem⟩
  · exact .inl ⟨hnil, hz, by rw [hins]; rfl⟩
  · exact .inr ⟨m', free', by rw [hins]; rfl, h', hpte, hmem⟩

/-- `sys_page_unmap` of any address below `UTOP`. -/
theorem PageInv.sysPageUnmap_spec (h : PageInv M K s.pm s.dirs free fun _ => 0)
    (he : envid2env s cur envid true = .ok e) (hd : s.dirs e = some d) (hva : ¬ badVa va) :
    ∃ m' free', sysPageUnmap M s cur envid va = .ok (0, { s with pm := m' }) ∧
      PageInv M K m' s.dirs free' (fun _ => 0) ∧
      (∀ e' i' j', pteWord m' s.dirs e' i' j' =
        if e' = e ∧ i' = pdx va ∧ j' = ptx va then 0#32 else pteWord s.pm s.dirs e' i' j') ∧
      ∀ q, Data s.pm s.dirs free q → m'.mem q = s.pm.mem q := by
  obtain ⟨m', free', hrem, h', _, hpte, hmem, _⟩ :=
    h.pageRemove_spec hd (Calling.pdx_of_not_badVa hva)
  refine ⟨m', free', ?_, h', hpte, hmem⟩
  unfold sysPageUnmap
  rw [if_neg hva, he]
  dsimp only
  rw [show (s.envs e).envPgdir = some d from hd, hrem]
  rfl

/-- A page that was free and has been mapped once is mapped there and nowhere else. -/
theorem PageInv.mapped_once {m' : PMap} {free' : List Nat} {i j : Nat} {w : Word}
    (h : PageInv M K m dirs free fun _ => 0) (h' : PageInv M K m' dirs free' fun _ => 0)
    (hp : p ∈ free) (hw : entry w = some p) (hdir : dirs e ≠ none) (hi : i < pdxUtop)
    (hj : j < nptentries)
    (hpte : ∀ e' i' j', pteWord m' dirs e' i' j' =
      if e' = e ∧ i' = i ∧ j' = j then w else pteWord m dirs e' i' j') :
    (∀ x, target m' dirs x = some p → x = .pte e i j) ∧ refs slots (target m' dirs) p = 1 := by
  have hself : target m' dirs (.pte e i j) = some p := by
    simp only [target, hpte]
    simpa using hw
  have honly : ∀ x, target m' dirs x = some p → x = .pte e i j := by
    intro x hx
    rcases h'.excl x (.pte e i j) p hx hself with heq | ⟨hpte', _⟩
    · exact heq
    · cases x with
      | dir _ => exact hpte'.elim
      | pde _ _ => exact hpte'.elim
      | pte e' i' j' =>
          simp only [target, hpte] at hx
          split at hx
          · rename_i hsame
            obtain ⟨rfl, rfl, rfl⟩ := hsame
            rfl
          · exact absurd hx (h.free_unref p hp (.pte e' i' j'))
  obtain ⟨dd, hdd⟩ := Option.ne_none_iff_exists'.mp hdir
  refine ⟨honly, (refs_eq_one_iff_unique (pte_mem_slots.mpr ⟨h.dirs_lt e dd hdd, hi, hj⟩)
    hself).mpr fun y _ hy => honly y hy⟩

/-- What `sys_exofork` leaves: a child `e` without pages, and everything else as it was. -/
structure Exoforked (M : Machine) (K : Nat → Prop) (s : KState) (cur e : Nat) (s' : KState) :
    Prop where
  base : BaseInv M K s'
  ne : e ≠ cur
  fresh : s.dirs e = none
  dir : s'.dirs e ≠ none
  others : ∀ x, x ≠ e → s'.envs x = s.envs x
  pos : 0 < (s'.envs e).envId.toInt
  child : envid2env s' cur (s'.envs e).envId true = .ok e
  pte : ∀ e' i j, pteWord s'.pm s'.dirs e' i j = pteWord s.pm s.dirs e' i j
  mem : ∀ free q, PageInv M K s.pm s.dirs free (fun _ => 0) → q ∉ free →
    s'.pm.mem q = s.pm.mem q

/-- `env_alloc` adds an empty address space, or there is no slot, or there is no memory. -/
theorem BaseInv.envAlloc_cases (h : BaseInv M K s) (parentId : Word) :
    (∃ r, envAlloc M s parentId = .error r ∧ (r = -eNoFreeEnv ∧ s.envFreeList = none ∨
      r = -eNoMem ∧ s.pm.pageFreeList = none)) ∨
    ∃ e s' p, envAlloc M s parentId = .ok (e, s') ∧ e < nenv ∧ s.dirs e = none ∧
      s'.dirs = Function.update s.dirs e (some p) ∧
      (∀ e' i j, pteWord s'.pm s'.dirs e' i j = pteWord s.pm s.dirs e' i j) ∧
      ∀ free q, PageInv M K s.pm s.dirs free (fun _ => 0) → q ∉ free →
        s'.pm.mem q = s.pm.mem q := by
  obtain ⟨l, hl, hall⟩ := h.freeEnvs
  obtain ⟨free, hp⟩ := h.pages
  unfold envAlloc
  cases hhead : s.envFreeList with
  | none => exact .inl ⟨_, rfl, .inl ⟨rfl, rfl⟩⟩
  | some e =>
      rw [hhead] at hl
      obtain ⟨rest, rfl, _⟩ := LinkChain.exists_cons hl
      obtain ⟨hlt, hst⟩ := hall e List.mem_cons_self
      have hnone : s.dirs e = none := (h.status_iff e hlt).mp hst
      cases free with
      | nil =>
          have halloc := hp.pageAlloc_nil allocZero
          simp only [envSetupVm, halloc, Except.error_bind_eq]
          exact .inl ⟨_, rfl, .inr ⟨rfl, hp.chain⟩⟩
      | cons p free =>
          obtain ⟨m', halloc, -, hpte, hmem⟩ := hp.setupVm_spec hlt hnone
          simp only [envSetupVm, halloc, Except.ok_bind_eq]
          refine .inr ⟨e, _, p, rfl, hlt, hnone, ?_⟩
          generalize hs' : ({ pm := _, envs := _, envFreeList := _, cpus := _, stats := _ } :
            KState) = s'
          have hpm : s'.pm = initPgdir M m' p := by
            rw [← hs']
            rfl
          have hdirs : s'.dirs = Function.update s.dirs e (some p) := by
            rw [← hs']
            funext x
            show (KState.envs _ x).envPgdir = _
            rw [KState.envs_setEnv, KState.envs_setEnv_self, KState.envs_setEnv,
              Function.update_apply]
            split <;> rfl
          rw [hpm, hdirs]
          refine ⟨rfl, hpte, fun free' q hp' hq => hmem q ?_⟩
          rintro rfl
          refine hq ((hp'.onFreeList_iff q).mp ((hp.onFreeList_iff q).mpr List.mem_cons_self))

/-- `sys_exofork` makes a child without pages, or there is no slot, or there is no memory. -/
theorem BaseInv.sysExofork_cases (h : BaseInv M K s) (hcur : s.dirs cur ≠ none) :
    (∃ r, sysExofork M s cur = (r, s) ∧ (r = -eNoFreeEnv ∧ s.envFreeList = none ∨
      r = -eNoMem ∧ s.pm.pageFreeList = none)) ∨
    ∃ e s', sysExofork M s cur = ((s'.envs e).envId.toInt, s') ∧ Exoforked M K s cur e s' := by
  rcases h.envAlloc_cases (s.envs cur).envId with
    ⟨r, halloc, hr⟩ | ⟨e, s₁, p, halloc, hlt, hfresh, hdirs, hpte, hmem⟩
  · exact .inl ⟨r, sysExofork_error halloc, hr⟩
  obtain ⟨hbase₁, -, hst, -⟩ := (h.envAlloc_post (s.envs cur).envId).value halloc
  have ha := envAlloc_alloced halloc
  obtain ⟨dir, hself⟩ := ha.self
  have hne : e ≠ cur := fun heq => hcur (heq ▸ hfresh)
  let child : Env → Env := fun env =>
    { env with
      envStatus := .notRunnable
      envTf := { (s₁.envs cur).envTf with
        regs := { (s₁.envs cur).envTf.regs with eax := 0#32 } } }
  have hcall : sysExofork M s cur =
      (((s₁.setEnv e child).envs e).envId.toInt, s₁.setEnv e child) := by
    unfold sysExofork
    rw [halloc]
  have hself' := KState.envs_setEnv_self s₁ e child
  have hother (x : Nat) (hx : x ≠ e) : (s₁.setEnv e child).envs x = s.envs x := by
    rw [KState.envs_setEnv, if_neg hx, ha.other x hx]
  have hdirs' : (s₁.setEnv e child).dirs = s₁.dirs := KState.dirs_setEnv (h := rfl)
  have hid : ((s₁.setEnv e child).envs e).envId = nextEnvId (s.envs e).envId e := by
    rw [hself']
    show (s₁.envs e).envId = _
    rw [hself]
  have hbase : BaseInv M K (s₁.setEnv e child) := by
    refine hbase₁.setEnv ⟨rfl, rfl, rfl, iff_of_false (fun h0 => EnvStatus.noConfusion h0) ?_, id⟩
    rw [hst]
    decide
  have hpos : 0 < ((s₁.setEnv e child).envs e).envId.toInt := by
    rw [hid]
    exact nextEnvId_pos _ hlt
  have hlookup : envid2env (s₁.setEnv e child) cur ((s₁.setEnv e child).envs e).envId true =
      .ok e := by
    have hz : ((s₁.setEnv e child).envs e).envId ≠ 0#32 := by
      intro h0
      rw [h0] at hpos
      exact absurd hpos (by decide)
    have hx : envx ((s₁.setEnv e child).envs e).envId = e := by
      rw [hid]
      exact envx_nextEnvId _ hlt
    have hlive : ((s₁.setEnv e child).envs e).envStatus ≠ .free := by
      rw [hself']
      exact fun h0 => EnvStatus.noConfusion h0
    have hparent : ((s₁.setEnv e child).envs e).envParentId =
        ((s₁.setEnv e child).envs cur).envId := by
      rw [hother cur hne.symm, hself']
      show (s₁.envs e).envParentId = _
      rw [hself]
    unfold envid2env
    dsimp only
    rw [if_neg hz, hx, if_neg (not_or.mpr ⟨hlive, not_not.mpr rfl⟩),
      if_neg fun hperm => hperm.2.2 hparent]
  refine .inr ⟨e, _, hcall, hbase, hne, hfresh, ?_, hother, hpos, hlookup, ?_, hmem⟩
  · rw [hdirs', hdirs, Function.update_self]
    exact Option.some_ne_none p
  · rw [hdirs']
    exact hpte

end

end

end Jos
end Sisop

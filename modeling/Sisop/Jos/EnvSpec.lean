import Sisop.Lib.Exit
import Sisop.Jos.PmapSpec
import Sisop.Jos.Syscall

/-!
# What the callers of the page table functions do to memory

The parts of `kern/env.c`, `kern/syscall.c` and of the hardware that change
physical memory, each specified on the reference graph: setting up and freeing
an address space, mapping pages for a system call, loading an image, and stores
through a page directory.
-/

namespace Sisop
namespace Jos

open RefCount Exit

/-- Below `UTOP` a store of the kernel is the run of stores through the directory, and a
fault in it is a panic. -/
theorem kernelStoreBytes_low {m : PMap} {dir : Nat} {va : Word} {bs : List (BitVec 8)}
    (h : bs = [] ∨ va.toNat + bs.length ≤ utop.toNat) :
    kernelStoreBytes m dir va bs =
      match storeBytes m dir kernelStore va bs with
      | none => .error (.panic "page fault in kernel mode")
      | some m' => .ok m' := by
  induction bs generalizing m va with
  | nil => rfl
  | cons b bs ih =>
      have hlen := h.resolve_left (List.cons_ne_nil b bs)
      have hutop : utop.toNat = 4005560320 := rfl
      rw [List.length_cons] at hlen
      have hlow : va < utop := by
        rw [BitVec.lt_def]
        omega
      have hnext : (va + 1#32).toNat = va.toNat + 1 := by
        rw [BitVec.toNat_add, show (1#32 : Word).toNat = 1 from rfl]
        omega
      unfold kernelStoreBytes storeBytes
      rw [if_pos hlow]
      cases storeByte m dir kernelStore va b with
      | none => rfl
      | some m₁ => exact ih (.inr (by omega))

section

variable {M : Machine} {K : Nat → Prop} {m : PMap} {dirs : Nat → Option Nat}
  {free : List Nat} {held : Nat → Nat} {e d : Nat} {va : Word}

/-- The hardware walk through a directory entry with all permissions. -/
theorem translate_of_pde (hd : dirs e = some d) (hi : pdx va < pdxUtop) {need : Word}
    (hneed : (pteP ||| pteW ||| pteU) &&& need = need) (hz : pdeWord m dirs e (pdx va) ≠ 0#32)
    (hperm : pdeWord m dirs e (pdx va) &&& (pteP ||| pteW ||| pteU) = pteP ||| pteW ||| pteU) :
    translate m d need va =
      if pteWord m dirs e (pdx va) (ptx va) &&& need = need then
        some (pgnum (pteWord m dirs e (pdx va) (ptx va)))
      else none := by
  have hall : pdeWord m dirs e (pdx va) &&& need = need := by
    rw [← hneed, ← BitVec.and_assoc, hperm]
  rw [pteWord_of_pde (m := m) (entry_of_ne hz) (ptx_lt va)]
  rw [pdeWord_of_dir hd hi] at hall ⊢
  simp only [translate, if_pos hall]

namespace PageInv

/-! ## Stores -/

/-- The hardware walk agrees with the entries of the graph. -/
theorem translate_eq (h : PageInv M K m dirs free held) (hd : dirs e = some d)
    (hi : pdx va < pdxUtop) {need : Word} (hneed : (pteP ||| pteW ||| pteU) &&& need = need)
    (hp : need &&& pteP = pteP) :
    translate m d need va =
      if pteWord m dirs e (pdx va) (ptx va) &&& need = need then
        some (pgnum (pteWord m dirs e (pdx va) (ptx va)))
      else none := by
  have hne : ¬ (0#32 &&& need = need) := by
    intro h0
    rw [BitVec.zero_and] at h0
    rw [← h0] at hp
    exact absurd hp (by decide)
  have hpde := pdeWord_of_dir (m := m) hd hi
  by_cases hz : pdeWord m dirs e (pdx va) = 0#32
  · rw [pteWord_of_no_pde hz, if_neg hne]
    rw [hpde] at hz
    simp only [translate, hz, if_neg hne]
  · exact translate_of_pde hd hi hneed hz (h.pde_perm e (pdx va) hz)

theorem translate_target (h : PageInv M K m dirs free held) (hd : dirs e = some d)
    (hi : pdx va < pdxUtop) {need : Word} (hneed : (pteP ||| pteW ||| pteU) &&& need = need)
    (hp : need &&& pteP = pteP) {q : Nat} (ht : translate m d need va = some q) :
    target m dirs (.pte e (pdx va) (ptx va)) = some q := by
  rw [h.translate_eq hd hi hneed hp] at ht
  split at ht
  · rename_i hand
    refine entry_eq_some.mpr ⟨fun h0 => ?_, Option.some.inj ht⟩
    rw [h0, BitVec.zero_and] at hand
    rw [← hand] at hp
    exact absurd hp (by decide)
  · cases ht

/-- A page that a page table entry names holds data. -/
theorem data_of_pte (h : PageInv M K m dirs free held) {i j q : Nat}
    (ht : target m dirs (.pte e i j) = some q) : Data m dirs free q := by
  refine ⟨fun hq => h.free_unref q hq _ ht, fun x hx => ?_⟩
  rcases h.excl x (.pte e i j) q hx ht with rfl | ⟨hpte, _⟩
  · trivial
  · exact hpte

/-- Changing the contents of one data page changes no entry. -/
theorem data_frame (h : PageInv M K m dirs free held) {n : PMap} {q : Nat}
    (hq : Data m dirs free q) (hpool : Pool M K q) (hlink : n.ppLink = m.ppLink)
    (hlist : n.pageFreeList = m.pageFreeList) (href : n.ppRef = m.ppRef)
    (hmem : ∀ p, p ≠ q → n.mem p = m.mem p) :
    PageInv M K n dirs free held ∧ (∀ e i, pdeWord n dirs e i = pdeWord m dirs e i) ∧
      ∀ e i j, pteWord n dirs e i j = pteWord m dirs e i j := by
  refine h.mem_frame hlink hlist href (fun x p hx ht => hmem p ?_) (hmem _ ?_)
  · rintro rfl
    exact hx (hq.2 x ht)
  · rintro rfl
    exact kernPgdir_not_pool hpool

theorem storeByte_spec (h : PageInv M K m dirs free held) (hd : dirs e = some d)
    (hi : pdx va < pdxUtop) {need : Word} (hneed : (pteP ||| pteW ||| pteU) &&& need = need)
    (hp : need &&& pteP = pteP) {b : BitVec 8} {m' : PMap}
    (hs : storeByte m d need va b = some m') :
    PageInv M K m' dirs free held ∧ (∀ e i, pdeWord m' dirs e i = pdeWord m dirs e i) ∧
      (∀ e i j, pteWord m' dirs e i j = pteWord m dirs e i j) ∧
      ∀ q, target m dirs (.pte e (pdx va) (ptx va)) ≠ some q → m'.mem q = m.mem q := by
  unfold storeByte at hs
  cases ht : translate m d need va with
  | none => simp [ht] at hs
  | some q =>
      simp only [ht, Option.map_some, Option.some.injEq] at hs
      subst hs
      have htgt := h.translate_target hd hi hneed hp ht
      have hmem : ∀ p, p ≠ q → (m.writeByte q (va.toNat % pgsize) b).mem p = m.mem p :=
        fun p hpq => mem_write_of_page_ne hpq
      obtain ⟨h', hpde, hpte⟩ :=
        h.data_frame (n := m.writeByte q (va.toNat % pgsize) b) (h.data_of_pte htgt)
          (h.target_pool _ q htgt) rfl rfl rfl hmem
      refine ⟨h', hpde, hpte, fun p hne => hmem p ?_⟩
      rintro rfl
      exact hne htgt

/-- The kernel's stores to user addresses: they succeed or panic, and change data
pages alone. -/
theorem storeBytes_spec (h : PageInv M K m dirs free held) (hd : dirs e = some d)
    (bs : List (BitVec 8)) (hva : va.toNat + bs.length ≤ utop.toNat) {m' : PMap}
    (hs : storeBytes m d kernelStore va bs = some m') :
    PageInv M K m' dirs free held ∧ (∀ e i, pdeWord m' dirs e i = pdeWord m dirs e i) ∧
      ∀ e i j, pteWord m' dirs e i j = pteWord m dirs e i j := by
  induction bs generalizing m va with
  | nil =>
      cases hs
      exact ⟨h, fun _ _ => rfl, fun _ _ _ => rfl⟩
  | cons b bs ih =>
      simp only [storeBytes, Option.bind_eq_bind, Option.bind_eq_some_iff] at hs
      obtain ⟨m₁, hb, hrest⟩ := hs
      simp only [List.length_cons] at hva
      have hutop : utop.toNat = 0xeec00000 := rfl
      have hi : pdx va < pdxUtop := by
        rw [pdx_lt_pdxUtop_iff, BitVec.lt_def]
        omega
      obtain ⟨h₁, hpde, hpte, _⟩ := h.storeByte_spec hd hi (by decide) (by decide) hb
      have hnext : (va + 1#32).toNat = va.toNat + 1 := by
        rw [BitVec.toNat_add, show (1#32).toNat = 1 from rfl]
        omega
      obtain ⟨h₂, hpde₂, hpte₂⟩ := ih h₁ (by omega) hrest
      exact ⟨h₂, fun e i => (hpde₂ e i).trans (hpde e i),
        fun e i j => (hpte₂ e i j).trans (hpte e i j)⟩

/-! ## Address spaces -/

/-- The memory part of `env_setup_vm`: a zeroed page becomes the directory of a
slot that had none, and no entry below `UTOP` changes. -/
theorem setupVm_spec {p : Nat} (h : PageInv M K m dirs (p :: free) fun _ => 0) (he : e < nenv)
    (hd : dirs e = none) :
    ∃ m', pageAlloc m allocZero = (some p, m') ∧
      PageInv M K (initPgdir M m' p) (Function.update dirs e (some p)) free (fun _ => 0) ∧
      (∀ e' i j, pteWord (initPgdir M m' p) (Function.update dirs e (some p)) e' i j =
        pteWord m dirs e' i j) ∧
      ∀ q, q ≠ p → (initPgdir M m' p).mem q = m.mem q := by
  obtain ⟨m₁, halloc, h₁, hpool, hpf, hunref, _, hpte₁, hmem₁, _, href⟩ :=
    h.pageAlloc_cons allocZero
  refine ⟨m₁, halloc, ?_⟩
  have hkp : M.kernPgdir ≠ p := fun heq => kernPgdir_not_pool (heq ▸ hpool)
  have hcount : (m₁.ppRef p).toNat = 0 := by
    rw [href, h.count_eq hpool.2.2, refs_eq_zero_iff.mpr fun x _ =>
      h.free_unref p List.mem_cons_self x]
  have h₂ := h₁.incref hpf (show (m₁.ppRef p).toNat < 65535 by omega)
  have hmem : ∀ q, q ≠ p → (initPgdir M m₁ p).mem q = (m₁.incref p).mem q := fun q hq =>
    (mem_write_of_page_ne hq).trans (Function.update_of_ne hq _ _)
  obtain ⟨h₃, hpde₃, hpte₃⟩ := h₂.mem_frame (n := initPgdir M m₁ p) rfl rfl rfl
    (fun x q _ ht => hmem q fun heq => hunref x (heq ▸ ht)) (hmem _ hkp)
  have htgt := target_congr hpde₃ hpte₃
  have hnone : target (initPgdir M m₁ p) dirs (.dir e) = none := hd
  have hold : ∀ i, pdeWord (initPgdir M m₁ p) dirs e i = 0#32 := by
    intro i
    unfold pdeWord
    rw [hd]
  have hlow : ∀ i, i < pdxUtop → (initPgdir M m₁ p).mem p i = 0#32 := by
    intro i hi
    have hne : i ≠ pdxUvpt := by
      unfold pdxUtop at hi
      unfold pdxUvpt
      omega
    refine (mem_write_of_index_ne hne).trans ?_
    show Function.update m₁.mem p (m₁.mem M.kernPgdir) p i = 0#32
    rw [Function.update_self]
    exact h₁.kern_low i hi
  have hwords := words_set_dir (v := some p) hold fun d hd => Option.some.inj hd ▸ hlow
  refine ⟨?_, fun e' i j => (hwords.2 e' i j).trans ((hpte₃ e' i j).trans (hpte₁ e' i j)),
    fun q hq => (hmem q hq).trans (hmem₁ q hq)⟩
  refine h₃.set_dir he hold ?_ ?_ ?_
  · intro q hq
    cases hq
    refine ⟨hpool, hpf, fun x hx => ?_, hlow⟩
    rw [htgt] at hx
    exact hunref x hx
  · intro q
    have hup := refs_update (t := target (initPgdir M m₁ p) dirs) (p := q)
      (dir_mem_slots.mpr he) (some p)
    rw [hnone] at hup
    by_cases hqp : q = p
    · subst hqp
      simp at hup ⊢
      omega
    · have hne : p ≠ q := fun heq => hqp heq.symm
      simp [hqp, hne] at hup ⊢
      omega
  · exact fun _ _ => rfl

theorem pte_present (h : PageInv M K m dirs free held) (i j : Nat) :
    pteWord m dirs e i j &&& pteP ≠ 0#32 ↔ pteWord m dirs e i j ≠ 0#32 := by
  constructor
  · intro hp h0
    rw [h0] at hp
    exact hp (by decide)
  · intro hne hp
    rw [h.pte_perm e i j hne] at hp
    exact absurd hp (by decide)

/-- The inner loop of `env_free` empties the page table. -/
theorem freePtes_spec (h : PageInv M K m dirs free held) (hd : dirs e = some d) {i t : Nat}
    (hi : i < pdxUtop) (ht : entry (pdeWord m dirs e i) = some t) (l : List Nat)
    (hl : ∀ j ∈ l, j < nptentries) :
    Post (l.foldlM (envFreePte M d t i) m)
      (fun m' => ∃ free', PageInv M K m' dirs free' held ∧
        (∀ e' i', pdeWord m' dirs e' i' = pdeWord m dirs e' i') ∧
        ∀ j, j ∈ l → pteWord m' dirs e i j = 0#32)
      fun _ => False := by
  refine Post.foldlM (I := fun done m' => ∃ free', PageInv M K m' dirs free' held ∧
    (∀ e' i', pdeWord m' dirs e' i' = pdeWord m dirs e' i') ∧
    ∀ j, j ∈ done → pteWord m' dirs e i j = 0#32) l ?_ ⟨free, h, fun _ _ => rfl, by simp⟩
  rintro done j m₁ ⟨rest, hrest⟩ ⟨free₁, h₁, hpde, hdone⟩
  have hj : j < nptentries := hl j (by simp [hrest])
  have hi1024 : i < 1024 := Nat.lt_trans hi (by decide)
  have ht₁ : entry (pdeWord m₁ dirs e i) = some t := by rw [hpde]; exact ht
  have hword : m₁.mem t j = pteWord m₁ dirs e i j := (pteWord_of_pde ht₁ hj).symm
  unfold envFreePte
  by_cases hz : pteWord m₁ dirs e i j = 0#32
  · rw [if_neg (by rw [hword, hz]; decide), post_ok]
    refine ⟨free₁, h₁, hpde, fun j' hj' => ?_⟩
    rcases List.mem_append.mp hj' with hj' | hj'
    · exact hdone j' hj'
    · rw [List.mem_singleton.mp hj']
      exact hz
  · rw [if_pos (by rw [hword]; exact (h₁.pte_present i j).mpr hz)]
    have hbelow : pdx (pgaddr i j 0) < pdxUtop := by
      rw [pdx_pgaddr hi1024 hj]
      exact hi
    obtain ⟨m₂, free₂, hrem, h₂, hpde₂, hpte₂, _⟩ := h₁.pageRemove_spec hd hbelow
    rw [pdx_pgaddr hi1024 hj, ptx_pgaddr hi1024 hj] at hpte₂
    rw [hrem, post_ok]
    refine ⟨free₂, h₂, fun e' i' => (hpde₂ e' i').trans (hpde e' i'), fun j' hj' => ?_⟩
    rw [hpte₂]
    split
    · rfl
    · rename_i hne
      rcases List.mem_append.mp hj' with hj' | hj'
      · exact hdone j' hj'
      · exact absurd ⟨rfl, rfl, List.mem_singleton.mp hj'⟩ hne

/-- One turn of the outer loop of `env_free`. -/
theorem envFreeTable_spec (h : PageInv M K m dirs free held) (hd : dirs e = some d) {i : Nat}
    (hi : i < pdxUtop) :
    Post (envFreeTable M d m i)
      (fun m' => ∃ free', PageInv M K m' dirs free' held ∧ pdeWord m' dirs e i = 0#32 ∧
        ∀ i', i' ≠ i → pdeWord m' dirs e i' = pdeWord m dirs e i')
      fun _ => False := by
  have hpde := pdeWord_of_dir (m := m) hd hi
  unfold envFreeTable
  by_cases hz : pdeWord m dirs e i = 0#32
  · rw [← hpde, if_pos (by rw [hz]; decide), post_ok]
    exact ⟨free, h, hz, fun _ _ => rfl⟩
  · have hperm := h.pde_perm e i hz
    have hpres : ¬ pdeWord m dirs e i &&& pteP = 0#32 := by
      intro h0
      have h' := congrArg (· &&& pteP) hperm
      simp only [BitVec.and_assoc] at h'
      rw [show (pteP ||| pteW ||| pteU) &&& pteP = pteP by decide, h0] at h'
      exact absurd h' (by decide)
    have ht : entry (pdeWord m dirs e i) = some (pgnum (pdeWord m dirs e i)) := entry_of_ne hz
    generalize htd : pgnum (pdeWord m dirs e i) = t at ht
    have hpool : Pool M K t := h.target_pool (.pde e i) t ht
    obtain ⟨hk, hpa⟩ := kaddr_of_pool hpool htd
    rw [← hpde, if_neg hpres]
    simp only [hk, Except.ok_bind_eq, hpa]
    refine (h.freePtes_spec hd hi ht _ fun j hj => List.mem_range.mp hj).bind ?_
    rintro m₁ ⟨free₁, h₁, hpde₁, hempty⟩
    have ht₁ : target m₁ dirs (.pde e i) = some t := by
      simp only [target, hpde₁]
      exact ht
    have hold : ∀ j, pteWord m₁ dirs e i j = 0#32 := by
      intro j
      by_cases hj : j < nptentries
      · exact hempty j (List.mem_range.mpr hj)
      · unfold pteWord
        simp only [hj, if_false]
        split <;> rfl
    have hnew : ∀ p, entry 0#32 = some p → Pool M K p ∧ p ∉ free₁ ∧
        (∀ x, target m₁ dirs x ≠ some p) ∧ ∀ j, m₁.mem p j = 0#32 := fun p hp => by
      simp [entry_zero] at hp
    have hslot : Slot.pde e i ∈ slots := pde_mem_slots.mpr ⟨h.dirs_lt e d hd, hi⟩
    have htf : t ∉ free₁ := fun hmem => h₁.free_unref t hmem _ ht₁
    obtain ⟨hpdew, _⟩ := h₁.words_write_pde (w := 0#32) hd hi hold hnew
    have h₂ : PageInv M K (m₁.write ⟨d, i⟩ 0#32) dirs free₁
        fun q => held q + if q = t then 1 else 0 := by
      refine h₁.write_pde hd hi hold hnew (fun hne => absurd rfl hne) ?_ ?_
      · intro q
        have hup := refs_update (t := target m₁ dirs) (p := q) hslot (entry 0#32)
        rw [ht₁] at hup
        by_cases hqt : q = t
        · subst hqt
          simp [entry_zero] at hup ⊢
          omega
        · have hne : t ≠ q := fun heq => hqt heq.symm
          simp [entry_zero, hqt, hne] at hup ⊢
          omega
      · intro q hq
        have hne : q ≠ t := fun heq => htf (heq ▸ hq)
        simp [h₁.free_unheld q hq, hne]
    obtain ⟨m₃, free₃, hdec, h₃, hmem, _⟩ := h₂.decref hpool fun q => rfl
    have hpde₃ : ∀ i', pdeWord m₃ dirs e i' = pdeWord (m₁.write ⟨d, i⟩ 0#32) dirs e i' :=
      fun i' => pdeWord_congr (fun _ d _ => congrFun hmem d) e i'
    rw [hdec, post_ok]
    refine ⟨free₃, h₃, ?_, fun i' hne => ?_⟩
    · rw [hpde₃, hpdew, if_pos ⟨rfl, rfl⟩]
    · rw [hpde₃, hpdew, if_neg (fun hx => hne hx.2), hpde₁]

/-- The outer loop of `env_free` empties the directory. -/
theorem freeTables_spec (h : PageInv M K m dirs free held) (hd : dirs e = some d) (l : List Nat)
    (hl : ∀ i ∈ l, i < pdxUtop) :
    Post (l.foldlM (envFreeTable M d) m)
      (fun m' => ∃ free', PageInv M K m' dirs free' held ∧
        ∀ i, i ∈ l → pdeWord m' dirs e i = 0#32)
      fun _ => False := by
  refine Post.foldlM (I := fun done m' => ∃ free', PageInv M K m' dirs free' held ∧
    ∀ i, i ∈ done → pdeWord m' dirs e i = 0#32) l ?_ ⟨free, h, by simp⟩
  rintro done i m₁ ⟨rest, hrest⟩ ⟨free₁, h₁, hdone⟩
  have hi : i < pdxUtop := hl i (by simp [hrest])
  refine (h₁.envFreeTable_spec hd hi).imp ?_ fun _ hf => hf
  rintro m₂ ⟨free₂, h₂, hzero, hother⟩
  refine ⟨free₂, h₂, fun i' hi' => ?_⟩
  by_cases heq : i' = i
  · rw [heq]
    exact hzero
  · rw [hother i' heq]
    rcases List.mem_append.mp hi' with hmem | hmem
    · exact hdone i' hmem
    · exact absurd (List.mem_singleton.mp hmem) heq

/-- `env_free` returns every page, every page table and the directory that
nothing else refers to. -/
theorem envFreePages_spec (h : PageInv M K m dirs free fun _ => 0) (hd : dirs e = some d) :
    Post (envFreePages M m d)
      (fun m' => ∃ free', PageInv M K m' (Function.update dirs e none) free' fun _ => 0)
      fun _ => False := by
  unfold envFreePages
  refine Post.bind (h.freeTables_spec hd _ fun i hi => List.mem_range.mp hi) ?_
  · rintro m₁ ⟨free₁, h₁, hzero⟩
    have hdt : target m₁ dirs (.dir e) = some d := hd
    have hdpool : Pool M K d := h₁.target_pool _ d hdt
    have hdf : d ∉ free₁ := fun hmem => h₁.free_unref d hmem _ hdt
    have he : e < nenv := h.dirs_lt e d hd
    have hold : ∀ i, pdeWord m₁ dirs e i = 0#32 := by
      intro i
      by_cases hi : i < pdxUtop
      · exact hzero i (List.mem_range.mpr hi)
      · unfold pdeWord
        simp only [hi, if_false]
        split <;> rfl
    have h₂ : PageInv M K m₁ (Function.update dirs e none) free₁
        fun q => 0 + if q = d then 1 else 0 := by
      refine h₁.set_dir he hold (fun d hd => by cases hd) ?_ ?_
      · intro q
        have hup := refs_update (t := target m₁ dirs) (p := q) (dir_mem_slots.mpr he) none
        rw [hdt] at hup
        by_cases hqd : q = d
        · subst hqd
          simp at hup ⊢
          omega
        · have hne : d ≠ q := fun heq => hqd heq.symm
          simp [hqd, hne] at hup ⊢
          omega
      · intro q hq
        have hne : q ≠ d := fun heq => hdf (heq ▸ hq)
        simp [hne]
    obtain ⟨m₃, free₃, hdec, h₃, _, _⟩ := h₂.decref hdpool fun q => rfl
    rw [hdec, post_ok]
    exact ⟨free₃, h₃⟩

/-! ## Mapping for a system call -/

/-- A page fresh from `page_alloc` can be inserted with any permission inside
its low bits; whatever happens, memory stays sound. -/
theorem envPageAlloc_spec (h : PageInv M K m dirs free fun _ => 0) (hd : dirs e = some d)
    (hi : pdx va < pdxUtop) (perm : Word) :
    Post (envPageAlloc M m (some d) va perm)
      (fun x => (∃ free', PageInv M K x.2 dirs free' fun _ => 0) ∧
        ((x.1 < 0 ∧ ∀ e' i' j', pteWord x.2 dirs e' i' j' = pteWord m dirs e' i' j') ∨
          x.1 = 0 ∧ perm.toNat < 4096 ∧
          ∃ p ∈ free, ∀ e' i' j', pteWord x.2 dirs e' i' j' =
            if e' = e ∧ i' = pdx va ∧ j' = ptx va then page2pa p ||| perm ||| pteP
            else pteWord m dirs e' i' j'))
      fun _ => False := by
  unfold envPageAlloc
  by_cases hperm : perm &&& ~~~pteSyscall ≠ 0#32
  · have herr : checkPerm perm none = -eInval := if_pos hperm
    rw [herr]
    exact post_ok.mpr ⟨⟨free, h⟩, .inl ⟨eInval_neg, fun _ _ _ => rfl⟩⟩
  · have hlow : perm.toNat < 4096 := by
      have := toNat_le_of_and_not (not_not.mp hperm)
      have hmask : pteSyscall.toNat = 0xE07 := by decide
      omega
    by_cases hpu : perm &&& pteP = 0#32 ∨ perm &&& pteU = 0#32
    · have herr : checkPerm perm none = -eInval := by
        rw [checkPerm, if_neg hperm, if_pos hpu]
      rw [herr]
      exact post_ok.mpr ⟨⟨free, h⟩, .inl ⟨eInval_neg, fun _ _ _ => rfl⟩⟩
    · have herr : checkPerm perm none = 0 := by
        rw [checkPerm, if_neg hperm, if_neg hpu]
      rw [herr]
      cases free with
      | nil =>
          rw [h.pageAlloc_nil]
          exact post_ok.mpr ⟨⟨[], h⟩, .inl ⟨eNoMem_neg, fun _ _ _ => rfl⟩⟩
      | cons p free =>
          obtain ⟨m₁, halloc, h₁, hpool, hpf, hunref, _, hpte₁, _, _, href⟩ :=
            h.pageAlloc_cons allocZero
          rw [halloc]
          have hcount : (m₁.ppRef p).toNat < 65535 := by
            rw [href, h.count p hpool.2.2, refs_eq_zero_iff.mpr fun x _ =>
              h.free_unref p List.mem_cons_self x]
            decide
          have hbits : p ||| pgnum perm = p := by rw [pgnum_eq_zero hlow, Nat.or_zero]
          rcases h₁.pageInsert_spec hd hi hpool ⟨hpf, fun x hx => absurd hx (hunref x)⟩ hbits
            hcount with ⟨_, _, hins⟩ | ⟨m', free', hins, h', _, hpte', _⟩
          · simp only [hins, lt_self_iff_false, if_false, post_ok]
            exact ⟨⟨free, h₁⟩, .inl ⟨eNoMem_neg, hpte₁⟩⟩
          · simp only [hins, lt_self_iff_false, if_false, post_ok]
            refine ⟨⟨free', h'⟩, .inr ⟨trivial, hlow, p, List.mem_cons_self, ?_⟩⟩
            intro e' i' j'
            rw [hpte', hpte₁]

/-- `env_page_map`: the page mapped at `srcva` is inserted at `dstva`, if it fits
the permission and its count has room. -/
theorem envPageMap_spec (h : PageInv M K m dirs free fun _ => 0) {se sd : Nat} {srcva perm : Word}
    (hsd : dirs se = some sd) (hsi : pdx srcva < pdxUtop) (hd : dirs e = some d)
    (hi : pdx va < pdxUtop)
    (hfit : (perm &&& pteW ≠ 0#32 → pteWord m dirs se (pdx srcva) (ptx srcva) &&& pteW ≠ 0#32) →
      pteWord m dirs se (pdx srcva) (ptx srcva) ≠ 0#32 →
      pgnum (pteWord m dirs se (pdx srcva) (ptx srcva)) ||| pgnum perm =
        pgnum (pteWord m dirs se (pdx srcva) (ptx srcva)) ∧
      refs slots (target m dirs) (pgnum (pteWord m dirs se (pdx srcva) (ptx srcva))) < 65535) :
    Post (envPageMap M m (some sd) srcva (some d) va perm)
      (fun x => (∃ free', PageInv M K x.2 dirs free' fun _ => 0) ∧
        ((x.1 < 0 ∧ x.2 = m) ∨
          x.1 = 0 ∧ pteWord m dirs se (pdx srcva) (ptx srcva) ≠ 0#32 ∧
          (perm &&& pteW ≠ 0#32 →
            pteWord m dirs se (pdx srcva) (ptx srcva) &&& pteW ≠ 0#32) ∧
          (∀ e' i' j', pteWord x.2 dirs e' i' j' =
            if e' = e ∧ i' = pdx va ∧ j' = ptx va then
              page2pa (pgnum (pteWord m dirs se (pdx srcva) (ptx srcva))) ||| perm ||| pteP
            else pteWord m dirs e' i' j') ∧
          ∀ q, Data m dirs free q → x.2.mem q = m.mem q))
      fun _ => False := by
  unfold envPageMap
  by_cases hz : pteWord m dirs se (pdx srcva) (ptx srcva) = 0#32
  · rw [h.pageLookup_none hsd hsi hz, Except.ok_bind_eq]
    exact post_pure.mpr ⟨⟨free, h⟩, .inl ⟨eInval_neg, rfl⟩⟩
  · obtain ⟨t, ht, hw, hlook⟩ := h.pageLookup_some hsd hsi hz
    rw [hlook, Except.ok_bind_eq]
    have hread : m.read ⟨t, ptx srcva⟩ = pteWord m dirs se (pdx srcva) (ptx srcva) := hw
    simp only [hread]
    by_cases hwr : (perm &&& pteW) &&&
        ~~~(pteW &&& pteWord m dirs se (pdx srcva) (ptx srcva)) ≠ 0#32
    · rw [if_pos hwr]
      exact post_ok.mpr ⟨⟨free, h⟩, .inl ⟨eInval_neg, rfl⟩⟩
    · rw [if_neg hwr]
      have hwrite : perm &&& pteW ≠ 0#32 →
          pteWord m dirs se (pdx srcva) (ptx srcva) &&& pteW ≠ 0#32 := by
        intro hpw h0
        refine hwr ?_
        rw [BitVec.and_comm pteW, h0, show ~~~(0#32 : Word) = BitVec.allOnes 32 by decide,
          BitVec.and_allOnes]
        exact hpw
      have htgt : target m dirs (.pte se (pdx srcva) (ptx srcva)) =
          some (pgnum (pteWord m dirs se (pdx srcva) (ptx srcva))) := entry_of_ne hz
      obtain ⟨hbits, hroom⟩ := hfit hwrite hz
      have hpool := h.target_pool _ _ htgt
      have hlt : (m.ppRef (pgnum (pteWord m dirs se (pdx srcva) (ptx srcva)))).toNat < 65535 := by
        rw [h.count_eq hpool.2.2]
        exact hroom
      rcases h.pageInsert_spec hd hi hpool (h.data_of_pte htgt) hbits hlt with
        ⟨_, _, hins⟩ | ⟨m', free', hins, h', _, hpte', hmem'⟩
      · rw [hins, post_ok]
        exact ⟨⟨free, h⟩, .inl ⟨eNoMem_neg, rfl⟩⟩
      · rw [hins, post_ok]
        exact ⟨⟨free', h'⟩, .inr ⟨rfl, hz, hwrite, hpte', hmem'⟩⟩

end PageInv

end

end Jos
end Sisop

import Sisop.Jos.PageOps

/-!
# What the page table functions do

One specification for each function of `kern/pmap.c`, stated on the entries of
the reference graph: which entry changes, which pages leave or join the free
list, and that the contents of every page in use for data stay.  The callers in
`kern/env.c` and `kern/syscall.c` are proved from these alone.
-/

namespace Sisop
namespace Jos

open RefCount

@[simp] theorem Except.ok_bind_eq {ε α β : Type} (a : α) (f : α → Except ε β) :
    (Except.ok a >>= f) = f a := rfl

@[simp] theorem Except.error_bind_eq {ε α β : Type} (x : ε) (f : α → Except ε β) :
    ((Except.error x : Except ε α) >>= f) = Except.error x := rfl

theorem kaddr_of_pool {M : Machine} {K : Nat → Prop} {p : Nat} {w : Word} (hp : Pool M K p)
    (hw : pgnum w = p) : kaddr M w = .ok p ∧ pa2page M w = .ok p := by
  have hlt : ¬ M.npages ≤ pgnum w := by
    rw [hw]
    exact Nat.not_le.mpr hp.1
  constructor
  · rw [kaddr, if_neg hlt, hw]
  · rw [pa2page, if_neg hlt, hw]

theorem tableEntry {t : Nat} (ht : t < 2 ^ 20) :
    entry (page2pa t ||| pteP ||| pteW ||| pteU) = some t ∧
      (page2pa t ||| pteP ||| pteW ||| pteU) &&& (pteP ||| pteW ||| pteU) =
        pteP ||| pteW ||| pteU := by
  have hand : (page2pa t ||| pteP ||| pteW ||| pteU) &&& (pteP ||| pteW ||| pteU) =
      pteP ||| pteW ||| pteU := by
    ext i hi
    simp
    tauto
  refine ⟨entry_eq_some.mpr ⟨fun h => ?_, ?_⟩, hand⟩
  · rw [h] at hand
    exact absurd hand (by decide)
  · simp [pgnum_or, pgnum_page2pa ht]

section

variable {M : Machine} {K : Nat → Prop} {m : PMap} {dirs : Nat → Option Nat}
  {free : List Nat} {held : Nat → Nat} {e d : Nat} {va : Word}

namespace PageInv

/-! ## `pgdir_walk` -/

theorem pgdirGrow_same (hd : dirs e = some d) (hi : pdx va < pdxUtop) {create : Bool}
    (hno : pdeWord m dirs e (pdx va) ≠ 0#32 ∨ create = false) : pgdirGrow m d va create = m := by
  rw [pdeWord_of_dir hd hi] at hno
  unfold pgdirGrow
  rw [if_neg]
  rintro ⟨hz, hc⟩
  rcases hno with hne | hf
  · exact hne hz
  · rw [hf] at hc
    cases hc

/-- `pgdir_walk` with memory for a missing page table. -/
theorem pgdirGrow_new {t : Nat} (h : PageInv M K m dirs (t :: free) held) (hd : dirs e = some d)
    (hi : pdx va < pdxUtop) (hz : pdeWord m dirs e (pdx va) = 0#32) :
    PageInv M K (pgdirGrow m d va true) dirs free held ∧
      (∀ e' i', pdeWord (pgdirGrow m d va true) dirs e' i' =
        if e' = e ∧ i' = pdx va then page2pa t ||| pteP ||| pteW ||| pteU
        else pdeWord m dirs e' i') ∧
      (∀ e' i' j', pteWord (pgdirGrow m d va true) dirs e' i' j' = pteWord m dirs e' i' j') ∧
      (∀ q, Data m dirs (t :: free) q → (pgdirGrow m d va true).mem q = m.mem q) ∧
      (pgdirGrow m d va true).ppRef = Function.update m.ppRef t (m.ppRef t + 1#16) := by
  obtain ⟨m₁, halloc, h₁, hpool, htf, hunref, hpde, hpte, hmem, hzero, href⟩ :=
    h.pageAlloc_cons allocZero
  have hgrow : pgdirGrow m d va true =
      (m₁.incref t).write ⟨d, pdx va⟩ (page2pa t ||| pteP ||| pteW ||| pteU) := by
    rw [pdeWord_of_dir hd hi] at hz
    unfold pgdirGrow
    rw [if_pos ⟨hz, rfl⟩, halloc]
  have hcount : (m₁.ppRef t).toNat = 0 := by
    rw [href, h.count t hpool.2.2, h.free_unheld t List.mem_cons_self,
      refs_eq_zero_iff.mpr fun x _ => h.free_unref t List.mem_cons_self x]
  have h₂ := h₁.incref htf (by omega)
  have hz₁ : pdeWord m₁ dirs e (pdx va) = 0#32 := (hpde e (pdx va)).trans hz
  have hold : ∀ j, pteWord (m₁.incref t) dirs e (pdx va) j = 0#32 := fun j =>
    pteWord_of_no_pde hz₁
  have hnew : ∀ p, entry (page2pa t ||| pteP ||| pteW ||| pteU) = some p →
      Pool M K p ∧ p ∉ free ∧ (∀ x, target (m₁.incref t) dirs x ≠ some p) ∧
        ∀ j, (m₁.incref t).mem p j = 0#32 := by
    intro p hp
    rw [(tableEntry hpool.lt).1] at hp
    cases hp
    exact ⟨hpool, htf, hunref, hzero (by decide)⟩
  have hslot : Slot.pde e (pdx va) ∈ slots := pde_mem_slots.mpr ⟨h.dirs_lt e d hd, hi⟩
  have hnone : target (m₁.incref t) dirs (.pde e (pdx va)) = none := entry_eq_none.mpr hz₁
  rw [hgrow]
  obtain ⟨hpde₂, hpte₂⟩ := h₂.words_write_pde hd hi hold hnew
  refine ⟨h₂.write_pde hd hi hold hnew (fun _ => (tableEntry hpool.lt).2) ?_ ?_, ?_, ?_, ?_, ?_⟩
  · intro p
    have hup := refs_update (t := target (m₁.incref t) dirs) (p := p) hslot
      (entry (page2pa t ||| pteP ||| pteW ||| pteU))
    rw [hnone, (tableEntry hpool.lt).1] at hup
    rw [(tableEntry hpool.lt).1]
    by_cases hpt : p = t
    · subst hpt
      simp at hup ⊢
      omega
    · have hne : t ≠ p := fun heq => hpt heq.symm
      simp [hpt, hne] at hup ⊢
      omega
  · exact h₁.free_unheld
  · exact fun e' i' => (hpde₂ e' i').trans (by rw [← hpde e' i']; rfl)
  · exact fun e' i' j' => (hpte₂ e' i' j').trans (hpte e' i' j')
  · intro q hq
    have hqt : q ≠ t := fun heq => hq.1 (heq ▸ List.mem_cons_self)
    have hqd : q ≠ d := fun heq => hq.2 (.dir e) (heq ▸ hd)
    rw [mem_write_of_page_ne hqd]
    exact hmem q hqt
  · show Function.update m₁.ppRef t (m₁.ppRef t + 1#16) = _
    rw [href]

theorem pgdirWalk_dir (create : Bool) :
    pgdirWalk M m (some d) va create =
      if (pgdirGrow m d va create).mem d (pdx va) ≠ 0#32 then do
        let pte ← kaddr M ((pgdirGrow m d va create).mem d (pdx va))
        pure (some ⟨pte, ptx va⟩, pgdirGrow m d va create)
      else pure (none, pgdirGrow m d va create) := rfl

/-- `pgdir_walk` where the page table exists. -/
theorem pgdirWalk_table (h : PageInv M K m dirs free held) (hd : dirs e = some d)
    (hi : pdx va < pdxUtop) {t : Nat} (ht : entry (pdeWord m dirs e (pdx va)) = some t)
    (create : Bool) : pgdirWalk M m (some d) va create = .ok (some ⟨t, ptx va⟩, m) := by
  obtain ⟨hne, hpg⟩ := entry_eq_some.mp ht
  have hk := (kaddr_of_pool (h.target_pool (.pde e (pdx va)) t ht) hpg).1
  rw [pgdirWalk_dir, pgdirGrow_same hd hi (.inl hne)]
  rw [pdeWord_of_dir hd hi] at hne hk
  simp only [ne_eq, hne, not_false_eq_true, if_true, hk, Except.ok_bind_eq]
  rfl

/-- `pgdir_walk` where the page table is missing and none is to be made. -/
theorem pgdirWalk_none (hd : dirs e = some d) (hi : pdx va < pdxUtop)
    (hz : pdeWord m dirs e (pdx va) = 0#32) :
    pgdirWalk M m (some d) va false = .ok (none, m) := by
  rw [pgdirWalk_dir, pgdirGrow_same hd hi (.inr rfl)]
  rw [pdeWord_of_dir hd hi] at hz
  simp only [ne_eq, hz, not_true_eq_false, if_false]
  rfl

/-- `pgdir_walk` where the page table is missing and so is the memory for it. -/
theorem pgdirWalk_full (h : PageInv M K m dirs [] held) (hd : dirs e = some d)
    (hi : pdx va < pdxUtop) (hz : pdeWord m dirs e (pdx va) = 0#32) :
    pgdirWalk M m (some d) va true = .ok (none, m) := by
  have hgrow : pgdirGrow m d va true = m := by
    unfold pgdirGrow
    rw [h.pageAlloc_nil]
    simp
  rw [pdeWord_of_dir hd hi] at hz
  rw [pgdirWalk_dir]
  simp only [hgrow, ne_eq, hz, not_true_eq_false, if_false]
  rfl

/-- `pgdir_walk` where the page table is missing and is made. -/
theorem pgdirWalk_new {t : Nat} (h : PageInv M K m dirs (t :: free) held) (hd : dirs e = some d)
    (hi : pdx va < pdxUtop) (hz : pdeWord m dirs e (pdx va) = 0#32) :
    pgdirWalk M m (some d) va true = .ok (some ⟨t, ptx va⟩, pgdirGrow m d va true) := by
  obtain ⟨h', hpde, _⟩ := h.pgdirGrow_new hd hi hz
  have htlt := (h.free_pool t List.mem_cons_self).lt
  have ht : entry (pdeWord (pgdirGrow m d va true) dirs e (pdx va)) = some t := by
    rw [hpde, if_pos ⟨rfl, rfl⟩]
    exact (tableEntry htlt).1
  obtain ⟨hne, hpg⟩ := entry_eq_some.mp ht
  have hk := (kaddr_of_pool (h'.target_pool (.pde e (pdx va)) t ht) hpg).1
  rw [pdeWord_of_dir hd hi] at hne hk
  rw [pgdirWalk_dir]
  simp only [ne_eq, hne, not_false_eq_true, if_true, hk, Except.ok_bind_eq]
  rfl

/-! ## `page_lookup` -/

theorem pageLookup_none (h : PageInv M K m dirs free held) (hd : dirs e = some d)
    (hi : pdx va < pdxUtop) (hz : pteWord m dirs e (pdx va) (ptx va) = 0#32) :
    pageLookup M m (some d) va = .ok none := by
  unfold pageLookup
  cases ht : entry (pdeWord m dirs e (pdx va)) with
  | none =>
      rw [pgdirWalk_none hd hi (entry_eq_none.mp ht)]
      rfl
  | some t =>
      rw [h.pgdirWalk_table hd hi ht]
      rw [pteWord_of_pde ht (ptx_lt va)] at hz
      simp only [Except.ok_bind_eq, PMap.read, hz, if_true]
      rfl

theorem pageLookup_some (h : PageInv M K m dirs free held) (hd : dirs e = some d)
    (hi : pdx va < pdxUtop) (hne : pteWord m dirs e (pdx va) (ptx va) ≠ 0#32) :
    ∃ t, entry (pdeWord m dirs e (pdx va)) = some t ∧
      m.mem t (ptx va) = pteWord m dirs e (pdx va) (ptx va) ∧
      pageLookup M m (some d) va =
        .ok (some (pgnum (pteWord m dirs e (pdx va) (ptx va)), ⟨t, ptx va⟩)) := by
  obtain ⟨t, ht, _, hw⟩ := pteWord_ne_zero hne
  have hp := (kaddr_of_pool
    (h.target_pool (.pte e (pdx va) (ptx va)) _ (entry_of_ne hne)) rfl).2
  refine ⟨t, ht, hw.symm, ?_⟩
  unfold pageLookup
  rw [h.pgdirWalk_table hd hi ht]
  rw [hw] at hne hp ⊢
  simp only [Except.ok_bind_eq, PMap.read, hne, if_false, hp]
  rfl

/-! ## `page_remove` -/

theorem pageDecref_write {m₁ : PMap} {p : Nat} (x : PtePtr) (w : Word)
    (hdec : pageDecref (m.write x w) p = .ok m₁) :
    ∃ m₂, pageDecref m p = .ok m₂ ∧ m₂.write x w = m₁ := by
  unfold pageDecref pageFree at hdec ⊢
  by_cases hz : m.ppRef p - 1#16 = 0#16
  · by_cases hl : m.ppLink p = none
    · simp [PMap.setRef, hz, hl] at hdec ⊢
      exact hdec
    · simp [PMap.setRef, hz, hl] at hdec
  · simp [PMap.setRef, hz] at hdec ⊢
    exact hdec

/-- `page_remove` clears one entry.  The source drops the reference before it
clears the entry; the two steps touch different fields, and the proof takes them
the other way round. -/
theorem pageRemove_spec (h : PageInv M K m dirs free held) (hd : dirs e = some d)
    (hi : pdx va < pdxUtop) :
    ∃ m' free', pageRemove M m (some d) va = .ok m' ∧ PageInv M K m' dirs free' held ∧
      (∀ e' i', pdeWord m' dirs e' i' = pdeWord m dirs e' i') ∧
      (∀ e' i' j', pteWord m' dirs e' i' j' =
        if e' = e ∧ i' = pdx va ∧ j' = ptx va then 0#32 else pteWord m dirs e' i' j') ∧
      (∀ q, Data m dirs free q → m'.mem q = m.mem q) ∧
      (∀ q, q ∈ free' → q ∉ free → ∀ x, target m' dirs x ≠ some q) := by
  by_cases hz : pteWord m dirs e (pdx va) (ptx va) = 0#32
  · refine ⟨m, free, ?_, h, fun _ _ => rfl, ?_, fun _ _ => rfl, fun q hq hn => absurd hq hn⟩
    · simp only [pageRemove, h.pageLookup_none hd hi hz, Except.ok_bind_eq]
      rfl
    · intro e' i' j'
      split
      · rename_i hx
        obtain ⟨rfl, rfl, rfl⟩ := hx
        exact hz
      · rfl
  · obtain ⟨t, ht, hw, hlook⟩ := h.pageLookup_some hd hi hz
    have hj : ptx va < nptentries := ptx_lt va
    have hold : target m dirs (.pte e (pdx va) (ptx va)) =
        some (pgnum (pteWord m dirs e (pdx va) (ptx va))) := entry_of_ne hz
    generalize hp : pgnum (pteWord m dirs e (pdx va) (ptx va)) = p at hlook hold
    have hpool : Pool M K p := h.target_pool _ p hold
    have hslot : Slot.pte e (pdx va) (ptx va) ∈ slots :=
      pte_mem_slots.mpr ⟨h.dirs_lt e d hd, hi, hj⟩
    have hpf : p ∉ free := fun hmem => h.free_unref p hmem _ hold
    have h₁ : PageInv M K (m.write ⟨t, ptx va⟩ 0#32) dirs free
        fun q => held q + if q = p then 1 else 0 := by
      refine h.write_pte ht hj (fun q hq => absurd hq (by simp [entry_zero]))
        (fun hne => absurd rfl hne) ?_ ?_
      · intro q
        have hup := refs_update (t := target m dirs) (p := q) hslot (entry 0#32)
        rw [hold] at hup
        by_cases hqp : q = p
        · subst hqp
          simp [entry_zero] at hup ⊢
          omega
        · have hne : p ≠ q := fun heq => hqp heq.symm
          simp [entry_zero, hqp, hne] at hup ⊢
          omega
      · intro q hq
        have hne : q ≠ p := fun heq => hpf (heq ▸ hq)
        simp [h.free_unheld q hq, hne]
    obtain ⟨m₂, free', hdec, h₂, hmem, hfree'⟩ := h₁.decref hpool fun q => rfl
    obtain ⟨m₃, hdec₃, hwrite⟩ := pageDecref_write ⟨t, ptx va⟩ 0#32 hdec
    have hpdew := h.pdeWord_write_pte (w := 0#32) (j := ptx va) ht
    have hptew := h.pteWord_write_pte (w := 0#32) ht hj
    obtain ⟨_, hpde, hpte⟩ : PageInv M K m₂ dirs free' held ∧
        (∀ e' i', pdeWord m₂ dirs e' i' = pdeWord (m.write ⟨t, ptx va⟩ 0#32) dirs e' i') ∧
        ∀ e' i' j', pteWord m₂ dirs e' i' j' =
          pteWord (m.write ⟨t, ptx va⟩ 0#32) dirs e' i' j' :=
      ⟨h₂, pdeWord_congr fun _ d _ => congrFun hmem d,
        pteWord_congr (fun _ d _ => congrFun hmem d) fun _ _ t _ => congrFun hmem t⟩
    refine ⟨m₂, free', ?_, h₂, ?_, ?_, ?_, ?_⟩
    · simp only [pageRemove, hlook, Except.ok_bind_eq, hdec₃, hwrite]
      rfl
    · exact fun e' i' => (hpde e' i').trans (hpdew e' i')
    · exact fun e' i' j' => (hpte e' i' j').trans (hptew e' i' j')
    · intro q hq
      have hqt : q ≠ t := fun heq => hq.2 (.pde e (pdx va)) (heq ▸ ht)
      rw [hmem]
      exact mem_write_of_page_ne hqt
    · exact fun q hq _ => h₂.free_unref q hq

/-! ## `page_insert` -/

/-- `page_insert` without the memory for a page table changes nothing. -/
theorem pageInsert_full (h : PageInv M K m dirs [] held) (hd : dirs e = some d)
    (hi : pdx va < pdxUtop) (hz : pdeWord m dirs e (pdx va) = 0#32) (pp : Nat) (perm : Word) :
    pageInsert M m (some d) pp va perm = .ok (-eNoMem, m) := by
  simp only [pageInsert, h.pgdirWalk_full hd hi hz, Except.ok_bind_eq]
  rfl

/-- `page_insert` once the page table is there: the page inserted is counted, the
old entry removed, and the new entry written. -/
theorem pageInsert_table {t pp : Nat} {perm : Word} (h : PageInv M K m dirs free held)
    (hd : dirs e = some d) (hi : pdx va < pdxUtop) (ht : entry (pdeWord m dirs e (pdx va)) = some t)
    (hpp : Pool M K pp) (hdata : Data m dirs free pp) (hperm : pp ||| pgnum perm = pp)
    (hlt : (m.ppRef pp).toNat < 65535) :
    ∃ m₁ m' free', pageRemove M (m.incref pp) (some d) va = .ok m₁ ∧
      m₁.write ⟨t, ptx va⟩ (page2pa pp ||| perm ||| pteP) = m' ∧ PageInv M K m' dirs free' held ∧
      (∀ e' i', pdeWord m' dirs e' i' = pdeWord m dirs e' i') ∧
      (∀ e' i' j', pteWord m' dirs e' i' j' =
        if e' = e ∧ i' = pdx va ∧ j' = ptx va then page2pa pp ||| perm ||| pteP
        else pteWord m dirs e' i' j') ∧
      (∀ q, Data m dirs free q → m'.mem q = m.mem q) := by
  have hj : ptx va < nptentries := ptx_lt va
  have h₁ := h.incref hdata.1 hlt
  obtain ⟨m₁, free', hrem, h₂, hpde, hpte, hmem, _⟩ := h₁.pageRemove_spec hd hi
  have hne : page2pa pp ||| perm ||| pteP ≠ 0#32 := or_pteP_ne_zero _
  have hent : entry (page2pa pp ||| perm ||| pteP) = some pp := by
    rw [entry_of_ne hne, pgnum_entry hpp.lt hperm]
  have ht₁ : entry (pdeWord m₁ dirs e (pdx va)) = some t := by
    rw [hpde]
    exact ht
  have hslot : Slot.pte e (pdx va) (ptx va) ∈ slots :=
    pte_mem_slots.mpr ⟨h.dirs_lt e d hd, hi, hj⟩
  have hclear : target m₁ dirs (.pte e (pdx va) (ptx va)) = none := by
    simp only [target, hpte]
    simp [entry_zero]
  have hppf : pp ∉ free' := fun hmem => by
    have := h₂.free_unheld pp hmem
    simp at this
  have hdata₁ : Data m₁ dirs free' pp := by
    refine ⟨hppf, fun x hx => ?_⟩
    cases x with
    | dir e' => exact hdata.2 (.dir e') hx
    | pde e' i' =>
        simp only [target, hpde] at hx
        exact hdata.2 (.pde e' i') hx
    | pte e' i' j' => trivial
  refine ⟨m₁, _, free', hrem, rfl, ?_, ?_, ?_, ?_⟩
  · refine h₂.write_pte ht₁ hj ?_ (fun _ => or_pteP_and _) ?_ ?_
    · intro p hp
      rw [hent] at hp
      cases hp
      exact ⟨hpp, hdata₁⟩
    · intro q
      have hup := refs_update (t := target m₁ dirs) (p := q) hslot
        (entry (page2pa pp ||| perm ||| pteP))
      rw [hclear, hent] at hup
      rw [hent]
      by_cases hqp : q = pp
      · subst hqp
        simp at hup ⊢
        omega
      · have hne : pp ≠ q := fun heq => hqp heq.symm
        simp [hqp, hne] at hup ⊢
        omega
    · intro q hq
      have := h₂.free_unheld q hq
      omega
  · exact fun e' i' => (h₂.pdeWord_write_pte ht₁ e' i').trans (hpde e' i')
  · intro e' i' j'
    rw [h₂.pteWord_write_pte ht₁ hj, hpte]
    split
    · rfl
    · rfl
  · intro q hq
    have hqt : q ≠ t := fun heq => hq.2 (.pde e (pdx va)) (heq ▸ ht)
    rw [mem_write_of_page_ne hqt]
    exact hmem q hq

/-- `page_insert`: a failure changes nothing and needs both a missing page table
and an empty free list; otherwise the entry is the one asked for, every other
entry is as it was, and no page in use for data changes. -/
theorem pageInsert_spec {pp : Nat} {perm : Word} (h : PageInv M K m dirs free held)
    (hd : dirs e = some d) (hi : pdx va < pdxUtop) (hpp : Pool M K pp) (hdata : Data m dirs free pp)
    (hperm : pp ||| pgnum perm = pp) (hlt : (m.ppRef pp).toNat < 65535) :
    (free = [] ∧ pdeWord m dirs e (pdx va) = 0#32 ∧
      pageInsert M m (some d) pp va perm = .ok (-eNoMem, m)) ∨
    ∃ m' free', pageInsert M m (some d) pp va perm = .ok (0, m') ∧
      PageInv M K m' dirs free' held ∧
      (∀ e' i', (e', i') ≠ (e, pdx va) → pdeWord m' dirs e' i' = pdeWord m dirs e' i') ∧
      (∀ e' i' j', pteWord m' dirs e' i' j' =
        if e' = e ∧ i' = pdx va ∧ j' = ptx va then page2pa pp ||| perm ||| pteP
        else pteWord m dirs e' i' j') ∧
      (∀ q, Data m dirs free q → m'.mem q = m.mem q) := by
  by_cases hz : pdeWord m dirs e (pdx va) = 0#32
  · cases free with
    | nil => exact .inl ⟨rfl, hz, h.pageInsert_full hd hi hz pp perm⟩
    | cons t free =>
        right
        have htpool := h.free_pool t List.mem_cons_self
        have hpt : pp ≠ t := fun heq => hdata.1 (heq ▸ List.mem_cons_self)
        obtain ⟨h₁, hpde, hpte, hmem, href⟩ := h.pgdirGrow_new hd hi hz
        have ht : entry (pdeWord (pgdirGrow m d va true) dirs e (pdx va)) = some t := by
          rw [hpde, if_pos ⟨rfl, rfl⟩]
          exact (tableEntry htpool.lt).1
        have hlt₁ : ((pgdirGrow m d va true).ppRef pp).toNat < 65535 := by
          rw [href, Function.update_of_ne hpt]
          exact hlt
        have hkeep : ∀ q, Data m dirs (t :: free) q →
            Data (pgdirGrow m d va true) dirs free q := by
          intro q hq
          refine ⟨fun hmem => hq.1 (List.mem_cons_of_mem t hmem), fun x hx => ?_⟩
          cases x with
          | dir e' => exact hq.2 (.dir e') hx
          | pde e' i' =>
              simp only [target, hpde] at hx
              split at hx
              · rw [(tableEntry htpool.lt).1] at hx
                cases hx
                exact absurd List.mem_cons_self hq.1
              · exact hq.2 (.pde e' i') hx
          | pte e' i' j' => trivial
        obtain ⟨m₁, m', free', hrem, hwrite, h₂, hpde₂, hpte₂, hmem₂⟩ :=
          h₁.pageInsert_table hd hi ht hpp (hkeep pp hdata) hperm hlt₁
        refine ⟨m', free', ?_, h₂, ?_, ?_, ?_⟩
        · simp only [pageInsert, h.pgdirWalk_new hd hi hz, Except.ok_bind_eq, hrem, hwrite]
          rfl
        · intro e' i' hne
          rw [hpde₂, hpde, if_neg]
          rintro ⟨rfl, rfl⟩
          exact hne rfl
        · intro e' i' j'
          rw [hpte₂, hpte]
        · exact fun q hq => (hmem₂ q (hkeep q hq)).trans (hmem q hq)
  · right
    obtain ⟨m₁, m', free', hrem, hwrite, h₂, hpde, hpte, hmem⟩ :=
      h.pageInsert_table hd hi (entry_of_ne hz) hpp hdata hperm hlt
    refine ⟨m', free', ?_, h₂, fun e' i' _ => hpde e' i', hpte, hmem⟩
    simp only [pageInsert, h.pgdirWalk_table hd hi (entry_of_ne hz), Except.ok_bind_eq, hrem,
      hwrite]
    rfl

theorem pageLookup_mem {m' : PMap} {pgdir : Option Nat} (hmem : m'.mem = m.mem) :
    pageLookup M m' pgdir va = pageLookup M m pgdir va := by
  unfold pageLookup
  cases pgdir with
  | none => rfl
  | some d =>
      rw [pgdirWalk_dir, pgdirWalk_dir]
      simp only [pgdirGrow, Bool.false_eq_true, and_false, if_false, hmem]
      by_cases hz : m.mem d (pdx va) = 0#32
      · simp only [hz, ne_eq, not_true_eq_false, if_false]
        rfl
      · simp only [ne_eq, hz, not_false_eq_true, if_true]
        cases kaddr M (m.mem d (pdx va)) with
        | error msg => rfl
        | ok pte =>
            simp only [Except.ok_bind_eq, PMap.read, hmem]
            rfl

/-- `page_insert` where nothing is mapped and there is a page table or memory for
one.  The count goes up by one whatever it was, and wraps at its largest value. -/
theorem pageInsert_unmapped {pp : Nat} {perm : Word} (h : PageInv M K m dirs free held)
    (hd : dirs e = some d) (hi : pdx va < pdxUtop)
    (hz : pteWord m dirs e (pdx va) (ptx va) = 0#32) (hpp : pp ∉ free)
    (hroom : free = [] → pdeWord m dirs e (pdx va) ≠ 0#32) :
    ∃ m₁ t free₁, PageInv M K m₁ dirs free₁ held ∧
      (free₁ = free ∧ pdeWord m dirs e (pdx va) ≠ 0#32 ∨
        free = t :: free₁ ∧ pdeWord m dirs e (pdx va) = 0#32) ∧
      entry (pdeWord m₁ dirs e (pdx va)) = some t ∧
      (∀ e' i' j', pteWord m₁ dirs e' i' j' = pteWord m dirs e' i' j') ∧
      (∀ i', i' ≠ pdx va → pdeWord m₁ dirs e i' = pdeWord m dirs e i') ∧
      m₁.ppRef pp = m.ppRef pp ∧
      pageInsert M m (some d) pp va perm =
        .ok (0, (m₁.incref pp).write ⟨t, ptx va⟩ (page2pa pp ||| perm ||| pteP)) := by
  have hremove : ∀ {m₁ : PMap} {free₁ : List Nat}, PageInv M K m₁ dirs free₁ held →
      pteWord m₁ dirs e (pdx va) (ptx va) = 0#32 →
      pageRemove M (m₁.incref pp) (some d) va = .ok (m₁.incref pp) := by
    intro m₁ free₁ h₁ hz₁
    have hmem : (m₁.incref pp).mem = m₁.mem := rfl
    have hlook : pageLookup M (m₁.incref pp) (some d) va = .ok none :=
      (pageLookup_mem hmem).trans (h₁.pageLookup_none hd hi hz₁)
    simp only [pageRemove, hlook, Except.ok_bind_eq]
    rfl
  by_cases hpde : pdeWord m dirs e (pdx va) = 0#32
  · cases free with
    | nil => exact absurd hpde (hroom rfl)
    | cons t free₁ =>
        obtain ⟨h₁, hpde₁, hpte₁, _, href⟩ := h.pgdirGrow_new hd hi hpde
        have hpt : pp ≠ t := fun heq => hpp (heq ▸ List.mem_cons_self)
        have ht : entry (pdeWord (pgdirGrow m d va true) dirs e (pdx va)) = some t := by
          rw [hpde₁, if_pos ⟨rfl, rfl⟩]
          exact (tableEntry (h.free_pool t List.mem_cons_self).lt).1
        refine ⟨_, t, free₁, h₁, .inr ⟨rfl, hpde⟩, ht, hpte₁, fun i' hi' => ?_, ?_, ?_⟩
        · rw [hpde₁, if_neg fun hx => hi' hx.2]
        · rw [href, Function.update_of_ne hpt]
        · have hz₁ : pteWord (pgdirGrow m d va true) dirs e (pdx va) (ptx va) = 0#32 := by
            rw [hpte₁]
            exact hz
          simp only [pageInsert, h.pgdirWalk_new hd hi hpde, Except.ok_bind_eq, hremove h₁ hz₁]
          rfl
  · refine ⟨m, _, free, h, .inl ⟨rfl, hpde⟩, entry_of_ne hpde, fun _ _ _ => rfl,
      fun _ _ => rfl, rfl, ?_⟩
    simp only [pageInsert, h.pgdirWalk_table hd hi (entry_of_ne hpde), Except.ok_bind_eq,
      hremove h hz]
    rfl

end PageInv

end

end Jos
end Sisop

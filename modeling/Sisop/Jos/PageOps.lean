import Sisop.Jos.PageGraph

/-!
# Single steps on physical memory

What the smallest steps of `kern/pmap.c` do to the reference graph: a page comes
off the free list, a count goes up or down, a directory entry or a page table
entry is written.  Each keeps `PageInv`, with `held` following the references
that are in flight.  The functions of `kern/pmap.c` are composed of these in the
next module.
-/

namespace Sisop
namespace Jos

open RefCount

section Writes

variable {m : PMap} {t j q : Nat} {w : Word}

@[simp] theorem ppRef_write (p : PtePtr) : (m.write p w).ppRef = m.ppRef := rfl
@[simp] theorem ppLink_write (p : PtePtr) : (m.write p w).ppLink = m.ppLink := rfl
@[simp] theorem pageFreeList_write (p : PtePtr) : (m.write p w).pageFreeList = m.pageFreeList := rfl
@[simp] theorem ppRef_zero (p : Nat) : (m.zero p).ppRef = m.ppRef := rfl
@[simp] theorem ppLink_zero (p : Nat) : (m.zero p).ppLink = m.ppLink := rfl
@[simp] theorem pageFreeList_zero (p : Nat) : (m.zero p).pageFreeList = m.pageFreeList := rfl
@[simp] theorem mem_setRef (p : Nat) (n : BitVec 16) : (m.setRef p n).mem = m.mem := rfl
@[simp] theorem mem_incref (p : Nat) : (m.incref p).mem = m.mem := rfl
@[simp] theorem ppLink_incref (p : Nat) : (m.incref p).ppLink = m.ppLink := rfl
@[simp] theorem pageFreeList_incref (p : Nat) : (m.incref p).pageFreeList = m.pageFreeList := rfl

theorem mem_write_self : (m.write ⟨t, j⟩ w).mem t j = w := by
  simp [PMap.write]

theorem mem_write_of_page_ne (h : q ≠ t) : (m.write ⟨t, j⟩ w).mem q = m.mem q :=
  Function.update_of_ne h _ _

theorem mem_write_of_index_ne {j' : Nat} (h : j' ≠ j) :
    (m.write ⟨t, j⟩ w).mem t j' = m.mem t j' := by
  simp [PMap.write, h]

theorem mem_zero_self : (m.zero t).mem t j = 0#32 := by
  simp [PMap.zero]

theorem mem_zero_of_ne (h : q ≠ t) : (m.zero t).mem q = m.mem q :=
  Function.update_of_ne h _ _

end Writes

/-! ## Entries under one write -/

section Entries

variable {M : Machine} {K : Nat → Prop} {m n : PMap} {dirs : Nat → Option Nat}
  {free : List Nat} {held : Nat → Nat} {e i j t d : Nat} {w : Word}

namespace PageInv

/-- A page table is not a page directory. -/
theorem table_ne_dir (h : PageInv M K m dirs free held)
    (ht : entry (pdeWord m dirs e i) = some t) {e' d : Nat} (hd : dirs e' = some d) : d ≠ t := by
  rintro rfl
  rcases h.excl (.dir e') (.pde e i) d hd ht with heq | ⟨hpte, _⟩
  · cases heq
  · exact hpte

/-- Two directory entries that name the same page table are one. -/
theorem table_inj (h : PageInv M K m dirs free held)
    (ht : entry (pdeWord m dirs e i) = some t) {e' i' : Nat}
    (ht' : entry (pdeWord m dirs e' i') = some t) : e' = e ∧ i' = i := by
  rcases h.excl (.pde e' i') (.pde e i) t ht' ht with heq | ⟨hpte, _⟩
  · cases heq
    exact ⟨rfl, rfl⟩
  · exact hpte.elim

theorem dir_inj (h : PageInv M K m dirs free held) (hd : dirs e = some d) {e' : Nat}
    (hd' : dirs e' = some d) : e' = e := by
  rcases h.excl (.dir e') (.dir e) d hd' hd with heq | ⟨hpte, _⟩
  · cases heq
    rfl
  · exact hpte.elim

theorem pdeWord_write_pte (h : PageInv M K m dirs free held)
    (ht : entry (pdeWord m dirs e i) = some t) (e' i' : Nat) :
    pdeWord (m.write ⟨t, j⟩ w) dirs e' i' = pdeWord m dirs e' i' :=
  pdeWord_congr (fun _ _ hd => mem_write_of_page_ne (h.table_ne_dir ht hd)) e' i'

/-- Writing a word of a page table changes that page table entry alone. -/
theorem pteWord_write_pte (h : PageInv M K m dirs free held)
    (ht : entry (pdeWord m dirs e i) = some t) (hj : j < nptentries) (e' i' j' : Nat) :
    pteWord (m.write ⟨t, j⟩ w) dirs e' i' j' =
      if e' = e ∧ i' = i ∧ j' = j then w else pteWord m dirs e' i' j' := by
  unfold pteWord
  rw [h.pdeWord_write_pte ht]
  cases ht' : entry (pdeWord m dirs e' i') with
  | none =>
      rw [if_neg]
      rintro ⟨rfl, rfl, _⟩
      rw [ht] at ht'
      cases ht'
  | some t' =>
      by_cases hsame : t' = t
      · subst hsame
        obtain ⟨rfl, rfl⟩ := h.table_inj ht ht'
        by_cases hjj : j' = j
        · subst hjj
          simp [hj, mem_write_self]
        · simp [hjj, mem_write_of_index_ne hjj]
      · have hne : ¬(e' = e ∧ i' = i ∧ j' = j) := by
          rintro ⟨rfl, rfl, _⟩
          rw [ht] at ht'
          exact hsame (Option.some.inj ht').symm
        simp only [if_neg hne, mem_write_of_page_ne hsame]

theorem target_write_pte (h : PageInv M K m dirs free held)
    (ht : entry (pdeWord m dirs e i) = some t) (hj : j < nptentries) :
    target (m.write ⟨t, j⟩ w) dirs = Function.update (target m dirs) (.pte e i j) (entry w) := by
  funext x
  cases x with
  | dir e' => rfl
  | pde e' i' =>
      rw [Function.update_of_ne (by simp)]
      simp only [target, h.pdeWord_write_pte ht]
  | pte e' i' j' =>
      by_cases hx : e' = e ∧ i' = i ∧ j' = j
      · obtain ⟨rfl, rfl, rfl⟩ := hx
        rw [Function.update_self]
        simp [target, h.pteWord_write_pte ht hj]
      · have hne : Slot.pte e' i' j' ≠ Slot.pte e i j := by simpa using hx
        rw [Function.update_of_ne hne]
        simp [target, h.pteWord_write_pte ht hj, hx]

/-- One reference changes from what it named to `v`.  `v` must be a page nothing
names yet, unless the reference is a page table entry and so is every other
reference to that page; `held` absorbs the references won and lost. -/
theorem retarget (h : PageInv M K m dirs free held) {dirs' : Nat → Option Nat} {x : Slot}
    {v : Option Nat} (hlink : n.ppLink = m.ppLink) (hlist : n.pageFreeList = m.pageFreeList)
    (href : n.ppRef = m.ppRef) (hdirs : ∀ e d, dirs' e = some d → e < nenv)
    (htgt : target n dirs' = Function.update (target m dirs) x v)
    (hnew : ∀ p, v = some p → Pool M K p ∧ p ∉ free ∧
      ∀ y, target m dirs y = some p → x.isPte ∧ y.isPte)
    {held' : Nat → Nat}
    (hheld : ∀ p, refs slots (Function.update (target m dirs) x v) p + held' p =
      refs slots (target m dirs) p + held p)
    (hfree : ∀ p ∈ free, held' p = 0)
    (hkern : n.mem M.kernPgdir = m.mem M.kernPgdir)
    (hpde : ∀ e i, pdeWord n dirs' e i ≠ 0#32 →
      pdeWord n dirs' e i &&& (pteP ||| pteW ||| pteU) = pteP ||| pteW ||| pteU)
    (hpte : ∀ e i j, pteWord n dirs' e i j ≠ 0#32 → pteWord n dirs' e i j &&& pteP = pteP) :
    PageInv M K n dirs' free held' := by
  refine ⟨?_, hdirs, h.free_pool, ?_, hfree, ?_, ?_, ?_, ?_, ?_, hpde, hpte⟩
  · rw [hlink, hlist]
    exact h.chain
  · intro p hp y
    rw [htgt]
    by_cases hy : y = x
    · subst hy
      rw [Function.update_self]
      exact fun hv => (hnew p hv).2.1 hp
    · rw [Function.update_of_ne hy]
      exact h.free_unref p hp y
  · intro y p
    rw [htgt]
    by_cases hy : y = x
    · subst hy
      rw [Function.update_self]
      exact fun hv => (hnew p hv).1
    · rw [Function.update_of_ne hy]
      exact h.target_pool y p
  · intro y z p hyp hzp
    rw [htgt] at hyp hzp
    by_cases hy : y = x <;> by_cases hz : z = x
    · exact .inl (hy.trans hz.symm)
    · rw [hy, Function.update_self] at hyp
      rw [Function.update_of_ne hz] at hzp
      exact .inr (hy ▸ (hnew p hyp).2.2 z hzp)
    · rw [Function.update_of_ne hy] at hyp
      rw [hz, Function.update_self] at hzp
      exact .inr (hz ▸ ((hnew p hzp).2.2 y hyp).symm)
    · rw [Function.update_of_ne hy] at hyp
      rw [Function.update_of_ne hz] at hzp
      exact h.excl y z p hyp hzp
  · intro p hp
    rw [htgt, hheld, href]
    exact h.count p hp
  · rw [hlink]
    exact h.link_none
  · rw [hkern]
    exact h.kern_low

/-- Writing a page table entry.  The page it names, if any, must be one that
only page table entries name, and `held` absorbs the references won and lost. -/
theorem write_pte (h : PageInv M K m dirs free held)
    (ht : entry (pdeWord m dirs e i) = some t) (hj : j < nptentries)
    (hnew : ∀ p, entry w = some p → Pool M K p ∧ Data m dirs free p)
    (hperm : w ≠ 0#32 → w &&& pteP = pteP) {held' : Nat → Nat}
    (hheld : ∀ p, refs slots (Function.update (target m dirs) (.pte e i j) (entry w)) p + held' p =
      refs slots (target m dirs) p + held p)
    (hfree : ∀ p ∈ free, held' p = 0) :
    PageInv M K (m.write ⟨t, j⟩ w) dirs free held' := by
  have htp : Pool M K t := h.target_pool (.pde e i) t ht
  have hkt : M.kernPgdir ≠ t := fun heq => kernPgdir_not_pool (heq ▸ htp)
  refine h.retarget (n := m.write ⟨t, j⟩ w) rfl rfl rfl h.dirs_lt (h.target_write_pte ht hj)
    ?_ hheld hfree (mem_write_of_page_ne hkt) ?_ ?_
  · exact fun p hp => ⟨(hnew p hp).1, (hnew p hp).2.1, fun y hy => ⟨trivial, (hnew p hp).2.2 y hy⟩⟩
  · intro e' i'
    rw [h.pdeWord_write_pte ht]
    exact h.pde_perm e' i'
  · intro e' i' j'
    rw [h.pteWord_write_pte ht hj]
    split
    · exact hperm
    · exact h.pte_perm e' i' j'

/-- Changing the contents of pages that are neither directories nor tables. -/
theorem mem_frame (h : PageInv M K m dirs free held) (hlink : n.ppLink = m.ppLink)
    (hlist : n.pageFreeList = m.pageFreeList) (href : n.ppRef = m.ppRef)
    (hmem : ∀ x q, ¬ x.isPte → target m dirs x = some q → n.mem q = m.mem q)
    (hkern : n.mem M.kernPgdir = m.mem M.kernPgdir) :
    PageInv M K n dirs free held ∧ (∀ e i, pdeWord n dirs e i = pdeWord m dirs e i) ∧
      ∀ e i j, pteWord n dirs e i j = pteWord m dirs e i j := by
  have hdirs : ∀ e d, dirs e = some d → n.mem d = m.mem d := fun e d hd =>
    hmem (.dir e) d (fun hx => hx) hd
  have htables : ∀ e i t, target m dirs (.pde e i) = some t → n.mem t = m.mem t :=
    fun e i t ht => hmem (.pde e i) t (fun hx => hx) ht
  have hpde := pdeWord_congr hdirs
  have hpte := pteWord_congr hdirs htables
  have htgt := target_congr hpde hpte
  refine ⟨?_, hpde, hpte⟩
  refine ⟨?_, h.dirs_lt, h.free_pool, ?_, h.free_unheld, ?_, ?_, ?_, ?_, ?_, ?_, ?_⟩
  · rw [hlink, hlist]
    exact h.chain
  · rw [htgt]
    exact h.free_unref
  · rw [htgt]
    exact h.target_pool
  · rw [htgt]
    exact h.excl
  · rw [htgt, href]
    exact h.count
  · rw [hlink]
    exact h.link_none
  · rw [hkern]
    exact h.kern_low
  · simp only [hpde]
    exact h.pde_perm
  · simp only [hpte]
    exact h.pte_perm

/-! ## Taking a page off the free list -/

/-- `page_alloc` on a list that starts with `p`. -/
theorem pageAlloc_cons {p : Nat} (h : PageInv M K m dirs (p :: free) held) (flags : Nat) :
    ∃ m', pageAlloc m flags = (some p, m') ∧ PageInv M K m' dirs free held ∧
      Pool M K p ∧ p ∉ free ∧ (∀ x, target m' dirs x ≠ some p) ∧
      (∀ e i, pdeWord m' dirs e i = pdeWord m dirs e i) ∧
      (∀ e i j, pteWord m' dirs e i j = pteWord m dirs e i j) ∧
      (∀ q, q ≠ p → m'.mem q = m.mem q) ∧
      (flags &&& allocZero ≠ 0 → ∀ j, m'.mem p j = 0#32) ∧ m'.ppRef = m.ppRef := by
  have hpool : Pool M K p := h.free_pool p List.mem_cons_self
  have hunref : ∀ x, target m dirs x ≠ some p := h.free_unref p List.mem_cons_self
  have hchain := h.chain
  have hhead : m.pageFreeList = some p := hchain.1
  rw [hhead] at hchain
  have hnot : p ∉ free := (List.nodup_cons.mp (LinkChain.nodup hchain)).1
  let m₁ : PMap := { m with
    pageFreeList := m.ppLink p, ppLink := Function.update m.ppLink p none }
  have h₁ : PageInv M K m₁ dirs free held := by
    refine ⟨LinkChain.pop hchain, h.dirs_lt, ?_, ?_, ?_, h.target_pool, h.excl, h.count, ?_,
      h.kern_low, h.pde_perm, h.pte_perm⟩
    · exact fun q hq => h.free_pool q (List.mem_cons_of_mem p hq)
    · exact fun q hq => h.free_unref q (List.mem_cons_of_mem p hq)
    · exact fun q hq => h.free_unheld q (List.mem_cons_of_mem p hq)
    · intro q hq hqf
      by_cases hqp : q = p
      · rw [hqp]
        exact Function.update_self _ _ _
      · exact (Function.update_of_ne hqp _ _).trans (h.link_none q hq (by simp [hqp, hqf]))
  have hzero : ∀ x q, ¬ x.isPte → target m₁ dirs x = some q → (m₁.zero p).mem q = m₁.mem q := by
    intro x q _ hx
    exact mem_zero_of_ne fun e => hunref x (e ▸ hx)
  have hkern : (m₁.zero p).mem M.kernPgdir = m₁.mem M.kernPgdir :=
    mem_zero_of_ne fun e => kernPgdir_not_pool (e ▸ hpool)
  have halloc : pageAlloc m flags =
      (some p, if flags &&& allocZero ≠ 0 then m₁.zero p else m₁) := by
    unfold pageAlloc
    rw [hhead]
  by_cases hz : flags &&& allocZero ≠ 0
  · rw [if_pos hz] at halloc
    obtain ⟨h₂, hpde, hpte⟩ := h₁.mem_frame (n := m₁.zero p) rfl rfl rfl hzero hkern
    refine ⟨_, halloc, h₂, hpool, hnot, ?_, hpde, hpte, ?_, ?_, rfl⟩
    · rw [target_congr hpde hpte]
      exact hunref
    · exact fun q hq => mem_zero_of_ne hq
    · exact fun _ j => mem_zero_self
  · rw [if_neg hz] at halloc
    exact ⟨_, halloc, h₁, hpool, hnot, hunref, fun _ _ => rfl, fun _ _ _ => rfl,
      fun _ _ => rfl, fun hz' => absurd hz' hz, rfl⟩

theorem pageAlloc_nil (h : PageInv M K m dirs [] held) (flags : Nat) :
    pageAlloc m flags = (none, m) := by
  have hhead : m.pageFreeList = none := h.chain
  unfold pageAlloc
  rw [hhead]

/-! ## Reference counts -/

theorem incref (h : PageInv M K m dirs free held) {p : Nat} (hp : p ∉ free)
    (hlt : (m.ppRef p).toNat < 65535) :
    PageInv M K (m.incref p) dirs free fun q => held q + if q = p then 1 else 0 := by
  refine ⟨h.chain, h.dirs_lt, h.free_pool, h.free_unref, ?_, h.target_pool, h.excl, ?_,
    h.link_none, h.kern_low, h.pde_perm, h.pte_perm⟩
  · intro q hq
    have hne : q ≠ p := fun e => hp (e ▸ hq)
    simp [h.free_unheld q hq, hne]
  · intro q hq
    have hc := h.count q hq
    by_cases hqp : q = p
    · subst hqp
      simp only [PMap.incref, PMap.setRef, Function.update_self, if_true]
      rw [BitVec.toNat_add, show (1#16).toNat = 1 from rfl,
        Nat.mod_eq_of_lt (show (m.ppRef q).toNat + 1 < 2 ^ 16 by omega), hc]
      rfl
    · simp only [PMap.incref, PMap.setRef, Function.update_of_ne hqp, if_neg hqp]
      exact hc

/-- `page_decref` of a page whose dropped reference is still counted: it goes
back on the free list exactly when nothing else counts. -/
theorem decref (h : PageInv M K m dirs free held) {p : Nat} (hp : Pool M K p)
    {held' : Nat → Nat} (hheld : ∀ q, held q = held' q + if q = p then 1 else 0) :
    ∃ m' free', pageDecref m p = .ok m' ∧ PageInv M K m' dirs free' held' ∧ m'.mem = m.mem ∧
      (free' = free ∨ free' = p :: free ∧ (∀ x, target m dirs x ≠ some p) ∧ held' p = 0) := by
  have hone : held p = held' p + 1 := by simpa using hheld p
  have hother : ∀ q, q ≠ p → held q = held' q := fun q hq => by simpa [hq] using hheld q
  have hpf : p ∉ free := fun hmem => by
    have := h.free_unheld p hmem
    omega
  have hcount := h.count p hp.2.2
  have hsub : (m.ppRef p - 1#16).toNat = refs slots (target m dirs) p + held' p := by
    rw [BitVec.toNat_sub, show (1#16).toNat = 1 from rfl]
    have := (m.ppRef p).isLt
    omega
  have hfree : ∀ q ∈ free, held' q = 0 := fun q hq => by
    have hne : q ≠ p := fun e => hpf (e ▸ hq)
    rw [← hother q hne]
    exact h.free_unheld q hq
  have hdec : ∀ q, ¬ K q → (Function.update m.ppRef p (m.ppRef p - 1#16) q).toNat =
      refs slots (target m dirs) q + held' q := fun q hq => by
    by_cases hqp : q = p
    · subst hqp
      rw [Function.update_self, hsub]
    · rw [Function.update_of_ne hqp, ← hother q hqp]
      exact h.count q hq
  by_cases hz : m.ppRef p - 1#16 = 0#16
  · have hnone : refs slots (target m dirs) p = 0 ∧ held' p = 0 := by
      have h0 := congrArg BitVec.toNat hz
      rw [hsub, show (0#16).toNat = 0 from rfl] at h0
      omega
    have hunref : ∀ x, target m dirs x ≠ some p := fun x hx =>
      refs_eq_zero_iff.mp hnone.1 x (mem_slots_of_target h.dirs_lt hx) hx
    refine ⟨{ m.setRef p (m.ppRef p - 1#16) with
        ppLink := Function.update m.ppLink p m.pageFreeList, pageFreeList := some p },
      p :: free, ?_, ?_, rfl, .inr ⟨rfl, hunref, hnone.2⟩⟩
    · simp [pageDecref, pageFree, PMap.setRef, hz, h.link_none p hp hpf]
    · refine ⟨LinkChain.push h.chain hpf, h.dirs_lt, ?_, ?_, ?_, h.target_pool, h.excl, hdec, ?_,
        h.kern_low, h.pde_perm, h.pte_perm⟩
      · intro q hq
        rcases List.mem_cons.mp hq with rfl | hq
        · exact hp
        · exact h.free_pool q hq
      · intro q hq
        rcases List.mem_cons.mp hq with rfl | hq
        · exact hunref
        · exact h.free_unref q hq
      · intro q hq
        rcases List.mem_cons.mp hq with rfl | hq
        · exact hnone.2
        · exact hfree q hq
      · intro q hq hqf
        have hqp : q ≠ p := fun e => hqf (e ▸ List.mem_cons_self)
        exact (Function.update_of_ne hqp _ _).trans
          (h.link_none q hq fun hmem => hqf (List.mem_cons_of_mem p hmem))
  · refine ⟨m.setRef p (m.ppRef p - 1#16), free, ?_, ?_, rfl, .inl rfl⟩
    · simp [pageDecref, PMap.setRef, hz]
    · exact ⟨h.chain, h.dirs_lt, h.free_pool, h.free_unref, hfree, h.target_pool, h.excl, hdec,
        h.link_none, h.kern_low, h.pde_perm, h.pte_perm⟩

/-! ## Directory entries -/

/-- Writing a directory entry under which nothing is mapped, before or after. -/
theorem words_write_pde (h : PageInv M K m dirs free held) (hd : dirs e = some d)
    (hi : i < pdxUtop) (hold : ∀ j, pteWord m dirs e i j = 0#32)
    (hnew : ∀ t, entry w = some t → Pool M K t ∧ t ∉ free ∧
      (∀ x, target m dirs x ≠ some t) ∧ ∀ j, m.mem t j = 0#32) :
    (∀ e' i', pdeWord (m.write ⟨d, i⟩ w) dirs e' i' =
      if e' = e ∧ i' = i then w else pdeWord m dirs e' i') ∧
    ∀ e' i' j', pteWord (m.write ⟨d, i⟩ w) dirs e' i' j' = pteWord m dirs e' i' j' := by
  have hpde : ∀ e' i', pdeWord (m.write ⟨d, i⟩ w) dirs e' i' =
      if e' = e ∧ i' = i then w else pdeWord m dirs e' i' := by
    intro e' i'
    unfold pdeWord
    cases hd' : dirs e' with
    | none =>
        rw [if_neg]
        rintro ⟨rfl, _⟩
        rw [hd] at hd'
        cases hd'
    | some d' =>
        by_cases hsame : d' = d
        · subst hsame
          obtain rfl := h.dir_inj hd hd'
          by_cases hii : i' = i
          · subst hii
            simp [hi, mem_write_self]
          · simp [hii, mem_write_of_index_ne hii]
        · have hne : ¬(e' = e ∧ i' = i) := by
            rintro ⟨rfl, _⟩
            rw [hd] at hd'
            exact hsame (Option.some.inj hd').symm
          simp only [if_neg hne, mem_write_of_page_ne hsame]
  refine ⟨hpde, fun e' i' j' => ?_⟩
  by_cases hx : e' = e ∧ i' = i
  · obtain ⟨rfl, rfl⟩ := hx
    rw [hold j']
    unfold pteWord
    rw [hpde e' i', if_pos ⟨rfl, rfl⟩]
    cases ht : entry w with
    | none => rfl
    | some t =>
        obtain ⟨_, _, hunref, hz⟩ := hnew t ht
        have htd : t ≠ d := fun heq => hunref (.dir e') (heq ▸ hd)
        simp only [mem_write_of_page_ne htd, hz, ite_self]
  · unfold pteWord
    rw [hpde e' i', if_neg hx]
    cases ht : entry (pdeWord m dirs e' i') with
    | none => rfl
    | some t => simp only [mem_write_of_page_ne (h.table_ne_dir ht hd).symm]

theorem target_write_pde
    (hpde : ∀ e' i', pdeWord n dirs e' i' = if e' = e ∧ i' = i then w else pdeWord m dirs e' i')
    (hpte : ∀ e' i' j', pteWord n dirs e' i' j' = pteWord m dirs e' i' j') :
    target n dirs = Function.update (target m dirs) (.pde e i) (entry w) := by
  funext x
  cases x with
  | dir e' => rfl
  | pde e' i' =>
      by_cases hx : e' = e ∧ i' = i
      · obtain ⟨rfl, rfl⟩ := hx
        rw [Function.update_self]
        simp [target, hpde]
      · have hne : Slot.pde e' i' ≠ Slot.pde e i := by simpa using hx
        rw [Function.update_of_ne hne]
        simp [target, hpde, hx]
  | pte e' i' j' =>
      rw [Function.update_of_ne (by simp)]
      simp only [target, hpte]

theorem write_pde (h : PageInv M K m dirs free held) (hd : dirs e = some d)
    (hi : i < pdxUtop) (hold : ∀ j, pteWord m dirs e i j = 0#32)
    (hnew : ∀ t, entry w = some t → Pool M K t ∧ t ∉ free ∧
      (∀ x, target m dirs x ≠ some t) ∧ ∀ j, m.mem t j = 0#32)
    (hperm : w ≠ 0#32 → w &&& (pteP ||| pteW ||| pteU) = pteP ||| pteW ||| pteU)
    {held' : Nat → Nat}
    (hheld : ∀ p, refs slots (Function.update (target m dirs) (.pde e i) (entry w)) p + held' p =
      refs slots (target m dirs) p + held p)
    (hfree : ∀ p ∈ free, held' p = 0) :
    PageInv M K (m.write ⟨d, i⟩ w) dirs free held' := by
  obtain ⟨hpde, hpte⟩ := h.words_write_pde hd hi hold hnew
  have hdp : Pool M K d := h.target_pool (.dir e) d hd
  have hkd : M.kernPgdir ≠ d := fun heq => kernPgdir_not_pool (heq ▸ hdp)
  refine h.retarget (n := m.write ⟨d, i⟩ w) rfl rfl rfl h.dirs_lt (target_write_pde hpde hpte)
    ?_ hheld hfree (mem_write_of_page_ne hkd) ?_ ?_
  · intro p hp
    obtain ⟨hpool, hpf, hunref, _⟩ := hnew p hp
    exact ⟨hpool, hpf, fun y hy => absurd hy (hunref y)⟩
  · intro e' i'
    rw [hpde]
    split
    · exact hperm
    · exact h.pde_perm e' i'
  · intro e' i' j'
    rw [hpte]
    exact h.pte_perm e' i' j'

/-! ## Page directories -/

/-- Giving an environment slot a page directory, or taking it away, while
nothing is entered in it. -/
theorem words_set_dir (hold : ∀ i, pdeWord m dirs e i = 0#32) {v : Option Nat}
    (hnew : ∀ d, v = some d → ∀ i, i < pdxUtop → m.mem d i = 0#32) :
    (∀ e' i', pdeWord m (Function.update dirs e v) e' i' = pdeWord m dirs e' i') ∧
    ∀ e' i' j', pteWord m (Function.update dirs e v) e' i' j' = pteWord m dirs e' i' j' := by
  have hpde : ∀ e' i', pdeWord m (Function.update dirs e v) e' i' = pdeWord m dirs e' i' := by
    intro e' i'
    by_cases hx : e' = e
    · subst hx
      rw [hold i']
      unfold pdeWord
      rw [Function.update_self]
      cases hv : v with
      | none => rfl
      | some d =>
          by_cases hi : i' < pdxUtop
          · simp [hi, hnew d hv i' hi]
          · simp [hi]
    · unfold pdeWord
      rw [Function.update_of_ne hx]
  refine ⟨hpde, fun e' i' j' => ?_⟩
  unfold pteWord
  rw [hpde]

theorem set_dir (h : PageInv M K m dirs free held) (he : e < nenv)
    (hold : ∀ i, pdeWord m dirs e i = 0#32) {v : Option Nat}
    (hnew : ∀ d, v = some d → Pool M K d ∧ d ∉ free ∧ (∀ x, target m dirs x ≠ some d) ∧
      ∀ i, i < pdxUtop → m.mem d i = 0#32)
    {held' : Nat → Nat}
    (hheld : ∀ p, refs slots (Function.update (target m dirs) (.dir e) v) p + held' p =
      refs slots (target m dirs) p + held p)
    (hfree : ∀ p ∈ free, held' p = 0) :
    PageInv M K m (Function.update dirs e v) free held' := by
  obtain ⟨hpde, hpte⟩ := words_set_dir hold fun d hv => (hnew d hv).2.2.2
  have htgt : target m (Function.update dirs e v) =
      Function.update (target m dirs) (.dir e) v := by
    funext x
    cases x with
    | dir e' =>
        by_cases hx : e' = e
        · subst hx
          simp [target]
        · have hne : Slot.dir e' ≠ Slot.dir e := by simpa using hx
          simp [target, hne, hx]
    | pde e' i' =>
        rw [Function.update_of_ne (by simp)]
        simp only [target, hpde]
    | pte e' i' j' =>
        rw [Function.update_of_ne (by simp)]
        simp only [target, hpte]
  refine h.retarget (n := m) rfl rfl rfl ?_ htgt ?_ hheld hfree rfl ?_ ?_
  · intro e' d hd
    by_cases hx : e' = e
    · exact hx ▸ he
    · rw [Function.update_of_ne hx] at hd
      exact h.dirs_lt e' d hd
  · intro p hp
    obtain ⟨hpool, hpf, hunref, _⟩ := hnew p hp
    exact ⟨hpool, hpf, fun y hy => absurd hy (hunref y)⟩
  · intro e' i'
    rw [hpde]
    exact h.pde_perm e' i'
  · intro e' i' j'
    rw [hpte]
    exact h.pte_perm e' i' j'

end PageInv

end Entries

end Jos
end Sisop

import Sisop.Jos.Run

/-!
# Mappings and reference counts of a state

What is mapped where, read from the entries as the hardware reads them, and the
number of references to a page by kind.  Under `BaseInv` these are the entries
and the references of the reference graph.
-/

namespace Sisop
namespace Jos

open RefCount

/-- The page environment `e` has at `va`: both entries are present. -/
def mapped (s : KState) (e : Nat) (va : Word) : Option Nat :=
  (s.envs e).envPgdir.bind fun d => translate s.pm d pteP va

/-- The page table environment `e` has at directory index `i`. -/
def tableAt (s : KState) (e i : Nat) : Option Nat :=
  (s.envs e).envPgdir.bind fun d =>
    if s.pm.mem d i &&& pteP = pteP then some (pgnum (s.pm.mem d i)) else none

/-- How many page table entries below `UTOP`, over all environments, map `p`. -/
def mappings (s : KState) (p : Nat) : Nat :=
  refs (Finset.range nenv ×ˢ Finset.range pdxUtop ×ˢ Finset.range nptentries)
    (fun x => mapped s x.1 (pgaddr x.2.1 x.2.2 0)) p

/-- How many directory entries below `UTOP` use `p` as a page table. -/
def tables (s : KState) (p : Nat) : Nat :=
  refs (Finset.range nenv ×ˢ Finset.range pdxUtop) (fun x => tableAt s x.1 x.2) p

/-- Whether `p` is the page directory of an environment. -/
def IsDir (s : KState) (p : Nat) : Prop := ∃ e, e < nenv ∧ (s.envs e).envPgdir = some p

instance (s : KState) (p : Nat) : Decidable (IsDir s p) :=
  inferInstanceAs (Decidable (∃ e, e < nenv ∧ _))

/-- Every reference is counted, and the free list is a finite list without
repetition of pages that nothing references. -/
structure Counted (M : Machine) (K : Nat → Prop) (s : KState) : Prop where
  ppRef : ∀ p, p < M.npages → ¬ K p →
    (s.pm.ppRef p).toNat = mappings s p + tables s p + if IsDir s p then 1 else 0
  freeList : ∃ free, LinkChain.Visits s.pm.ppLink s.pm.pageFreeList free ∧ free.Nodup ∧
    ∀ p ∈ free, s.pm.ppRef p = 0#16 ∧ mappings s p = 0 ∧ tables s p = 0 ∧ ¬ IsDir s p

section

variable {M : Machine} {K : Nat → Prop} {s : KState}

theorem mapped_eq_target {free : List Nat} {held : Nat → Nat}
    (h : PageInv M K s.pm s.dirs free held) {e : Nat} {va : Word} (hi : pdx va < pdxUtop) :
    mapped s e va = target s.pm s.dirs (.pte e (pdx va) (ptx va)) := by
  unfold mapped
  cases hd : (s.envs e).envPgdir with
  | none =>
      have hz : pdeWord s.pm s.dirs e (pdx va) = 0#32 := by
        unfold pdeWord
        rw [show s.dirs e = none from hd]
      simp [target, pteWord_of_no_pde hz, entry_zero]
  | some d =>
      rw [Option.bind_some, h.translate_eq (show s.dirs e = some d from hd) hi (by decide)
        (by decide)]
      simp only [target]
      by_cases hz : pteWord s.pm s.dirs e (pdx va) (ptx va) = 0#32
      · rw [hz, entry_zero]
        exact if_neg (by decide)
      · rw [if_pos (h.pte_perm _ _ _ hz), entry_of_ne hz]

theorem tableAt_eq_target {free : List Nat} {held : Nat → Nat}
    (h : PageInv M K s.pm s.dirs free held) {e i : Nat} (hi : i < pdxUtop) :
    tableAt s e i = target s.pm s.dirs (.pde e i) := by
  unfold tableAt
  cases hd : (s.envs e).envPgdir with
  | none =>
      have hz : pdeWord s.pm s.dirs e i = 0#32 := by
        unfold pdeWord
        rw [show s.dirs e = none from hd]
      simp [target, hz, entry_zero]
  | some d =>
      have hw := pdeWord_of_dir (m := s.pm) (show s.dirs e = some d from hd) hi
      simp only [Option.bind_some, target]
      rw [← hw]
      by_cases hz : pdeWord s.pm s.dirs e i = 0#32
      · rw [hz, entry_zero]
        exact if_neg (by decide)
      · have hperm := h.pde_perm e i hz
        have hpres : pdeWord s.pm s.dirs e i &&& pteP = pteP := by
          rw [show pteP = (pteP ||| pteW ||| pteU) &&& pteP by decide, ← BitVec.and_assoc, hperm]
        rw [if_pos hpres, entry_of_ne hz]

-- The linter reduces the type of every bound variable, and membership in these
-- ranges does not reduce in reasonable time.
set_option linter.constructorNameAsVariable false in
/-- The references of the graph, counted by kind. -/
theorem refs_eq_kinds {free : List Nat} {held : Nat → Nat}
    (h : PageInv M K s.pm s.dirs free held) (p : Nat) :
    refs slots (target s.pm s.dirs) p =
      mappings s p + tables s p + if IsDir s p then 1 else 0 := by
  have hpte : refs (Finset.range nenv ×ˢ Finset.range pdxUtop ×ˢ Finset.range nptentries)
      (fun x => target s.pm s.dirs (.pte x.1 x.2.1 x.2.2)) p = mappings s p := by
    refine refs_congr fun x hx => ?_
    simp only [Finset.mem_product, Finset.mem_range] at hx
    have hi : x.2.1 < 1024 := Nat.lt_trans hx.2.1 (by decide)
    rw [mapped_eq_target h (by rw [pdx_pgaddr hi hx.2.2]; exact hx.2.1), pdx_pgaddr hi hx.2.2,
      ptx_pgaddr hi hx.2.2]
  have hpde : refs (Finset.range nenv ×ˢ Finset.range pdxUtop)
      (fun x => target s.pm s.dirs (.pde x.1 x.2)) p = tables s p := by
    refine refs_congr fun x hx => ?_
    simp only [Finset.mem_product, Finset.mem_range] at hx
    exact (tableAt_eq_target h hx.2).symm
  have hdir : refs (Finset.range nenv) (fun e => target s.pm s.dirs (.dir e)) p =
      if IsDir s p then 1 else 0 := by
    by_cases hp : IsDir s p
    · obtain ⟨e, he, hd⟩ := hp
      rw [if_pos ⟨e, he, hd⟩]
      refine (refs_eq_one_iff_unique (Finset.mem_range.mpr he) hd).mpr fun y _ hy => ?_
      exact h.dir_inj (show s.dirs e = some p from hd) hy
    · rw [if_neg hp]
      refine refs_eq_zero_iff.mpr fun e he hd => hp ⟨e, Finset.mem_range.mp he, hd⟩
  rw [refs_slots, hdir, hpde, hpte]
  omega

theorem counted_of_pageInv {free : List Nat} (h : PageInv M K s.pm s.dirs free fun _ => 0) :
    Counted M K s := by
  refine ⟨fun p _ hK => ?_, free, h.chain, LinkChain.nodup h.chain, fun p hp => ?_⟩
  · rw [h.count_eq hK, refs_eq_kinds h]
  · have hzero : refs slots (target s.pm s.dirs) p = 0 :=
      refs_eq_zero_iff.mpr fun x _ => h.free_unref p hp x
    have hcount := h.count_eq (h.free_pool p hp).2.2
    rw [hzero] at hcount
    rw [refs_eq_kinds h] at hzero
    refine ⟨BitVec.eq_of_toNat_eq hcount, by omega, by omega, fun hd => ?_⟩
    rw [if_pos hd] at hzero
    omega

end

end Jos
end Sisop

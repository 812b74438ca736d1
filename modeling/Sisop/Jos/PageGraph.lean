import Mathlib.Data.Finset.Prod
import Mathlib.Tactic.Common
import Sisop.Lib.LinkChain
import Sisop.Lib.RefCount
import Sisop.Jos.Pmap

/-!
# The reference graph of the user address spaces

What the page tables mean, as a reference graph.  The references are the page
directories of the environments, the directory entries below `UTOP` and the page
table entries under them, and each one names a page or nothing.  `dirs` gives the
page directory of each slot of `envs`.

`PageInv` is the invariant of physical memory.  Its central field is `excl`: two
different references name the same page only when both are page table entries.
A page table is therefore named by one directory entry and by nothing else, so
one write to it changes one reference, and no page table entry names a page
table or a page directory.  `count` relates `pp_ref` to the references.  The
functions of `kern/pmap.c` count a reference before they make it and drop it
after they clear it, and `held` is the count they carry in between.
-/

namespace Sisop
namespace Jos

open RefCount

def nenv : Nat := 1024

/-- A place that can refer to a page. -/
inductive Slot
  | dir (e : Nat)
  | pde (e i : Nat)
  | pte (e i j : Nat)
  deriving DecidableEq

def Slot.isPte : Slot → Prop
  | .dir _ => False
  | .pde _ _ => False
  | .pte _ _ _ => True

/-- Every place, for every environment slot and every index below `UTOP`. -/
def slots : Finset Slot :=
  (Finset.range nenv).image .dir ∪
    ((Finset.range nenv ×ˢ Finset.range pdxUtop).image fun x => .pde x.1 x.2) ∪
    (Finset.range nenv ×ˢ Finset.range pdxUtop ×ˢ Finset.range nptentries).image
      fun x => .pte x.1 x.2.1 x.2.2

theorem dir_mem_slots {e : Nat} : .dir e ∈ slots ↔ e < nenv := by
  simp [slots]

theorem pde_mem_slots {e i : Nat} : .pde e i ∈ slots ↔ e < nenv ∧ i < pdxUtop := by
  simp [slots]

theorem pte_mem_slots {e i j : Nat} :
    .pte e i j ∈ slots ↔ e < nenv ∧ i < pdxUtop ∧ j < nptentries := by
  simp [slots]

theorem refs_kinds (A : Finset Nat) (B : Finset (Nat × Nat)) (C : Finset (Nat × Nat × Nat))
    (t : Slot → Option Nat) (p : Nat) :
    refs (A.image .dir ∪ (B.image fun x => .pde x.1 x.2) ∪
        C.image fun x => .pte x.1 x.2.1 x.2.2) t p =
      refs A (fun e => t (.dir e)) p + refs B (fun x => t (.pde x.1 x.2)) p +
        refs C (fun x => t (.pte x.1 x.2.1 x.2.2)) p := by
  have hdir : Function.Injective Slot.dir := fun a b h => by cases h; rfl
  have hpde : Function.Injective fun x : Nat × Nat => Slot.pde x.1 x.2 := by
    rintro ⟨a, b⟩ ⟨c, d⟩ h
    cases h
    rfl
  have hpte : Function.Injective fun x : Nat × Nat × Nat => Slot.pte x.1 x.2.1 x.2.2 := by
    rintro ⟨a, b, c⟩ ⟨d, e, f⟩ h
    cases h
    rfl
  rw [refs_union, refs_union, refs_image hdir, refs_image hpde, refs_image hpte]
  · rw [Finset.disjoint_left]
    intro x hx hy
    obtain ⟨a, _, rfl⟩ := Finset.mem_image.mp hx
    simp at hy
  · rw [Finset.disjoint_left]
    intro x hx hy
    obtain ⟨a, _, rfl⟩ := Finset.mem_image.mp hy
    simp at hx

/-- The references by their kind. -/
theorem refs_slots (t : Slot → Option Nat) (p : Nat) :
    refs slots t p = refs (Finset.range nenv) (fun e => t (.dir e)) p +
      refs (Finset.range nenv ×ˢ Finset.range pdxUtop) (fun x => t (.pde x.1 x.2)) p +
      refs (Finset.range nenv ×ˢ Finset.range pdxUtop ×ˢ Finset.range nptentries)
        (fun x => t (.pte x.1 x.2.1 x.2.2)) p :=
  refs_kinds _ _ _ t p

attribute [irreducible] slots

/-- The page an entry names.  `pgdir_walk` and `page_lookup` take every non-zero
entry for a present one. -/
def entry (w : Word) : Option Nat := if w = 0#32 then none else some (pgnum w)

theorem entry_zero : entry 0#32 = none := rfl

theorem entry_of_ne {w : Word} (h : w ≠ 0#32) : entry w = some (pgnum w) := if_neg h

theorem entry_eq_none {w : Word} : entry w = none ↔ w = 0#32 := by
  unfold entry
  by_cases h : w = 0#32 <;> simp [h]

theorem entry_eq_some {w : Word} {p : Nat} : entry w = some p ↔ w ≠ 0#32 ∧ pgnum w = p := by
  unfold entry
  by_cases h : w = 0#32 <;> simp [h]

/-- The directory entry of environment `e` at index `i`, zero if it has none. -/
def pdeWord (m : PMap) (dirs : Nat → Option Nat) (e i : Nat) : Word :=
  match dirs e with
  | none => 0#32
  | some d => if i < pdxUtop then m.mem d i else 0#32

/-- The page table entry of environment `e` at indices `i` and `j`, zero if it
has none. -/
def pteWord (m : PMap) (dirs : Nat → Option Nat) (e i j : Nat) : Word :=
  match entry (pdeWord m dirs e i) with
  | none => 0#32
  | some t => if j < nptentries then m.mem t j else 0#32

/-- The page a place refers to. -/
def target (m : PMap) (dirs : Nat → Option Nat) : Slot → Option Nat
  | .dir e => dirs e
  | .pde e i => entry (pdeWord m dirs e i)
  | .pte e i j => entry (pteWord m dirs e i j)

section Words

variable {m m' : PMap} {dirs : Nat → Option Nat} {e i j d t : Nat}

theorem pdeWord_of_dir (hd : dirs e = some d) (hi : i < pdxUtop) :
    pdeWord m dirs e i = m.mem d i := by
  rw [pdeWord, hd]
  exact if_pos hi

theorem pteWord_of_pde (ht : entry (pdeWord m dirs e i) = some t) (hj : j < nptentries) :
    pteWord m dirs e i j = m.mem t j := by
  rw [pteWord, ht]
  exact if_pos hj

theorem pteWord_of_no_pde (h : pdeWord m dirs e i = 0#32) : pteWord m dirs e i j = 0#32 := by
  rw [pteWord, h]
  rfl

theorem pdeWord_ne_zero (h : pdeWord m dirs e i ≠ 0#32) :
    ∃ d, dirs e = some d ∧ i < pdxUtop ∧ pdeWord m dirs e i = m.mem d i := by
  unfold pdeWord at h ⊢
  cases hd : dirs e with
  | none => simp [hd] at h
  | some d =>
      by_cases hi : i < pdxUtop
      · exact ⟨d, rfl, hi, if_pos hi⟩
      · simp [hd, hi] at h

theorem pteWord_ne_zero (h : pteWord m dirs e i j ≠ 0#32) :
    ∃ t, entry (pdeWord m dirs e i) = some t ∧ j < nptentries ∧
      pteWord m dirs e i j = m.mem t j := by
  unfold pteWord at h ⊢
  cases ht : entry (pdeWord m dirs e i) with
  | none => simp [ht] at h
  | some t =>
      by_cases hj : j < nptentries
      · exact ⟨t, rfl, hj, if_pos hj⟩
      · simp [ht, hj] at h

/-- A place that refers to a page is one of `slots`. -/
theorem mem_slots_of_target (hlt : ∀ e d, dirs e = some d → e < nenv) {x : Slot} {p : Nat}
    (h : target m dirs x = some p) : x ∈ slots := by
  cases x with
  | dir e => exact dir_mem_slots.mpr (hlt e p h)
  | pde e i =>
      obtain ⟨d, hd, hi, _⟩ := pdeWord_ne_zero (entry_eq_some.mp h).1
      exact pde_mem_slots.mpr ⟨hlt e d hd, hi⟩
  | pte e i j =>
      obtain ⟨t, ht, hj, _⟩ := pteWord_ne_zero (entry_eq_some.mp h).1
      obtain ⟨d, hd, hi, _⟩ := pdeWord_ne_zero (entry_eq_some.mp ht).1
      exact pte_mem_slots.mpr ⟨hlt e d hd, hi, hj⟩

/-- Entries depend on the pages in use as directories and tables alone. -/
theorem pdeWord_congr (h : ∀ e d, dirs e = some d → m'.mem d = m.mem d) (e i : Nat) :
    pdeWord m' dirs e i = pdeWord m dirs e i := by
  unfold pdeWord
  cases hd : dirs e with
  | none => rfl
  | some d => simp only [h e d hd]

theorem pteWord_congr (hd : ∀ e d, dirs e = some d → m'.mem d = m.mem d)
    (ht : ∀ e i t, target m dirs (.pde e i) = some t → m'.mem t = m.mem t) (e i j : Nat) :
    pteWord m' dirs e i j = pteWord m dirs e i j := by
  unfold pteWord
  rw [pdeWord_congr hd]
  cases hp : entry (pdeWord m dirs e i) with
  | none => rfl
  | some t => simp only [ht e i t hp]

theorem target_congr (hd : ∀ e i, pdeWord m' dirs e i = pdeWord m dirs e i)
    (ht : ∀ e i j, pteWord m' dirs e i j = pteWord m dirs e i j) :
    target m' dirs = target m dirs := by
  funext x
  cases x with
  | dir e => rfl
  | pde e i => simp only [target, hd]
  | pte e i j => simp only [target, ht]

end Words

/-- The pages the allocator hands out: those `page_init` put on the free list,
apart from the ones the kernel took for its own page tables while booting. -/
def Pool (M : Machine) (K : Nat → Prop) (p : Nat) : Prop := p < M.npages ∧ ¬ kept M p ∧ ¬ K p

/-- The invariant of physical memory.  `free` is the free list and `held p` the
references to `p` that are counted and not yet made, or cleared and not yet
dropped. -/
structure PageInv (M : Machine) (K : Nat → Prop) (m : PMap) (dirs : Nat → Option Nat)
    (free : List Nat) (held : Nat → Nat) : Prop where
  chain : LinkChain.Visits m.ppLink m.pageFreeList free
  dirs_lt : ∀ e d, dirs e = some d → e < nenv
  free_pool : ∀ p ∈ free, Pool M K p
  free_unref : ∀ p ∈ free, ∀ x, target m dirs x ≠ some p
  free_unheld : ∀ p ∈ free, held p = 0
  target_pool : ∀ x p, target m dirs x = some p → Pool M K p
  excl : ∀ x y p, target m dirs x = some p → target m dirs y = some p →
    x = y ∨ (x.isPte ∧ y.isPte)
  count : ∀ p, ¬ K p → (m.ppRef p).toNat = refs slots (target m dirs) p + held p
  link_none : ∀ p, Pool M K p → p ∉ free → m.ppLink p = none
  kern_low : ∀ i, i < pdxUtop → m.mem M.kernPgdir i = 0#32
  pde_perm : ∀ e i, pdeWord m dirs e i ≠ 0#32 →
    pdeWord m dirs e i &&& (pteP ||| pteW ||| pteU) = pteP ||| pteW ||| pteU
  pte_perm : ∀ e i j, pteWord m dirs e i j ≠ 0#32 → pteWord m dirs e i j &&& pteP = pteP

/-- Between operations `pp_ref` is the number of references. -/
theorem PageInv.count_eq {M : Machine} {K : Nat → Prop} {m : PMap} {dirs : Nat → Option Nat}
    {free : List Nat} (h : PageInv M K m dirs free fun _ => 0) {p : Nat} (hp : ¬ K p) :
    (m.ppRef p).toNat = refs slots (target m dirs) p :=
  (h.count p hp).trans (Nat.add_zero _)

/-- A page in use for data: off the free list and named, if at all, by page table
entries alone. -/
def Data (m : PMap) (dirs : Nat → Option Nat) (free : List Nat) (q : Nat) : Prop :=
  q ∉ free ∧ ∀ x, target m dirs x = some q → x.isPte

theorem kernPgdir_not_pool {M : Machine} {K : Nat → Prop} : ¬ Pool M K M.kernPgdir := by
  intro h
  exact h.2.1 (.inr (.inr (.inr ⟨M.le_kernPgdir, M.kernPgdir_lt⟩)))

theorem Pool.lt {M : Machine} {K : Nat → Prop} {p : Nat} (h : Pool M K p) : p < 2 ^ 20 :=
  Nat.lt_of_lt_of_le h.1 (Nat.le_trans M.npages_le (by decide))

end Jos
end Sisop

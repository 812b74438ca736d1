import Sisop.Jos.Mapping
import Sisop.Jos.Solo

/-!
# What user page tables map

User environments reach memory through the page table entries below `UTOP`.
`Isolated` says that every one of them maps a page the allocator handed out for
data.

`sys_page_map` passes its permission argument on without `check_perm`, and
`page_insert` disjoins it with the frame, so address bits of the argument change
the page mapped.  Isolation holds in the runs where those bits are already bits
of the frame.
-/

namespace Sisop
namespace Jos

open TransitionSystem Exit

/-- A page that `page_alloc` handed out and that is in use for data. -/
structure DataPage (M : Machine) (K : Nat → Prop) (s : KState) (q : Nat) : Prop where
  allocated : ∀ free, LinkChain.Visits s.pm.ppLink s.pm.pageFreeList free → q ∉ free
  memory : q < M.npages
  not_kept : ¬ kept M q
  not_boot : ¬ K q
  not_dir : ∀ e, (s.envs e).envPgdir ≠ some q
  not_table : ∀ e i, i < pdxUtop → tableAt s e i ≠ some q

def Isolated (M : Machine) (K : Nat → Prop) (s : KState) : Prop :=
  ∀ e va q, va < utop → mapped s e va = some q → DataPage M K s q

section

variable {M : Machine} {K : Nat → Prop} {s : KState}

theorem PageInv.dataPage {free : List Nat} {q : Nat} (hp : PageInv M K s.pm s.dirs free fun _ => 0)
    (hpool : Pool M K q) (hdata : Data s.pm s.dirs free q) : DataPage M K s q := by
  obtain ⟨hfree, hptes⟩ := hdata
  refine ⟨fun free' hvis => ?_, hpool.1, hpool.2.1, hpool.2.2, fun e he => hptes (.dir e) he, ?_⟩
  · rw [LinkChain.unique hvis hp.chain]
    exact hfree
  · intro e i hi ht
    rw [tableAt_eq_target hp hi] at ht
    exact hptes (.pde e i) ht

theorem BaseInv.isolated (h : BaseInv M K s) : Isolated M K s := by
  intro e va q hva hmap
  obtain ⟨free, hp⟩ := h.pages
  rw [mapped_eq_target hp ((pdx_lt_pdxUtop_iff va).mpr hva)] at hmap
  exact hp.dataPage (hp.target_pool _ q hmap) (hp.data_of_pte hmap)

end

/-- User page tables map data pages alone, in every run in which the pages
mapped fit and no environment is freed while another CPU runs it. -/
theorem isolated_of_reach {M : Machine} {K : Nat → Prop} {s : KState}
    (h : (kernel M K).Reach (fun s ev => Fits s ev ∧ FreesOwn M s ev) s) : Isolated M K s :=
  (base_reach h).isolated

/-- An environment maps its stack page in its child as well. -/
def sharedStack : List Event :=
  [.create emptyImage, .start 0, call 0 7#32 0#32 0#32 0#32 0#32 0#32,
    call 0 5#32 0#32 0xeebfd000#32 0x1001#32 0x1000#32 2#32]

/-- The page is shared, and then the child is destroyed. -/
theorem isolated_shared : ∃ s s', mapped s 0 0xeebfd000#32 = some 0x7FFE ∧
    mapped s 1 0x1000#32 = some 0x7FFE ∧ Isolated (pc .roundRobin) lowPages s ∧
    runCarefully (pc .roundRobin) [call 0 3#32 0x1001#32 0#32 0#32 0#32 0#32] s = some s' ∧
    mapped s' 0 0xeebfd000#32 = some 0x7FFE ∧ (s'.envs 1).envPgdir = none ∧
    Isolated (pc .roundRobin) lowPages s' := by
  have hrun : (runCarefully (pc .roundRobin) sharedStack pcBoot).any (fun s =>
      mapped s 0 0xeebfd000#32 = some 0x7FFE ∧ mapped s 1 0x1000#32 = some 0x7FFE ∧
        (runCarefully (pc .roundRobin) [call 0 3#32 0x1001#32 0#32 0#32 0#32 0#32] s).any (fun s =>
          mapped s 0 0xeebfd000#32 = some 0x7FFE ∧ (s.envs 1).envPgdir = none) = true) = true := by
    decide +kernel
  have hguard : ∀ s ev, SoloInv s → careful (pc .roundRobin) s ev = true → Fits s ev →
      HandsOff (pc .roundRobin) s ev → Fits s ev ∧ FreesOwn (pc .roundRobin) s ev :=
    fun _ _ hs _ hfits hoff => ⟨hfits, hs.freesOwn hoff⟩
  obtain ⟨s, hreach, hb, hs, hp⟩ := exists_careful _ hguard (pcBoot_booted .roundRobin) hrun
  rw [decide_eq_true_eq, Option.any_eq_true] at hp
  obtain ⟨hstack, hshared, s', hdestroy, hp'⟩ := hp
  rw [decide_eq_true_eq] at hp'
  have hreach' := (reach_carefully hguard hreach hb hs hdestroy).1
  exact ⟨s, s', hstack, hshared, isolated_of_reach hreach, hdestroy, hp'.1, hp'.2,
    isolated_of_reach hreach'⟩

/-- A permission argument of `0x7fff002` maps the caller's own page directory
into its address space, writable. -/
theorem map_pgdir : ¬ ∀ s, (kernel (pc .roundRobin) lowPages).Reach anyEvent s →
    Isolated (pc .roundRobin) lowPages s := by
  intro hall
  have hrun : (run (pc .roundRobin) [.create emptyImage, .start 0,
      call 0 5#32 0#32 0xeebfd000#32 0#32 0x1000#32 0x7fff002#32] pcBoot).any (fun s =>
        mapped s 0 0x1000#32 = some 0x7FFF ∧ (s.envs 0).envPgdir = some 0x7FFF) = true := by
    decide
  obtain ⟨s, hreach, hmaps⟩ := reach_of_any (pcBoot_booted .roundRobin) hrun
  rw [decide_eq_true_eq] at hmaps
  exact (hall s hreach 0 0x1000#32 0x7FFF (by decide) hmaps.1).not_dir 0 hmaps.2

end Jos
end Sisop

import Sisop.Jos.BootMap
import Sisop.Jos.Boot

/-!
# Static mappings with large pages

The build with `TP1_PSE` maps a large page by one directory entry, whatever was in it.  An
empty page table there is lost, and with it what its entry did not allow.  Where the tables of
the range allow all, both builds translate every address alike.
-/

namespace Sisop
namespace Jos

open Window

section

variable {M : Machine} {m : PMap} {dir : Nat} {free : List Nat} {va pa perm size : Word}

theorem lpgOff_eq_zero_iff (la : Word) : lpgOff la = 0#32 ↔ la.toNat % 4194304 = 0 := by
  have hand : (lpgOff la).toNat = la.toNat % 4194304 := by
    unfold lpgOff
    rw [BitVec.toNat_and]
    exact Nat.and_two_pow_sub_one_eq_mod la.toNat 22
  rw [← hand, ← BitVec.toNat_inj]
  rfl

/-- The addresses of an aligned large page are those of its directory entry. -/
theorem mem_large_iff (hva : lpgOff va = 0#32) (x : Word) : Mem va lpgsize x ↔ pdx x = pdx va := by
  have hx := x.isLt
  have hlt := va.isLt
  have hoff := (lpgOff_eq_zero_iff va).mp hva
  unfold Mem
  rw [BitVec.toNat_sub, pdx_eq, pdx_eq, lpgsize]
  omega

/-- The entry of a large page maps it. -/
theorem regionLeaf_large (hva : lpgOff va = 0#32) (hpa : lpgOff pa = 0#32) (hperm : perm.toNat < 32)
    {x : Word} (hx : Mem va lpgsize x) :
    some (Leaf.of (pdx (pa ||| perm ||| pteP ||| ptePs) * lpgsize + x.toNat % lpgsize)
      (pa ||| perm ||| pteP ||| ptePs) (pa ||| perm ||| pteP ||| ptePs)) =
      regionLeaf pa perm (x - va) := by
  have hva' := (lpgOff_eq_zero_iff va).mp hva
  have hpa' := (lpgOff_eq_zero_iff pa).mp hpa
  have hpdx : pdx (pa ||| perm ||| pteP ||| ptePs) = pdx pa := by
    have hpg : pgnum (pa ||| perm ||| pteP ||| ptePs) = pgnum pa := by
      rw [pgnum_or, pgnum_or, pgnum_or, pgnum_eq_zero (show perm.toNat < 4096 by omega), pgnum_pteP,
        show pgnum ptePs = 0 by decide, Nat.or_zero, Nat.or_zero, Nat.or_zero]
    rw [pgnum_eq, pgnum_eq] at hpg
    rw [pdx_eq, pdx_eq]
    omega
  have haddr : pdx pa * lpgsize + x.toNat % lpgsize = (pa + (x - va)).toNat := by
    have hlt := x.isLt
    have hvlt := va.isLt
    have hplt := pa.isLt
    unfold Mem at hx
    rw [BitVec.toNat_add, pdx_eq]
    rw [BitVec.toNat_sub] at hx ⊢
    rw [lpgsize] at *
    omega
  have hleaf := leaf_entry (show pa.toNat % 4096 = 0 by omega)
    (pa + (x - va)).toNat (BitVec.allOnes 32) perm ptePs (.inr rfl)
  rw [BitVec.allOnes_and, BitVec.allOnes_and] at hleaf
  rw [hpdx, haddr, hleaf]
  rfl

/-- What mapping a range with large pages leaves.  Outside of it no directory entry
changes. -/
structure LargeMapped (M : Machine) (m m' : PMap) (dir : Nat) (free : List Nat) (va pa perm : Word)
    (size : Nat) : Prop where
  wf : WellFormed M m' dir free
  self : ∀ i, IsSelf dir (m'.mem dir i) ↔ IsSelf dir (m.mem dir i)
  walk : ∀ x, ¬ IsSelf dir (m.mem dir (pdx x)) →
    walk m' dir x = paint (walk m dir) va size (regionLeaf pa perm) x
  outside : ∀ x, ¬ Mem va size x → m'.mem dir (pdx x) = m.mem dir (pdx x)

/-- A turn of the loop over large pages. -/
theorem WellFormed.large_step (h : WellFormed M m dir free) (hva : lpgOff va = 0#32)
    (hpa : lpgOff pa = 0#32) (hperm : perm.toNat < 32)
    (hself : ¬ IsSelf dir (m.mem dir (pdx va))) :
    LargeMapped M m (m.write ⟨dir, pdx va⟩ (pa ||| perm ||| pteP ||| ptePs)) dir free va pa perm
      lpgsize := by
  have hp : (pa ||| perm ||| pteP ||| ptePs) &&& pteP ≠ 0#32 := by
    rw [BitVec.or_assoc, BitVec.or_comm pteP, ← BitVec.or_assoc, or_pteP_and]
    decide
  have hps : (pa ||| perm ||| pteP ||| ptePs) &&& ptePs ≠ 0#32 := by
    rw [BitVec.and_or_distrib_right, BitVec.and_self]
    intro hz
    exact absurd (BitVec.or_eq_zero_iff.mp hz).2 (by decide)
  have hat : (m.write ⟨dir, pdx va⟩ (pa ||| perm ||| pteP ||| ptePs)).mem dir (pdx va) =
      pa ||| perm ||| pteP ||| ptePs := mem_write_self
  have hother (i : Nat) (hi : i ≠ pdx va) :
      (m.write ⟨dir, pdx va⟩ (pa ||| perm ||| pteP ||| ptePs)).mem dir i = m.mem dir i :=
    mem_write_of_index_ne hi
  have hpage (p : Nat) (hpd : p ≠ dir) :
      (m.write ⟨dir, pdx va⟩ (pa ||| perm ||| pteP ||| ptePs)).mem p = m.mem p :=
    mem_write_of_page_ne hpd
  have htable (i : Nat)
      (hti : IsTable M dir ((m.write ⟨dir, pdx va⟩ (pa ||| perm ||| pteP ||| ptePs)).mem dir i)) :
      i ≠ pdx va ∧ IsTable M dir (m.mem dir i) := by
    by_cases hi : i = pdx va
    · rw [hi, hat] at hti
      exact absurd hti.2.1 hps
    · exact ⟨hi, hother i hi ▸ hti⟩
  have hself' (i : Nat) : IsSelf dir
      ((m.write ⟨dir, pdx va⟩ (pa ||| perm ||| pteP ||| ptePs)).mem dir i) ↔
        IsSelf dir (m.mem dir i) := by
    by_cases hi : i = pdx va
    · rw [hi, hat]
      exact ⟨fun hs => absurd hs.2.1 hps, fun hs => absurd hs hself⟩
    · rw [hother i hi]
  constructor
  · refine ⟨h.chain, h.free_lt, h.dir_used, fun i hi => ?_, fun i hi hti => ?_,
      fun i j hi hj hti htj heq => ?_, fun i j hi hj hti => ?_⟩
    · by_cases hix : i = pdx va
      · rw [hix, hat]
        exact .inr (.inr (.inl ⟨hp, hps⟩))
      · rw [hother i hix]
        exact h.entries i hi
    · obtain ⟨hix, hold⟩ := htable i hti
      rw [hother i hix]
      exact h.used i hi hold
    · obtain ⟨hix, hold⟩ := htable i hti
      obtain ⟨hjx, hold'⟩ := htable j htj
      rw [hother i hix, hother j hjx] at heq
      exact h.distinct i j hi hj hold hold' heq
    · obtain ⟨hix, hold⟩ := htable i hti
      rw [hother i hix, hpage _ hold.2.2.2]
      exact h.present i j hi hj hold
  · exact hself'
  · intro x hx
    unfold paint
    by_cases hpx : Mem va lpgsize x
    · have hslot := (mem_large_iff hva x).mp hpx
      rw [if_pos hpx]
      unfold Jos.walk
      dsimp only
      rw [hslot, hat, if_neg hp, if_pos hps, regionLeaf_large hva hpa hperm hpx]
    · have hslot : pdx x ≠ pdx va := fun heq => hpx ((mem_large_iff hva x).mpr heq)
      rw [if_neg hpx]
      exact h.walk_congr hx (hother _ hslot) fun htx => congrFun (hpage _ htx.2.2.2) _
  · intro x hpx
    exact hother _ fun heq => hpx ((mem_large_iff hva x).mpr heq)

theorem regionLeaf_add (pa perm : Word) (n : Nat) (off : Word) :
    regionLeaf (pa + BitVec.ofNat 32 n) perm off =
      regionLeaf pa perm (BitVec.ofNat 32 n + off) := by
  unfold regionLeaf
  rw [BitVec.add_assoc]

/-- A loop that stops at once maps nothing. -/
theorem LargeMapped.nil (h : WellFormed M m dir free) :
    LargeMapped M m m dir free va pa perm 0 := by
  refine ⟨h, fun _ => .rfl, fun x _ => ?_, fun _ _ => rfl⟩
  rw [paint_zero]

/-- By induction on the turns: the loop stops `c` bytes into the range, with these mapped. -/
theorem bootMapLarge_spec (pa : Word) (hperm : perm.toNat < 32) (n : Nat)
    (h : WellFormed M m dir free) (hsize : size.toNat % 4096 = 0)
    (hself : ∀ x, Mem va size.toNat x → ¬ IsSelf dir (m.mem dir (pdx x))) :
    ∃ m' c, bootMapLarge dir perm n m va size pa =
        (m', va + BitVec.ofNat 32 c, size - BitVec.ofNat 32 c, pa + BitVec.ofNat 32 c) ∧
      c ≤ size.toNat ∧ c % 4096 = 0 ∧ LargeMapped M m m' dir free va pa perm c := by
  have hsame (m : PMap) (va size pa : Word) : (m, va, size, pa) =
      (m, va + BitVec.ofNat 32 0, size - BitVec.ofNat 32 0, pa + BitVec.ofNat 32 0) := by
    rw [BitVec.add_zero, BitVec.sub_zero, BitVec.add_zero]
  induction n generalizing m va size pa with
  | zero => exact ⟨m, 0, hsame m va size pa, Nat.zero_le _, rfl, .nil h⟩
  | succ n ih =>
      by_cases hturn : lpgOff va = 0#32 ∧ BitVec.ofNat 32 lpgsize ≤ size ∧ lpgOff pa = 0#32
      swap
      · exact ⟨m, 0, (if_neg hturn).trans (hsame m va size pa), Nat.zero_le _, rfl, .nil h⟩
      obtain ⟨hva, hle, hpa⟩ := hturn
      have hlpg : (BitVec.ofNat 32 lpgsize).toNat = 4194304 := rfl
      have hlarge : 4194304 ≤ size.toNat := hle
      have hleft : (size - BitVec.ofNat 32 lpgsize).toNat = size.toNat - 4194304 := by
        rw [BitVec.toNat_sub_of_le hle, hlpg]
      have hlt := size.isLt
      have hrest : lpgsize + (size - BitVec.ofNat 32 lpgsize).toNat = size.toNat := by
        rw [hleft, lpgsize]
        omega
      have hmem (x : Word) (hx : Mem va lpgsize x) : Mem va size.toNat x := hx.mono hlarge
      have hfirst : Mem va lpgsize va := by
        unfold Mem
        rw [BitVec.sub_self]
        decide
      have h₁ := h.large_step hva hpa hperm (hself va (hmem va hfirst))
      have hself₁ (x : Word) (hx : Mem (va + BitVec.ofNat 32 lpgsize)
          (size - BitVec.ofNat 32 lpgsize).toNat x) :
          ¬ IsSelf dir
            ((m.write ⟨dir, pdx va⟩ (pa ||| perm ||| pteP ||| ptePs)).mem dir (pdx x)) := by
        rw [mem_add_iff (by rw [hrest]; omega) (by decide), hrest] at hx
        exact fun hs => hself x hx.1 ((h₁.self _).mp hs)
      obtain ⟨m', c, hrun, hc, hmod, h'⟩ := ih (pa + BitVec.ofNat 32 lpgsize) h₁.wf
        (by rw [hleft]; omega) hself₁
      have hsum : lpgsize + c ≤ 2 ^ 32 := by rw [lpgsize]; omega
      have hadd (v : Word) : v + BitVec.ofNat 32 lpgsize + BitVec.ofNat 32 c =
          v + BitVec.ofNat 32 (lpgsize + c) := by
        rw [BitVec.ofNat_add, BitVec.add_assoc]
      refine ⟨m', lpgsize + c, ?_, by rw [lpgsize]; omega, by rw [lpgsize]; omega, ?_⟩
      · rw [← hadd, ← hadd, BitVec.ofNat_add, ← BitVec.sub_sub, ← hrun]
        exact if_pos ⟨hva, hle, hpa⟩
      · constructor
        · exact h'.wf
        · exact fun i => (h'.self i).trans (h₁.self i)
        · intro x hx
          have hx₁ := fun hs => hx ((h₁.self (pdx x)).mp hs)
          rw [h'.walk x hx₁, funext (regionLeaf_add pa perm lpgsize), paint_congr (h₁.walk x hx),
            paint_paint _ _ hsum (by decide)]
        · intro x hx
          have hx₁ : ¬ Mem va lpgsize x := fun hin => hx (hin.mono (Nat.le_add_right _ _))
          have hx₂ : ¬ Mem (va + BitVec.ofNat 32 lpgsize) c x := fun hin =>
            hx ((mem_add_iff hsum (by decide)).mp hin).1
          exact (h'.outside x hx₂).trans (h₁.outside x hx₁)

/-! ## Both builds -/

theorem mem_pageAt {n x : Nat} (hx : x < n) (hn : n * pgsize ≤ 2 ^ 32) :
    Mem va (n * pgsize) (pageAt va x) := by
  have hlt : x * pgsize < n * pgsize := Nat.mul_lt_mul_of_pos_right hx (by decide)
  unfold Mem pageAt
  rw [BitVec.add_comm, BitVec.add_sub_cancel, BitVec.toNat_ofNat, Nat.mod_eq_of_lt (by omega)]
  exact hlt

/-- Behind the large pages the range lacks no more page tables than before. -/
theorem missing_rest {m' : PMap} {c n k : Nat} (hc : c = k * pgsize)
    (hkn : (k + n) * pgsize ≤ 2 ^ 32) (hk : c < 2 ^ 32)
    (hout : ∀ x, ¬ Mem va c x → m'.mem dir (pdx x) = m.mem dir (pdx x)) :
    missing m' dir (va + BitVec.ofNat 32 c) 0 n ≤ missing m dir va 0 (k + n) := by
  refine Finset.card_le_card fun i hi => ?_
  obtain ⟨hlt, hz, x, hx, hpdx⟩ := Finset.mem_filter.mp hi |>.imp id id
  have hsum : c + n * pgsize ≤ 2 ^ 32 := by rw [hc, ← Nat.add_mul]; exact hkn
  have hin : Mem (va + BitVec.ofNat 32 c) (n * pgsize) (pageAt (va + BitVec.ofNat 32 c) x) :=
    mem_pageAt hx (by omega)
  have hnot := ((mem_add_iff hsum hk).mp hin).2
  have hpage : pageAt va (0 + (k + x)) = pageAt (va + BitVec.ofNat 32 c) x := by
    rw [Nat.zero_add, pageAt_add, hc]
    rfl
  rw [Nat.zero_add] at hpdx
  refine Finset.mem_filter.mpr ⟨hlt, ?_, k + x, by omega, by rw [hpage]; exact hpdx⟩
  rw [← hz, ← hpdx, hout _ hnot]

/-- Tables that allow all leave the permissions to their entries. -/
theorem paint_tableLeaf {a : Nat → Word} {n : Nat}
    (ha : ∀ x, Mem va n x → a (pdx x) = tablePerm) (f : Word → Option Leaf) :
    paint f va n (tableLeaf a va pa perm) = paint f va n (regionLeaf pa perm) := by
  refine paint_congr_window (fun x hx => ?_) f
  have hback : va + (x - va) = x := by rw [BitVec.add_comm, BitVec.sub_add_cancel]
  unfold tableLeaf regionLeaf
  rw [hback, ha x hx, leaf_tablePerm]

/-- The build without large pages. -/
theorem bootMapRegion_pages (va size pa perm : Word) (h : WellFormed M m dir free)
    (hva : va.toNat % pgsize = 0) (hpa : pa.toNat % pgsize = 0) (hsize : size.toNat % pgsize = 0)
    (hperm : perm.toNat < 32) (hvacant : ∀ x, Mem va size.toNat x → Vacant m dir x)
    (hroom : missing m dir va 0 (size.toNat / pgsize) ≤ free.length) :
    ∃ m' free', bootMapRegion M false m dir va size pa perm = .ok m' ∧
      PagesMapped M m m' dir free free' va pa perm size.toNat ∧
      free.length ≤ free'.length + missing m dir va 0 (size.toNat / pgsize) := by
  have hlt := size.isLt
  have hcount : size.toNat / pgsize * pgsize = size.toNat :=
    Nat.div_mul_cancel (Nat.dvd_of_mod_eq_zero hsize)
  have hzero (v : Word) : pageAt v 0 = v := BitVec.add_zero v
  obtain ⟨m', free', hrun, h', hlen⟩ := bootMapPages_spec hva hpa hperm (size.toNat / pgsize) 0
    (by rw [pgsize] at *; omega) h (by rw [hzero, hcount]; exact hvacant) hroom
  rw [hzero, hzero, hcount] at h'
  exact ⟨m', free', hrun, h', hlen⟩

/-- The build with large pages, where the tables of the range allow all. -/
theorem bootMapRegion_large (h : WellFormed M m dir free) (hva : va.toNat % pgsize = 0)
    (hpa : pa.toNat % pgsize = 0) (hsize : size.toNat % pgsize = 0) (hperm : perm.toNat < 32)
    (hvacant : ∀ x, Mem va size.toNat x → Vacant m dir x)
    (hallow : ∀ x, Mem va size.toNat x → allow m dir (pdx x) = tablePerm)
    (hroom : missing m dir va 0 (size.toNat / pgsize) ≤ free.length) :
    ∃ m', bootMapRegion M true m dir va size pa perm = .ok m' ∧
      ∀ x, ¬ IsSelf dir (m.mem dir (pdx x)) →
        walk m' dir x = paint (walk m dir) va size.toNat (regionLeaf pa perm) x := by
  have hlt := size.isLt
  obtain ⟨m₁, c, hlarge, hc, hmod, h₁⟩ := bootMapLarge_spec pa hperm 1024 h hsize
    fun x hx => (hvacant x hx).2
  have hcw : (BitVec.ofNat 32 c).toNat = c := by
    rw [BitVec.toNat_ofNat, Nat.mod_eq_of_lt (by omega)]
  have hrest : (size - BitVec.ofNat 32 c).toNat = size.toNat - c := by
    rw [BitVec.toNat_sub_of_le (by rw [BitVec.le_def, hcw]; exact hc), hcw]
  have hsum : c + (size.toNat - c) = size.toNat := Nat.add_sub_of_le hc
  have hbehind (x : Word) (hx : Mem (va + BitVec.ofNat 32 c) (size.toNat - c) x) :
      Mem va size.toNat x ∧ ¬ Mem va c x := by
    rw [mem_add_iff (by omega) (by omega), hsum] at hx
    exact hx
  have hvacant₁ (x : Word) (hx : Mem (va + BitVec.ofNat 32 c) (size.toNat - c) x) :
      Vacant m₁ dir x := by
    obtain ⟨hin, hnot⟩ := hbehind x hx
    obtain ⟨hnone, hself⟩ := hvacant x hin
    refine ⟨?_, fun hs => hself ((h₁.self _).mp hs)⟩
    rw [h₁.walk x hself, paint, if_neg hnot, hnone]
  have hallow₁ (x : Word) (hx : Mem (va + BitVec.ofNat 32 c) (size.toNat - c) x) :
      allow m₁ dir (pdx x) = tablePerm := by
    obtain ⟨hin, hnot⟩ := hbehind x hx
    rw [← hallow x hin, allow, allow, h₁.outside x hnot]
  have hmissing : missing m₁ dir (va + BitVec.ofNat 32 c) 0 ((size.toNat - c) / pgsize) ≤
      missing m dir va 0 (c / pgsize + (size.toNat - c) / pgsize) :=
    missing_rest (by rw [pgsize]; omega) (by rw [pgsize] at *; omega) (by omega) h₁.outside
  have hpages : c / pgsize + (size.toNat - c) / pgsize = size.toNat / pgsize := by
    rw [pgsize] at *
    omega
  rw [hpages] at hmissing
  have hshift (v : Word) (hv : v.toNat % pgsize = 0) :
      (v + BitVec.ofNat 32 c).toNat % pgsize = 0 := by
    rw [BitVec.toNat_add, hcw, pgsize] at *
    omega
  obtain ⟨m₂, free₂, hrun, h₂, -⟩ := bootMapRegion_pages _ _ _ perm h₁.wf (hshift va hva)
    (hshift pa hpa) (by rw [hrest, pgsize] at *; omega) hperm (by rw [hrest]; exact hvacant₁)
    (by rw [hrest]; exact hmissing.trans hroom)
  refine ⟨m₂, ?_, fun x hx => ?_⟩
  · rw [← hrun]
    unfold bootMapRegion
    rw [if_pos rfl, hlarge]
    rfl
  · have hx₁ := fun hs => hx ((h₁.self (pdx x)).mp hs)
    rw [h₂.walk x hx₁, hrest, paint_tableLeaf hallow₁, funext (regionLeaf_add pa perm c),
      paint_congr (h₁.walk x hx), paint_paint _ _ (by omega) (by omega), hsum]

/-- Both builds give every address the same translation that is not translated through an
entry that maps the directory itself. -/
theorem bootMapRegion_builds (h : WellFormed M m dir free) (hva : va.toNat % pgsize = 0)
    (hpa : pa.toNat % pgsize = 0) (hsize : size.toNat % pgsize = 0)
    (hperm : perm &&& ~~~(pteP ||| pteW ||| pteU ||| ptePwt ||| ptePcd) = 0#32)
    (hvacant : ∀ x, Mem va size.toNat x → Vacant m dir x)
    (hallow : ∀ x, Mem va size.toNat x → allow m dir (pdx x) = tablePerm)
    (hroom : missing m dir va 0 (size.toNat / pgsize) ≤ free.length) :
    ∃ m₁ m₂, bootMapRegion M true m dir va size pa perm = .ok m₁ ∧
      bootMapRegion M false m dir va size pa perm = .ok m₂ ∧
      ∀ la, ¬ IsSelf dir (m.mem dir (pdx la)) → walk m₁ dir la = walk m₂ dir la := by
  have hbits : perm.toNat < 32 := Nat.lt_of_le_of_lt (toNat_le_of_and_not hperm) (by decide)
  obtain ⟨m₁, hrun₁, hwalk₁⟩ := bootMapRegion_large h hva hpa hsize hbits hvacant hallow hroom
  obtain ⟨m₂, free', hrun₂, h₂, -⟩ := bootMapRegion_pages va size pa perm h hva hpa hsize hbits
    hvacant hroom
  refine ⟨m₁, m₂, hrun₁, hrun₂, fun la hla => ?_⟩
  rw [hwalk₁ la hla, h₂.walk la hla, paint_tableLeaf hallow]

end

/-! ## Directories that tell the builds apart -/

/-- Page 2 as a directory with one entry, and page 1 free. -/
def oneEntry (i : Nat) (pde : Word) : PMap :=
  { ppRef := fun _ => 0#16
    ppLink := fun _ => none
    pageFreeList := some 1
    mem := fun p j => if p = 2 ∧ j = i then pde else 0#32 }

/-- The region the examples map: the first large page of physical memory, to `KERNBASE`. -/
def kernbase : Word := 0xf0000000#32

theorem oneEntry_wellFormed {M : Machine} {i : Nat} {pde : Word} (hM : 1 < M.npages)
    (hpde : IsTable M 2 pde ∨ IsSelf 2 pde) (hused : pgnum pde ≠ 1) :
    WellFormed M (oneEntry i pde) 2 [1] := by
  have hmem (j : Nat) : (oneEntry i pde).mem 2 j = if j = i then pde else 0#32 := by
    unfold oneEntry
    dsimp only
    by_cases hj : j = i
    · rw [if_pos ⟨rfl, hj⟩, if_pos hj]
    · rw [if_neg fun h => hj h.2, if_neg hj]
  have hat (j : Nat) (ht : IsTable M 2 ((oneEntry i pde).mem 2 j)) :
      j = i ∧ (oneEntry i pde).mem 2 j = pde := by
    by_cases hj : j = i
    · exact ⟨hj, (hmem j).trans (if_pos hj)⟩
    · rw [hmem, if_neg hj] at ht
      exact absurd rfl ht.ne_zero
  constructor
  · exact ⟨rfl, rfl⟩
  · intro p hp
    rw [List.mem_singleton.mp hp]
    exact hM
  · decide
  · intro j _
    rw [hmem]
    by_cases hj : j = i
    · rw [if_pos hj]
      exact .inr (hpde.imp id .inr)
    · exact .inl (if_neg hj)
  · intro j _ ht hin
    rw [(hat j ht).2, List.mem_singleton] at hin
    exact hused hin
  · intro j k _ _ htj htk _
    rw [(hat j htj).1, (hat k htk).1]
  · intro j k _ _ ht
    exact .inl (if_neg fun h => ht.2.2.2 h.1)

theorem pdx_kernbase {x : Word} (hx : Mem kernbase 4194304 x) : pdx x = 960 := by
  rw [(mem_large_iff (by decide) x).mp hx]
  decide

theorem missing_kernbase {m : PMap} {n : Nat} (hn : n ≤ 1024) : missing m 2 kernbase 0 n ≤ 1 := by
  refine Finset.card_le_one.mpr fun i hi j hj => ?_
  have hat (k : Nat) (hk : ∃ x, x < n ∧ pdx (pageAt kernbase (0 + x)) = k) : k = 960 := by
    obtain ⟨x, hx, rfl⟩ := hk
    rw [Nat.zero_add]
    exact pdx_kernbase ((mem_pageAt hx (by rw [pgsize]; omega)).mono (by rw [pgsize]; omega))
  rw [hat i (Finset.mem_filter.mp hi).2.2, hat j (Finset.mem_filter.mp hj).2.2]

/-- The entry `pgdir[PDX(UVPT)]` of a directory in page 2. -/
def uvptEntry : Word := 0x2005#32

theorem uvptEntry_wellFormed : WellFormed (pc .roundRobin) (oneEntry 957 uvptEntry) 2 [1] :=
  oneEntry_wellFormed (by decide) (.inr ⟨by decide, by decide, by decide⟩) (by decide)

theorem uvptEntry_free {x : Word} (hx : Mem kernbase 4194304 x) :
    (oneEntry 957 uvptEntry).mem 2 (pdx x) = 0#32 := by
  rw [pdx_kernbase hx]
  rfl

theorem uvptEntry_vacant {x : Word} (hx : Mem kernbase 4194304 x) :
    Vacant (oneEntry 957 uvptEntry) 2 x := by
  refine ⟨walk_zero (uvptEntry_free hx), fun hs => ?_⟩
  rw [uvptEntry_free hx] at hs
  exact hs.1 (BitVec.zero_and)

theorem bootMapRegion_builds_pc : ∃ m₁ m₂,
    bootMapRegion (pc .roundRobin) true (oneEntry 957 uvptEntry) 2 kernbase 0x400000#32 0#32 pteW =
      .ok m₁ ∧
    bootMapRegion (pc .roundRobin) false (oneEntry 957 uvptEntry) 2 kernbase 0x400000#32 0#32 pteW =
      .ok m₂ ∧
    ∀ la, ¬ IsSelf 2 ((oneEntry 957 uvptEntry).mem 2 (pdx la)) → walk m₁ 2 la = walk m₂ 2 la :=
  bootMapRegion_builds uvptEntry_wellFormed (by decide) (by decide) (by decide) (by decide)
    (fun _ hx => uvptEntry_vacant hx) (fun x hx => if_pos (uvptEntry_free hx))
    (missing_kernbase (by decide))

/-- Behind the self-map the two builds differ: there is a large page at `KERNBASE` in the one,
and a page table in the other. -/
theorem selfmap_differs {m₁ m₂ : PMap}
    (hrun₁ : bootMapRegion (pc .roundRobin) true (oneEntry 957 uvptEntry) 2 kernbase 0x400000#32
      0#32 pteW = .ok m₁)
    (hrun₂ : bootMapRegion (pc .roundRobin) false (oneEntry 957 uvptEntry) 2 kernbase 0x400000#32
      0#32 pteW = .ok m₂) : walk m₁ 2 0xef7c0000#32 ≠ walk m₂ 2 0xef7c0000#32 := by
  obtain ⟨m', free', hrun, h, -⟩ := bootMapRegion_pages kernbase 0x400000#32 0#32 pteW
    uvptEntry_wellFormed (by decide) (by decide)
    (by decide) (by decide) (fun _ hx => uvptEntry_vacant hx) (missing_kernbase (by decide))
  cases hrun₂.symm.trans hrun
  have hlarge : walk m₁ 2 0xef7c0000#32 = some ⟨0, false, false, false, false⟩ := by
    cases hrun₁
    decide
  have hat : Mem kernbase (0x400000#32).toNat kernbase := by decide
  have hmapped : walk m₂ 2 kernbase ≠ none := by
    rw [h.walk kernbase (uvptEntry_vacant hat).2, paint, if_pos hat]
    exact Option.some_ne_none _
  have hne : m₂.mem 2 960 ≠ 0#32 := fun hz => hmapped (walk_zero hz)
  obtain ⟨ht, hin⟩ := h.made 960 rfl hne
  have hself : m₂.mem 2 957 = uvptEntry := h.kept 957 (by decide)
  have hpages : walk m₂ 2 0xef7c0000#32 =
      some (.of (pgnum (m₂.mem 2 960) * pgsize) (uvptEntry &&& m₂.mem 2 960) (m₂.mem 2 960)) := by
    unfold walk
    dsimp only
    rw [show pdx 0xef7c0000#32 = 957 by decide, show ptx 0xef7c0000#32 = 960 by decide, hself,
      if_neg (by decide), if_neg (by decide), show pgnum uvptEntry = 2 by decide, if_neg ht.1,
      show (0xef7c0000#32).toNat % pgsize = 0 by decide, Nat.add_zero]
  rw [hlarge, hpages, List.mem_singleton.mp hin]
  intro heq
  have hpa : some 0 = some (1 * pgsize) := congrArg (Option.map Leaf.pa) heq
  exact absurd hpa (by decide)

/-- The entry of an empty table that allows nothing. -/
def restrictedEntry : Word := 0x3001#32

theorem restrictedEntry_table : IsTable (pc .roundRobin) 2 restrictedEntry :=
  ⟨by decide, by decide, by decide, by decide⟩

theorem restrictedEntry_wellFormed :
    WellFormed (pc .roundRobin) (oneEntry 960 restrictedEntry) 2 [1] :=
  oneEntry_wellFormed (by decide) (.inl restrictedEntry_table) (by decide)

theorem restrictedEntry_vacant {x : Word} (hx : Mem kernbase 4194304 x) :
    Vacant (oneEntry 960 restrictedEntry) 2 x := by
  have hpde : (oneEntry 960 restrictedEntry).mem 2 (pdx x) = restrictedEntry := by
    rw [pdx_kernbase hx]
    rfl
  have ht : IsTable (pc .roundRobin) 2 ((oneEntry 960 restrictedEntry).mem 2 (pdx x)) := by
    rw [hpde]
    exact restrictedEntry_table
  refine ⟨?_, fun hs => ht.2.2.2 hs.2.2⟩
  rw [walk_table ht, hpde, if_pos]
  exact BitVec.zero_and

/-- The large page allows what the page table in its place did not. -/
theorem restricted_differs {m₁ m₂ : PMap}
    (hrun₁ : bootMapRegion (pc .roundRobin) true (oneEntry 960 restrictedEntry) 2 kernbase
      0x400000#32 0#32 pteW = .ok m₁)
    (hrun₂ : bootMapRegion (pc .roundRobin) false (oneEntry 960 restrictedEntry) 2 kernbase
      0x400000#32 0#32 pteW = .ok m₂) : walk m₁ 2 kernbase ≠ walk m₂ 2 kernbase := by
  obtain ⟨m', free', hrun, h, -⟩ := bootMapRegion_pages kernbase 0x400000#32 0#32 pteW
    restrictedEntry_wellFormed (by decide)
    (by decide) (by decide) (by decide) (fun _ hx => restrictedEntry_vacant hx)
    (missing_kernbase (by decide))
  cases hrun₂.symm.trans hrun
  have hlarge : walk m₁ 2 kernbase = some ⟨0, true, false, false, false⟩ := by
    cases hrun₁
    decide
  have hat : Mem kernbase (0x400000#32).toNat kernbase := by decide
  have hpages : walk m₂ 2 kernbase = some ⟨0, false, false, false, false⟩ := by
    rw [h.walk kernbase (restrictedEntry_vacant hat).2, paint, if_pos hat]
    decide
  rw [hlarge, hpages]
  decide

/-- Neither of the two conditions on directory entries can be left out. -/
theorem builds_differ :
    (¬ ∀ (M : Machine) (m : PMap) (dir : Nat) (free : List Nat) (va size pa perm : Word),
      WellFormed M m dir free → va.toNat % pgsize = 0 → pa.toNat % pgsize = 0 →
      size.toNat % pgsize = 0 →
      perm &&& ~~~(pteP ||| pteW ||| pteU ||| ptePwt ||| ptePcd) = 0#32 →
      (∀ x, Mem va size.toNat x → walk m dir x = none) →
      (∀ x, Mem va size.toNat x → allow m dir (pdx x) = tablePerm) →
      missing m dir va 0 (size.toNat / pgsize) ≤ free.length →
      ∃ m₁ m₂, bootMapRegion M true m dir va size pa perm = .ok m₁ ∧
        bootMapRegion M false m dir va size pa perm = .ok m₂ ∧
        ∀ la, walk m₁ dir la = walk m₂ dir la) ∧
    ¬ ∀ (M : Machine) (m : PMap) (dir : Nat) (free : List Nat) (va size pa perm : Word),
      WellFormed M m dir free → va.toNat % pgsize = 0 → pa.toNat % pgsize = 0 →
      size.toNat % pgsize = 0 →
      perm &&& ~~~(pteP ||| pteW ||| pteU ||| ptePwt ||| ptePcd) = 0#32 →
      (∀ x, Mem va size.toNat x → walk m dir x = none) →
      (∀ i, ¬ IsSelf dir (m.mem dir i)) →
      missing m dir va 0 (size.toNat / pgsize) ≤ free.length →
      ∃ m₁ m₂, bootMapRegion M true m dir va size pa perm = .ok m₁ ∧
        bootMapRegion M false m dir va size pa perm = .ok m₂ ∧
        ∀ la, walk m₁ dir la = walk m₂ dir la := by
  constructor
  · intro hclaim
    obtain ⟨m₁, m₂, hrun₁, hrun₂, heq⟩ := hclaim (pc .roundRobin) (oneEntry 957 uvptEntry) 2 [1]
      kernbase 0x400000#32 0#32 pteW uvptEntry_wellFormed (by decide) (by decide) (by decide)
      (by decide) (fun _ hx => (uvptEntry_vacant hx).1) (fun x hx => if_pos (uvptEntry_free hx))
      (missing_kernbase (by decide))
    exact selfmap_differs hrun₁ hrun₂ (heq _)
  · intro hclaim
    have hnone (i : Nat) : ¬ IsSelf 2 ((oneEntry 960 restrictedEntry).mem 2 i) := by
      intro hs
      by_cases hi : i = 960
      · rw [hi] at hs
        exact restrictedEntry_table.2.2.2 hs.2.2
      · have hz : (oneEntry 960 restrictedEntry).mem 2 i = 0#32 := if_neg fun h => hi h.2
        rw [hz] at hs
        exact hs.1 BitVec.zero_and
    obtain ⟨m₁, m₂, hrun₁, hrun₂, heq⟩ := hclaim (pc .roundRobin) (oneEntry 960 restrictedEntry) 2
      [1] kernbase 0x400000#32 0#32 pteW restrictedEntry_wellFormed (by decide) (by decide)
      (by decide) (by decide) (fun _ hx => (restrictedEntry_vacant hx).1) hnone
      (missing_kernbase (by decide))
    exact restricted_differs hrun₁ hrun₂ (heq _)

end Jos
end Sisop

import Sisop.Lib.Reach
import Sisop.Jos.LargePages
import Sisop.Jos.UserCheck

/-!
# Device memory

`mmio_map_region` hands out the addresses between `MMIOBASE` and `MMIOLIM` one region after
the other.  It rounds the physical address down without giving the offset back in what it
returns, and both the rounding of the size and the test against `MMIOLIM` are in 32 bits.
The calls that run into neither get regions that are disjoint and stay mapped.
-/

namespace Sisop
namespace Jos

open TransitionSystem Window

def mmiobase : Word := 0xef800000#32
def mmiolim : Word := 0xefc00000#32

/-- The static variable `base` and the memory of the kernel. -/
structure Mmio where
  base : Word
  m : PMap

def mmioMapRegion (M : Machine) (pse : Bool) (s : Mmio) (pa size : Word) :
    Except String (Word × Mmio) :=
  let pa := rounddown pa
  let size := roundup size
  let perm := pteW ||| pteP ||| ptePcd ||| ptePwt
  if mmiolim ≤ s.base + size then .error "mmio_map_region: MMIOLIMIT overflow"
  else do
    let m ← bootMapRegion M pse s.m M.kernPgdir s.base size pa perm
    let base := s.base + size
    pure (base - size, ⟨base, m⟩)

/-! ## Sequences of calls -/

/-- What a call returned, and for which range. -/
structure Region where
  r : Word
  pa : Word
  size : Word

/-- Inside the device memory, and translated byte for byte, uncached and written through. -/
structure Region.Sound (m : PMap) (dir : Nat) (g : Region) : Prop where
  low : mmiobase.toNat ≤ g.r.toNat
  high : g.r.toNat + g.size.toNat ≤ mmiolim.toNat
  translated : ∀ off, off < g.size → ∃ leaf, walk m dir (g.r + off) = some leaf ∧
    leaf.pa = (g.pa + off).toNat ∧ leaf.pcd = true ∧ leaf.pwt = true

/-- No address is in both regions. -/
def Region.Disjoint (g g' : Region) : Prop :=
  ∀ la, ¬ (Mem g.r g.size.toNat la ∧ Mem g'.r g'.size.toNat la)

/-- Before the first call: no address of the device memory is mapped, and there is a page
table for it or a page for one. -/
structure Fresh (M : Machine) (s : Mmio) : Prop where
  base : s.base = mmiobase
  room : ∃ free, WellFormed M s.m M.kernPgdir free ∧
    (s.m.mem M.kernPgdir (pdx mmiobase) = 0#32 → free ≠ [])
  vacant : ∀ la, mmiobase.toNat ≤ la.toNat → la.toNat < mmiolim.toNat → Vacant s.m M.kernPgdir la

/-- The calls that return, with the regions they returned, the last one first. -/
def mmioCalls (M : Machine) (pse : Bool) : TransitionSystem (Mmio × List Region) (Word × Word) where
  init x := Fresh M x.1 ∧ x.2 = []
  step x e y := ∃ r, mmioMapRegion M pse x.1 e.1 e.2 = .ok (r, y.1) ∧ y.2 = ⟨r, e.1, e.2⟩ :: x.2

/-- The size rounded up to pages. -/
def pages (size : Word) : Nat := (size.toNat + 4095) / 4096 * 4096

/-- The end of the region is an address, and the physical range starts with a page, is empty
or does not fit anyway. -/
def MmioFits (base pa size : Word) : Prop :=
  base.toNat + pages size < 2 ^ 32 ∧
    (pa.toNat % 4096 = 0 ∨ size = 0#32 ∨ mmiolim.toNat ≤ base.toNat + pages size)

section

variable {M : Machine} {pse : Bool} {s s' : Mmio} {x : Mmio × List Region} {pa size la r : Word}

/-- Rounding up is exact as long as the result is an address. -/
theorem roundup_eq (h : pages size < 2 ^ 32) : roundup size = BitVec.ofNat 32 (pages size) := by
  have hlt := size.isLt
  apply BitVec.eq_of_toNat_eq
  rw [toNat_roundup, BitVec.toNat_ofNat, Nat.mod_eq_of_lt h, if_pos]
  · rfl
  · unfold pages at h
    omega

theorem pages_mod (size : Word) : pages size % 4096 = 0 := Nat.mul_mod_left _ _

theorem le_pages (size : Word) : size.toNat ≤ pages size := by
  unfold pages
  omega

theorem pages_lt (size : Word) : pages size < size.toNat + 4096 := by
  unfold pages
  omega

/-- A window that ends before the top of memory. -/
theorem mem_iff {a x : Word} {n : Nat} (h : a.toNat + n ≤ 2 ^ 32) :
    Mem a n x ↔ a.toNat ≤ x.toNat ∧ x.toNat < a.toNat + n := by
  have hx := x.isLt
  have ha := a.isLt
  unfold Mem
  rw [BitVec.toNat_sub]
  omega

/-- The device memory is what one page table maps. -/
theorem pdx_mmio (hlow : mmiobase.toNat ≤ la.toNat) (hhigh : la.toNat < mmiolim.toNat) :
    pdx la = pdx mmiobase := by
  rw [show mmiobase.toNat = 0xef800000 from rfl] at hlow
  rw [show mmiolim.toNat = 0xefc00000 from rfl] at hhigh
  rw [pdx_eq, pdx_eq, show mmiobase.toNat = 0xef800000 from rfl]
  omega

/-! ## One call -/

/-- What holds between calls: the addresses from `base` on are still free. -/
structure MmioInv (M : Machine) (s : Mmio) (free : List Nat) : Prop where
  wf : WellFormed M s.m M.kernPgdir free
  room : s.m.mem M.kernPgdir (pdx mmiobase) = 0#32 → free ≠ []
  aligned : s.base.toNat % 4096 = 0
  low : mmiobase.toNat ≤ s.base.toNat
  high : s.base.toNat < mmiolim.toNat
  vacant : ∀ la, s.base.toNat ≤ la.toNat → la.toNat < mmiolim.toNat → Vacant s.m M.kernPgdir la

theorem Fresh.inv (h : Fresh M s) : ∃ free, MmioInv M s free := by
  obtain ⟨free, hwf, hroom⟩ := h.room
  refine ⟨free, hwf, hroom, ?_, ?_, ?_, ?_⟩
  · rw [h.base]
    decide
  · rw [h.base]
  · rw [h.base]
    decide
  · rw [h.base]
    exact h.vacant

/-- Large pages need 4 MB, which the device memory has not to give. -/
theorem bootMapLarge_small {dir n : Nat} {m : PMap} {va perm : Word}
    (hsize : size.toNat < lpgsize) :
    bootMapLarge dir perm n m va size pa = (m, va, size, pa) := by
  cases n with
  | zero => rfl
  | succ n =>
      refine if_neg fun h => ?_
      have hle : lpgsize ≤ size.toNat := h.2.1
      omega

/-- What one page table maps lacks that table at most. -/
theorem missing_mmio {free : List Nat} (h : MmioInv M s free) {n : Nat}
    (hn : s.base.toNat + n * 4096 ≤ mmiolim.toNat) :
    missing s.m M.kernPgdir s.base 0 n ≤ free.length := by
  have hat (k : Nat) (hk : ∃ x, x < n ∧ pdx (pageAt s.base (0 + x)) = k) : k = pdx mmiobase := by
    obtain ⟨x, hx, rfl⟩ := hk
    have hlim : mmiolim.toNat = 0xefc00000 := rfl
    have haddr := toNat_pageAt s.base (0 + x)
    have hlow := h.low
    refine pdx_mmio ?_ ?_ <;> omega
  by_cases hz : s.m.mem M.kernPgdir (pdx mmiobase) = 0#32
  · refine Nat.le_trans (Finset.card_le_one.mpr fun i hi j hj => ?_)
      (List.length_pos_of_ne_nil (h.room hz))
    rw [hat i (Finset.mem_filter.mp hi).2.2, hat j (Finset.mem_filter.mp hj).2.2]
  · refine Nat.le_trans (Nat.le_of_eq (Finset.card_eq_zero.mpr ?_)) (Nat.zero_le _)
    refine Finset.filter_eq_empty_iff.mpr fun i _ hi => hz ?_
    rw [← hat i hi.2, hi.1]

/-- A call whose rounded region ends below `MMIOLIM`. -/
theorem MmioInv.call {free : List Nat} (h : MmioInv M s free) (pse : Bool) (pa : Word)
    (hfits : s.base.toNat + pages size < mmiolim.toNat) :
    ∃ m' free', mmioMapRegion M pse s pa size =
        .ok (s.base, ⟨s.base + BitVec.ofNat 32 (pages size), m'⟩) ∧
      PagesMapped M s.m m' M.kernPgdir free free' s.base (rounddown pa)
        (pteW ||| pteP ||| ptePcd ||| ptePwt) (pages size) ∧
      MmioInv M ⟨s.base + BitVec.ofNat 32 (pages size), m'⟩ free' := by
  have hlim : mmiolim.toNat = 0xefc00000 := rfl
  have hbase : mmiobase.toNat = 0xef800000 := rfl
  have hlow := h.low
  have hhigh := h.high
  have hmod := pages_mod size
  have hsize : (BitVec.ofNat 32 (pages size)).toNat = pages size := by
    rw [BitVec.toNat_ofNat, Nat.mod_eq_of_lt (by omega)]
  have hsum : (s.base + BitVec.ofNat 32 (pages size)).toNat = s.base.toNat + pages size := by
    rw [BitVec.toNat_add, hsize, Nat.mod_eq_of_lt (by omega)]
  have hround : roundup size = BitVec.ofNat 32 (pages size) := roundup_eq (by omega)
  have hwindow (la : Word) : Mem s.base (pages size) la ↔
      s.base.toNat ≤ la.toNat ∧ la.toNat < s.base.toNat + pages size := mem_iff (by omega)
  obtain ⟨m', free', hrun, h', hlen⟩ := bootMapRegion_pages s.base
    (BitVec.ofNat 32 (pages size)) (rounddown pa) (pteW ||| pteP ||| ptePcd ||| ptePwt) h.wf
    h.aligned (by rw [toNat_rounddown, pgsize]; omega) (by rw [hsize]; exact hmod) (by decide)
    (fun la hla => by
      rw [hsize, hwindow] at hla
      exact h.vacant la hla.1 (by omega))
    (missing_mmio h (by rw [hsize, pgsize]; omega))
  rw [hsize] at h' hlen
  refine ⟨m', free', ?_, h', ?_⟩
  · have hpse : bootMapRegion M pse s.m M.kernPgdir s.base (BitVec.ofNat 32 (pages size))
        (rounddown pa) (pteW ||| pteP ||| ptePcd ||| ptePwt) = .ok m' := by
      cases pse with
      | false => exact hrun
      | true =>
          rw [← hrun]
          unfold bootMapRegion
          rw [if_pos rfl, bootMapLarge_small (by rw [hsize, lpgsize]; omega),
            if_neg Bool.false_ne_true]
    have htest : ¬ mmiolim ≤ s.base + BitVec.ofNat 32 (pages size) := by
      rw [BitVec.le_def, hsum]
      omega
    unfold mmioMapRegion
    dsimp only
    rw [hround, if_neg htest, hpse]
    simp only [Except.ok_bind_eq, pure, Except.pure, BitVec.add_sub_cancel]
  · have hkeep (la : Word) (hlo : s.base.toNat + pages size ≤ la.toNat)
        (hhi : la.toNat < mmiolim.toNat) : Vacant m' M.kernPgdir la := by
      obtain ⟨hnone, hself⟩ := h.vacant la (by omega) hhi
      refine ⟨?_, fun hs => hself ((h'.self _).mp hs)⟩
      rw [h'.walk la hself, paint, if_neg fun hin => absurd ((hwindow la).mp hin).2 (by omega),
        hnone]
    refine ⟨h'.wf, fun hz => ?_, ?_, ?_, ?_, ?_⟩
    · have hzero : s.m.mem M.kernPgdir (pdx mmiobase) = 0#32 := by
        by_contra hne
        exact hne ((h'.kept _ hne).symm.trans hz)
      have hpdx : pdx s.base = pdx mmiobase := pdx_mmio hlow hhigh
      have hempty : pages size = 0 := by
        by_contra hne
        have hin : Mem s.base (pages size) s.base := (hwindow s.base).mpr (by omega)
        have hwalk := h'.walk s.base (h.vacant s.base (by omega) hhigh).2
        rw [walk_zero (hpdx ▸ hz), paint, if_pos hin] at hwalk
        cases hwalk
      have hnone : missing s.m M.kernPgdir s.base 0 (pages size / pgsize) = 0 := by
        rw [hempty]
        refine Finset.card_eq_zero.mpr (Finset.filter_eq_empty_iff.mpr fun i _ hi => ?_)
        obtain ⟨x, hx, -⟩ := hi.2
        exact absurd hx (Nat.not_lt_zero x)
      have hpos := List.length_pos_of_ne_nil (h.room hzero)
      rw [hnone] at hlen
      exact List.ne_nil_of_length_pos (by omega)
    · rw [hsum]
      have haligned := h.aligned
      omega
    · rw [hsum]
      omega
    · rw [hsum]
      exact hfits
    · rw [hsum]
      exact hkeep

/-- The region of such a call is sound when its physical range starts with a page or is
empty, and not otherwise. -/
theorem MmioInv.call_sound {free free' : List Nat} {m' : PMap} (h : MmioInv M s free)
    (hfits : s.base.toNat + pages size < mmiolim.toNat)
    (h' : PagesMapped M s.m m' M.kernPgdir free free' s.base (rounddown pa)
      (pteW ||| pteP ||| ptePcd ||| ptePwt) (pages size)) :
    Region.Sound m' M.kernPgdir ⟨s.base, pa, size⟩ ↔ pa.toNat % 4096 = 0 ∨ size = 0#32 := by
  have hlim : mmiolim.toNat = 0xefc00000 := rfl
  have hlow := h.low
  have hle := le_pages size
  have hat (off : Word) (hoff : off < size) : walk m' M.kernPgdir (s.base + off) =
      tableLeaf (allow s.m M.kernPgdir) s.base (rounddown pa)
        (pteW ||| pteP ||| ptePcd ||| ptePwt) off := by
    have hlt : off.toNat < size.toNat := hoff
    have haddr : (s.base + off).toNat = s.base.toNat + off.toNat := by
      rw [BitVec.toNat_add, Nat.mod_eq_of_lt (by omega)]
    have hself := (h.vacant (s.base + off) (by omega) (by omega)).2
    rw [h'.walk _ hself, paint, if_pos ((mem_iff (by omega)).mpr (by omega)),
      BitVec.add_comm s.base, BitVec.add_sub_cancel]
  constructor
  · intro hsound
    by_cases hzero : size = 0#32
    · exact .inr hzero
    · have hpos : 0#32 < size := Nat.pos_of_ne_zero fun hz => hzero (BitVec.eq_of_toNat_eq hz)
      obtain ⟨leaf, hwalk, hpa, -⟩ := hsound.translated 0#32 hpos
      rw [hat 0#32 hpos] at hwalk
      cases hwalk
      have hdown : (rounddown pa + 0#32).toNat = (pa + 0#32).toNat := hpa
      rw [BitVec.add_zero, BitVec.add_zero, toNat_rounddown] at hdown
      have hmod := Nat.mod_le pa.toNat 4096
      left
      omega
  · intro haligned
    refine ⟨hlow, ?_, fun off hoff => ⟨_, hat off hoff, ?_, rfl, rfl⟩⟩
    · dsimp only
      omega
    · have hne : size ≠ 0#32 := fun hzero => by
        rw [hzero] at hoff
        exact absurd hoff (Nat.not_lt_zero _)
      have hdown : rounddown pa = pa := by
        apply BitVec.eq_of_toNat_eq
        rw [toNat_rounddown, haligned.resolve_right hne, Nat.sub_zero]
      rw [hdown]
      rfl

/-- A call whose rounded region does not end below `MMIOLIM`, but at an address. -/
theorem mmioMapRegion_panics (hlt : s.base.toNat + pages size < 2 ^ 32)
    (hlim : mmiolim.toNat ≤ s.base.toNat + pages size) :
    mmioMapRegion M pse s pa size = .error "mmio_map_region: MMIOLIMIT overflow" := by
  have htest : mmiolim ≤ s.base + roundup size := by
    rw [roundup_eq (by omega), BitVec.le_def, BitVec.toNat_add, BitVec.toNat_ofNat,
      Nat.mod_eq_of_lt (show pages size < 2 ^ 32 by omega), Nat.mod_eq_of_lt hlt]
    exact hlim
  unfold mmioMapRegion
  dsimp only
  rw [if_pos htest]

/-- The address returned is the cursor before the call. -/
theorem mmioMapRegion_base (hcall : mmioMapRegion M pse s pa size = .ok (r, s')) : r = s.base := by
  unfold mmioMapRegion at hcall
  dsimp only at hcall
  by_cases htest : mmiolim ≤ s.base + roundup size
  · rw [if_pos htest] at hcall
    cases hcall
  · rw [if_neg htest] at hcall
    cases hrun : bootMapRegion M pse s.m M.kernPgdir s.base (roundup size) (rounddown pa)
        (pteW ||| pteP ||| ptePcd ||| ptePwt) with
    | error e =>
        rw [hrun] at hcall
        cases hcall
    | ok m' =>
        rw [hrun] at hcall
        have hpair := Prod.mk.inj (Except.ok.inj hcall)
        rw [← hpair.1, BitVec.add_sub_cancel]

/-! ## Every sequence of calls -/

/-- The regions returned lie below the cursor, apart from each other. -/
structure MmioRun (M : Machine) (x : Mmio × List Region) : Prop where
  inv : ∃ free, MmioInv M x.1 free
  sound : ∀ g ∈ x.2, g.Sound x.1.m M.kernPgdir
  below : ∀ g ∈ x.2, g.r.toNat + g.size.toNat ≤ x.1.base.toNat
  disjoint : x.2.Pairwise Region.Disjoint

/-- A region below the cursor stays as it is. -/
theorem MmioInv.keeps {free free' : List Nat} {m' : PMap} {g : Region} {n : Nat} {p : Word}
    (h : MmioInv M s free) (hfits : s.base.toNat + n < mmiolim.toNat)
    (h' : PagesMapped M s.m m' M.kernPgdir free free' s.base p
      (pteW ||| pteP ||| ptePcd ||| ptePwt) n)
    (hg : g.Sound s.m M.kernPgdir) (hbelow : g.r.toNat + g.size.toNat ≤ s.base.toNat) :
    g.Sound m' M.kernPgdir := by
  have hlim : mmiolim.toNat = 0xefc00000 := rfl
  have hglow := hg.low
  refine ⟨hglow, hg.high, fun off hoff => ?_⟩
  obtain ⟨leaf, hwalk, hleaf⟩ := hg.translated off hoff
  have hlt : off.toNat < g.size.toNat := hoff
  have haddr : (g.r + off).toNat = g.r.toNat + off.toNat := by
    rw [BitVec.toNat_add, Nat.mod_eq_of_lt (by omega)]
  have hself : ¬ IsSelf M.kernPgdir (s.m.mem M.kernPgdir (pdx (g.r + off))) := by
    rw [pdx_mmio (by omega) (by omega), ← pdx_mmio h.low h.high]
    exact (h.vacant s.base (Nat.le_refl _) h.high).2
  refine ⟨leaf, ?_, hleaf⟩
  rw [h'.walk _ hself, paint, if_neg fun hin => ?_, hwalk]
  have hfrom := ((mem_iff (by omega)).mp hin).1
  omega

theorem MmioRun.step (h : MmioRun M x) (hfits : MmioFits x.1.base pa size)
    (hcall : mmioMapRegion M pse x.1 pa size = .ok (r, s')) :
    MmioRun M (s', ⟨r, pa, size⟩ :: x.2) := by
  obtain ⟨free, hinv⟩ := h.inv
  obtain ⟨hlt, hcase⟩ := hfits
  by_cases hlim : mmiolim.toNat ≤ x.1.base.toNat + pages size
  · rw [mmioMapRegion_panics hlt hlim] at hcall
    cases hcall
  have hin : x.1.base.toNat + pages size < mmiolim.toNat := Nat.lt_of_not_le hlim
  obtain ⟨m', free', hok, hmapped, hinv'⟩ := hinv.call pse pa hin
  cases hcall.symm.trans hok
  have hnew := (hinv.call_sound hin hmapped).mpr (hcase.imp id (Or.resolve_right · hlim))
  have hle := le_pages size
  have hsum : (x.1.base + BitVec.ofNat 32 (pages size)).toNat = x.1.base.toNat + pages size := by
    rw [BitVec.toNat_add, BitVec.toNat_ofNat, Nat.add_mod_mod, Nat.mod_eq_of_lt hlt]
  have hbelow (g : Region) (hg : g ∈ x.2) := h.below g hg
  refine ⟨⟨free', hinv'⟩, ?_, ?_, ?_⟩
  · intro g hg
    rcases List.mem_cons.mp hg with rfl | hg
    · exact hnew
    · exact hinv.keeps hin hmapped (h.sound g hg) (hbelow g hg)
  · intro g hg
    dsimp only
    rw [hsum]
    rcases List.mem_cons.mp hg with rfl | hg
    · exact Nat.add_le_add_left hle _
    · exact Nat.le_trans (hbelow g hg) (Nat.le_add_right _ _)
  · refine List.pairwise_cons.mpr ⟨fun g hg la hla => ?_, h.disjoint⟩
    obtain ⟨hlow, -⟩ := (mem_iff (show x.1.base.toNat + size.toNat ≤ 2 ^ 32 by omega)).mp hla.1
    have hend := hbelow g hg
    obtain ⟨-, hhigh⟩ := (mem_iff (Nat.le_trans hend (by omega))).mp hla.2
    omega

theorem mmioRun (h : Reach (mmioCalls M pse) (fun x e => MmioFits x.1.base e.1 e.2) x) :
    MmioRun M x := by
  refine h.invariant (fun x hx => ?_) fun x e y hx hfits hstep => ?_
  · obtain ⟨hfresh, hnil⟩ := hx
    refine ⟨hfresh.inv, ?_, ?_, ?_⟩
    · rw [hnil]
      exact List.forall_mem_nil _
    · rw [hnil]
      exact List.forall_mem_nil _
    · rw [hnil]
      exact List.Pairwise.nil
  · obtain ⟨r, hcall, hy⟩ := hstep
    have hnext := hx.step hfits hcall
    rw [← hy] at hnext
    exact hnext

/-- In every sequence of calls that fit, the regions returned are sound, and stay so, and are
disjoint.  The next call panics or returns.  What it returns is sound if and only if it fits,
whatever the call. -/
theorem mmioMapRegion_regions
    (h : Reach (mmioCalls M pse) (fun x e => MmioFits x.1.base e.1 e.2) x) :
    (∀ g ∈ x.2, g.Sound x.1.m M.kernPgdir) ∧ x.2.Pairwise Region.Disjoint ∧
      ∀ pa size,
        (MmioFits x.1.base pa size →
          mmioMapRegion M pse x.1 pa size = .error "mmio_map_region: MMIOLIMIT overflow" ∨
            ∃ r s', mmioMapRegion M pse x.1 pa size = .ok (r, s')) ∧
        ∀ r s', mmioMapRegion M pse x.1 pa size = .ok (r, s') →
          (Region.Sound s'.m M.kernPgdir ⟨r, pa, size⟩ ↔ MmioFits x.1.base pa size) := by
  have hrun := mmioRun h
  obtain ⟨free, hinv⟩ := hrun.inv
  refine ⟨hrun.sound, hrun.disjoint, fun pa size => ⟨fun hfits => ?_, fun r s' hcall => ?_⟩⟩
  · by_cases hlim : mmiolim.toNat ≤ x.1.base.toNat + pages size
    · exact .inl (mmioMapRegion_panics hfits.1 hlim)
    · obtain ⟨m', free', hok, -⟩ := hinv.call pse pa (Nat.lt_of_not_le hlim)
      exact .inr ⟨_, _, hok⟩
  · constructor
    · intro hsound
      have hhigh := hsound.high
      have hlim : mmiolim.toNat = 0xefc00000 := rfl
      have hpages := pages_lt size
      rw [mmioMapRegion_base hcall] at hhigh
      dsimp only at hhigh
      have hlt : x.1.base.toNat + pages size < 2 ^ 32 := by omega
      by_cases hover : mmiolim.toNat ≤ x.1.base.toNat + pages size
      · exact ⟨hlt, .inr (.inr hover)⟩
      · have hin := Nat.lt_of_not_le hover
        obtain ⟨m', free', hok, hmapped, -⟩ := hinv.call pse pa hin
        cases hcall.symm.trans hok
        exact ⟨hlt, ((hinv.call_sound hin hmapped).mp hsound).imp id .inl⟩
    · intro hfits
      exact (hrun.step hfits hcall).sound _ List.mem_cons_self

end

/-! ## A directory with nothing mapped -/

/-- The directory of the kernel in `M.kernPgdir`, and the page after it free. -/
def emptyPgdir : PMap :=
  { ppRef := fun _ => 0#16
    ppLink := fun _ => none
    pageFreeList := some 0x101
    mem := fun _ _ => 0#32 }

def mmioStart : Mmio := ⟨mmiobase, emptyPgdir⟩

theorem mmioStart_fresh : Fresh (pc .roundRobin) mmioStart := by
  have hno (i : Nat) : ¬ IsTable (pc .roundRobin) 0x100 (emptyPgdir.mem 0x100 i) :=
    fun ht => ht.ne_zero rfl
  refine ⟨rfl, ⟨[0x101], ?_, fun _ => List.cons_ne_nil _ _⟩, fun la _ _ => ?_⟩
  · refine ⟨⟨rfl, rfl⟩, by decide, by decide, fun _ _ => .inl rfl, fun i _ ht => absurd ht (hno i),
      fun i _ _ _ ht => absurd ht (hno i), fun i _ _ _ ht => absurd ht (hno i)⟩
  · exact ⟨walk_zero rfl, fun hs => hs.1 BitVec.zero_and⟩

/-- A first call of one page or less. -/
theorem mmioStart_call (pa size : Word) (hsize : pages size = 4096) :
    ∃ m', mmioMapRegion (pc .roundRobin) true mmioStart pa size =
        .ok (mmiobase, ⟨mmiobase + 4096#32, m'⟩) ∧
      (Region.Sound m' 0x100 ⟨mmiobase, pa, size⟩ ↔ pa.toNat % 4096 = 0 ∨ size = 0#32) := by
  obtain ⟨free, hinv⟩ := mmioStart_fresh.inv
  have hfits : mmioStart.base.toNat + pages size < mmiolim.toNat := by
    rw [hsize]
    decide
  obtain ⟨m', free', hok, hmapped, -⟩ := hinv.call true pa hfits
  have hsound := hinv.call_sound hfits hmapped
  rw [hsize] at hok
  exact ⟨m', hok, hsound⟩

theorem mmioMapRegion_regions_pc : ∃ x : Mmio × List Region,
    x.2 = [⟨mmiobase, 0xfee00000#32, 4096#32⟩] ∧
    (∀ g ∈ x.2, g.Sound x.1.m (pc .roundRobin).kernPgdir) ∧ x.2.Pairwise Region.Disjoint ∧
      ∀ pa size,
        (MmioFits x.1.base pa size →
          mmioMapRegion (pc .roundRobin) true x.1 pa size =
              .error "mmio_map_region: MMIOLIMIT overflow" ∨
            ∃ r s', mmioMapRegion (pc .roundRobin) true x.1 pa size = .ok (r, s')) ∧
        ∀ r s', mmioMapRegion (pc .roundRobin) true x.1 pa size = .ok (r, s') →
          (Region.Sound s'.m (pc .roundRobin).kernPgdir ⟨r, pa, size⟩ ↔
            MmioFits x.1.base pa size) := by
  obtain ⟨m', hcall, -⟩ := mmioStart_call 0xfee00000#32 4096#32 (by decide)
  have hfits : MmioFits mmioStart.base 0xfee00000#32 4096#32 := ⟨by decide, .inl (by decide)⟩
  have hreach : Reach (mmioCalls (pc .roundRobin) true) (fun x e => MmioFits x.1.base e.1 e.2)
      (⟨mmiobase + 4096#32, m'⟩, [⟨mmiobase, 0xfee00000#32, 4096#32⟩]) :=
    .step (s := (mmioStart, [])) (e := (0xfee00000#32, 4096#32)) (.init ⟨mmioStart_fresh, rfl⟩)
      hfits ⟨mmiobase, hcall, rfl⟩
  exact ⟨_, rfl, mmioMapRegion_regions hreach⟩

/-- Four bytes at an offset in a page: the address returned is that of the page. -/
theorem mmio_unaligned : ¬ ∀ (M : Machine) (pse : Bool) (x : Mmio × List Region),
    Reach (mmioCalls M pse) anyEvent x → ∀ g ∈ x.2, g.Sound x.1.m M.kernPgdir := by
  intro hclaim
  obtain ⟨m', hcall, hsound⟩ := mmioStart_call 0xfee00010#32 4#32 (by decide)
  have hreach : Reach (mmioCalls (pc .roundRobin) true) anyEvent
      (⟨mmiobase + 4096#32, m'⟩, [⟨mmiobase, 0xfee00010#32, 4#32⟩]) :=
    .step (s := (mmioStart, [])) (e := (0xfee00010#32, 4#32)) (.init ⟨mmioStart_fresh, rfl⟩) trivial
      ⟨mmiobase, hcall, rfl⟩
  have hbad := hsound.mp (hclaim _ _ _ hreach _ List.mem_cons_self)
  exact absurd hbad (by decide)

end Jos
end Sisop

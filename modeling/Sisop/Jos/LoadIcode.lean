import Sisop.Jos.Regions
import Sisop.Jos.UserLib

/-!
# Loading an image

`load_icode` maps the pages of each segment, clears them and copies the bytes of the file
through the addresses of the new environment.  For segments apart from each other and from
the stack page it leaves the bytes asked for and no page besides, or panics, unless it
reaches a segment of one of two kinds.

`region_alloc` rounds `va + len` up in 32 bits.  When the sum wraps, the test against `UTOP`
passes, no page is mapped for the addresses above, and the segment is cleared where it is:
over the kernel, when its first address there is one the kernel can write.  And a segment
without a byte at an address inside a page still gets the page.
-/

namespace Sisop
namespace Jos

open RefCount Exit

/-! ## Images -/

namespace Proghdr

/-- The segment has a byte in page `p`. -/
def Touches (ph : Proghdr) (p : Nat) : Prop :=
  ∃ k, k < ph.pMemsz.toNat ∧ pgnum (ph.pVa + BitVec.ofNat 32 k) = p

/-- The byte at offset `k` of a segment: the file's, and zero past `p_filesz`. -/
def byte (ph : Proghdr) (elf : Elf) (k : Nat) : BitVec 8 :=
  if k < ph.pFilesz.toNat then elf.binary (ph.pOffset.toNat + k) else 0#8

/-- The pages `region_alloc` maps for a segment. -/
def pages (ph : Proghdr) : Finset Nat := regionPages ph.pVa ph.pMemsz

/-- The segment passes the test against `UTOP` although it ends above, and the first of its
addresses there is one the kernel can write; the page below, if it has one, is mapped. -/
def Overruns (ph : Proghdr) (m : PMap) (dir : Nat) : Prop :=
  ph.pMemsz ≠ 0#32 ∧ roundup (ph.pVa + ph.pMemsz) ≤ utop ∧
    utop.toNat < ph.pVa.toNat + ph.pMemsz.toNat ∧
    (ph.pVa < utop → roundup (ph.pVa + ph.pMemsz) = utop) ∧
    KernelWritable m dir (if ph.pVa < utop then utop else ph.pVa)

/-- The segment is empty and gets a page. -/
def MapsSpare (ph : Proghdr) : Prop :=
  ph.pMemsz = 0#32 ∧ ph.pVa < utop ∧ ph.pVa % 4096#32 ≠ 0#32

/-- The segment passes the test against `UTOP`, ends below, and gets the pages it touches. -/
def Fits (ph : Proghdr) : Prop :=
  roundup (ph.pVa + ph.pMemsz) ≤ utop ∧
    (ph.pMemsz ≠ 0#32 → ph.pVa.toNat + ph.pMemsz.toNat ≤ utop.toNat) ∧ ¬ ph.MapsSpare

end Proghdr

/-- The segments to load. -/
def Elf.segments (elf : Elf) : List Proghdr := elf.phdrs.filter fun ph => ph.pType = elfProgLoad

def initialStack : Nat := pgnum (ustacktop - 4096#32)

/-- What the comment of `load_icode` lets it assume of the image: no segment has more bytes
in the file than in memory, and no two touch the same page, nor the stack page. -/
structure Elf.Sane (elf : Elf) : Prop where
  filesz : ∀ ph ∈ elf.segments, ph.pFilesz.toNat ≤ ph.pMemsz.toNat
  apart : elf.segments.Pairwise fun a b => ∀ p, a.Touches p → ¬ b.Touches p
  stack : ∀ ph ∈ elf.segments, ¬ ph.Touches initialStack

def segmentPages : List Proghdr → Finset Nat
  | [] => ∅
  | ph :: phs => ph.pages ∪ segmentPages phs

/-! ## The contract -/

/-- The environment has the image and its stack page, and no other page. -/
structure Loaded (elf : Elf) (s : KState) (e d : Nat) : Prop where
  dir : (s.envs e).envPgdir = some d
  bytes : ∀ ph ∈ elf.segments, ∀ k, k < ph.pMemsz.toNat →
    loadByte s.pm d (ph.pVa + BitVec.ofNat 32 k) = some (ph.byte elf k)
  stack : translate s.pm d userStore (ustacktop - 4096#32) ≠ none
  others : ∀ va, va < utop → translate s.pm d pteP va ≠ none →
    pgnum va = initialStack ∨ ∃ ph ∈ elf.segments, ph.Touches (pgnum va)
  eip : (s.envs e).envTf.eip = elf.eEntry

/-- `load_icode` on the boot CPU panics or loads the image, and stores nothing at or above
`UTOP`. -/
def LoadContract (M : Machine) (s : KState) (e : Nat) (elf : Elf) : Prop :=
  match loadIcode M s 0 e elf with
  | .ok s' => ∃ d, (s.envs e).envPgdir = some d ∧ Loaded elf s' e d
  | .error (.panic _) => True
  | .error _ => False

/-- The loop of `load_icode` gets to map a segment: those before it fit, and memory lasts
for their pages and its own. -/
def Reached (s : KState) (done : List Proghdr) (ph : Proghdr) : Prop :=
  (∀ q ∈ done, q.Fits) ∧ ∃ free, LinkChain.Visits s.pm.ppLink s.pm.pageFreeList free ∧
    room (segmentPages (done ++ [ph])) ≤ free.length

/-- No segment that the loop reaches runs over the kernel or gets a page without touching
one. -/
def Sound (s : KState) (e : Nat) (elf : Elf) : Prop :=
  elf.eMagic = elfMagic → ∀ d, (s.envs e).envPgdir = some d → ∀ done ph rest,
    elf.segments = done ++ ph :: rest → Reached s done ph →
      ¬ ph.Overruns s.pm d ∧ ¬ ph.MapsSpare

/-! ## Kernel initialization -/

/-- Boot up to the calls of `env_create`, which the boot CPU makes. -/
inductive Initialised (M : Machine) (K : Nat → Prop) : KState → Prop
  | boot {s : KState} (h : Booted M K s) (hkern : KernTables M K s.pm M.kernPgdir) :
      Initialised M K s
  | create {s s' : KState} {elf : Elf} (h : Initialised M K s)
      (hcreate : envCreate M s 0 elf = .ok s') : Initialised M K s'

/-- Environment `e` has just come from `env_alloc`, in the kernel's initialization. -/
def NewEnv (M : Machine) (K : Nat → Prop) (s : KState) (e : Nat) : Prop :=
  ∃ s₀ parentId, Initialised M K s₀ ∧ envAlloc M s₀ parentId = .ok (e, s)

section

variable {M : Machine} {K : Nat → Prop} {m m' : PMap} {dirs : Nat → Option Nat} {e d : Nat}
  {ph : Proghdr} {elf : Elf}

/-! ## The pages of a segment -/

theorem mod_pgsize_eq_zero {va : Word} (h : va % 4096#32 = 0#32) : va.toNat % 4096 = 0 := by
  have hmod := congrArg BitVec.toNat h
  rwa [BitVec.toNat_umod] at hmod

theorem Proghdr.Fits.mem_pages_iff (h : ph.Fits) (p : Nat) : p ∈ ph.pages ↔ ph.Touches p := by
  obtain ⟨htop, hend, hspare⟩ := h
  have hlo := toNat_rounddown ph.pVa
  have hhi := toNat_roundup (ph.pVa + ph.pMemsz)
  have hutop : utop.toNat = 4005560320 := rfl
  have hlt := ph.pVa.isLt
  rw [BitVec.le_def] at htop
  unfold Proghdr.pages Proghdr.Touches regionPages
  rw [Finset.mem_Ico, pgnum_eq, pgnum_eq]
  by_cases hz : ph.pMemsz = 0#32
  · rw [hz, BitVec.add_zero] at hhi htop
    have hempty : ph.pVa < utop → ph.pVa.toNat % 4096 = 0 := fun hva => by
      by_contra hne
      exact hspare ⟨hz, hva, fun hmod => hne (mod_pgsize_eq_zero hmod)⟩
    rw [BitVec.lt_def] at hempty
    rw [hz, BitVec.add_zero]
    constructor
    · intro hp
      by_cases hva : ph.pVa.toNat < utop.toNat
      · have haligned := hempty hva
        split at hhi <;> omega
      · split at hhi <;> omega
    · rintro ⟨k, hk, -⟩
      exact absurd hk (Nat.not_lt_zero k)
  · have hend := hend hz
    have hsum : (ph.pVa + ph.pMemsz).toNat = ph.pVa.toNat + ph.pMemsz.toNat := by
      rw [BitVec.toNat_add]
      omega
    have hpos : 0 < ph.pMemsz.toNat := Nat.pos_of_ne_zero fun h0 => hz (BitVec.eq_of_toNat_eq h0)
    have hk : ∀ k, k < ph.pMemsz.toNat →
        (ph.pVa + BitVec.ofNat 32 k).toNat = ph.pVa.toNat + k := fun k hk => by
      rw [BitVec.toNat_add, BitVec.toNat_ofNat]
      omega
    rw [hsum] at hhi
    rw [if_pos (by omega)] at hhi
    constructor
    · rintro ⟨hplo, hphi⟩
      refine ⟨p * 4096 - ph.pVa.toNat, by omega, ?_⟩
      rw [pgnum_eq, hk _ (by omega)]
      omega
    · rintro ⟨k, hlt', rfl⟩
      rw [pgnum_eq, hk k hlt']
      omega

theorem mem_segmentPages {phs : List Proghdr} {p : Nat} :
    p ∈ segmentPages phs ↔ ∃ ph ∈ phs, p ∈ ph.pages := by
  induction phs with
  | nil => simp [segmentPages]
  | cons ph phs ih => simp [segmentPages, ih]

theorem segmentPages_concat (done : List Proghdr) (ph : Proghdr) :
    segmentPages (done ++ [ph]) = segmentPages done ∪ ph.pages := by
  ext p
  rw [Finset.mem_union, mem_segmentPages, mem_segmentPages]
  simp [or_and_right, exists_or]

/-! ## One segment -/

/-- The segments of `done` are loaded from the state `m₀` on, and the free list has paid for
their pages. -/
structure LoadedTo (M : Machine) (K : Nat → Prop) (elf : Elf) (dirs : Nat → Option Nat)
    (e d : Nat) (m₀ : PMap) (n : Nat) (done : List Proghdr) (m : PMap) (free : List Nat) :
    Prop where
  pages : UserPages M K m dirs e d (segmentPages done) free
  paid : free.length + room (segmentPages done) = n
  bytes : ∀ ph ∈ done, ∀ k, k < ph.pMemsz.toNat →
    loadByte m d (ph.pVa + BitVec.ofNat 32 k) = some (ph.byte elf k)
  kernel : KernelKept M K d m₀ m

/-- Pages that a segment fits in are not those of segments apart from it. -/
theorem not_mem_done {done : List Proghdr} (hfits : ∀ q ∈ done, q.Fits)
    (hapart : ∀ q ∈ done, ∀ p, q.Touches p → ¬ ph.Touches p) {p : Nat} (hp : ph.Touches p) :
    p ∉ segmentPages done := by
  intro hin
  obtain ⟨q, hq, hpq⟩ := mem_segmentPages.mp hin
  exact hapart q hq p (((hfits q hq).mem_pages_iff p).mp hpq) hp

/-- What the two stores of `load_icode` leave in the pages of a segment. -/
theorem UserPages.load_bytes {S : Finset Nat} {free : List Nat}
    (h : UserPages M K m dirs e d S free) (elf : Elf) (hin : ∀ p, ph.Touches p → p ∈ S)
    (hsize : ph.pFilesz.toNat ≤ ph.pMemsz.toNat)
    (hend : ph.pMemsz ≠ 0#32 → ph.pVa.toNat + ph.pMemsz.toNat ≤ utop.toNat) :
    ∃ m', (kernelStoreBytes m d ph.pVa (List.replicate ph.pMemsz.toNat 0) >>= fun m₁ =>
        kernelStoreBytes m₁ d ph.pVa
          ((List.range ph.pFilesz.toNat).map fun k => elf.binary (ph.pOffset.toNat + k))) =
        .ok m' ∧
      UserPages M K m' dirs e d S free ∧ KernelKept M K d m m' ∧
      (∀ k, k < ph.pMemsz.toNat →
        loadByte m' d (ph.pVa + BitVec.ofNat 32 k) = some (ph.byte elf k)) ∧
      ∀ va, pgnum va ∈ S → ¬ ph.Touches (pgnum va) → loadByte m' d va = loadByte m d va := by
  by_cases hz : ph.pMemsz = 0#32
  · rw [hz, show (0#32 : Word).toNat = 0 from rfl] at hsize
    rw [hz, Nat.le_zero.mp hsize]
    exact ⟨m, rfl, h, .refl m, fun k hk => absurd hk (Nat.not_lt_zero k), fun _ _ _ => rfl⟩
  have hend := hend hz
  obtain ⟨m₁, hset, h₁, hkern₁, hbytes₁, hother₁⟩ := h.kernelStore_ok ph.pVa
    (List.replicate ph.pMemsz.toNat 0) (by rw [List.length_replicate]; exact hend)
    fun k hk => hin _ ⟨k, by rwa [List.length_replicate] at hk, rfl⟩
  obtain ⟨m', hcpy, h', hkern', hbytes', hother'⟩ := h₁.kernelStore_ok ph.pVa
    ((List.range ph.pFilesz.toNat).map fun k => elf.binary (ph.pOffset.toNat + k))
    (by rw [List.length_map, List.length_range]; omega) fun k hk => by
      rw [List.length_map, List.length_range] at hk
      exact hin _ ⟨k, by omega, rfl⟩
  rw [List.length_replicate] at hother₁
  rw [List.length_map, List.length_range] at hother'
  refine ⟨m', ?_, h', hkern₁.trans hkern', fun k hk => ?_, fun va hva hnot => ?_⟩
  · rw [hset]
    exact hcpy
  · unfold Proghdr.byte
    by_cases hfile : k < ph.pFilesz.toNat
    · rw [if_pos hfile, hbytes' k (by rw [List.length_map, List.length_range]; exact hfile),
        List.getElem_map, List.getElem_range]
    · have hpast : ∀ j, j < ph.pFilesz.toNat →
          ph.pVa + BitVec.ofNat 32 k ≠ ph.pVa + BitVec.ofNat 32 j := fun j hj heq => by
        have hutop : utop.toNat = 4005560320 := rfl
        have hval := congrArg BitVec.toNat heq
        simp only [BitVec.toNat_add, BitVec.toNat_ofNat] at hval
        omega
      rw [if_neg hfile, hother' _ (hin _ ⟨k, hk, rfl⟩) hpast,
        hbytes₁ k (by rw [List.length_replicate]; exact hk), List.getElem_replicate]
      rfl
  · have houtside : ∀ k, k < ph.pMemsz.toNat → va ≠ ph.pVa + BitVec.ofNat 32 k :=
      fun k hk heq => hnot ⟨k, hk, by rw [heq]⟩
    rw [hother' va hva fun k hk => houtside k (by omega), hother₁ va hva houtside]

/-- `region_alloc` for a segment that passes the test against `UTOP`. -/
theorem LoadedTo.alloc {m₀ : PMap} {n : Nat} {done : List Proghdr} {free : List Nat}
    (h : LoadedTo M K elf dirs e d m₀ n done m free)
    (htop : roundup (ph.pVa + ph.pMemsz) ≤ utop)
    (hnew : ∀ p ∈ ph.pages, p ∉ segmentPages done) :
    (∃ m' free', regionAlloc M m (some d) ph.pVa ph.pMemsz = .ok m' ∧
      Extended M K dirs e d m m' (segmentPages done) (segmentPages (done ++ [ph])) free free' ∧
      free'.length + room (segmentPages (done ++ [ph])) = n) ∨
    ((∃ msg, regionAlloc M m (some d) ph.pVa ph.pMemsz = .error msg) ∧
      n < room (segmentPages (done ++ [ph]))) := by
  rw [segmentPages_concat]
  rcases regionAlloc_cases h.pages (BitVec.not_lt.mpr htop) hnew with
    ⟨m', free', hrun, hext⟩ | ⟨hrun, hroom⟩
  · exact .inl ⟨m', free', hrun, hext, hext.paid.trans h.paid⟩
  · exact .inr ⟨hrun, h.paid ▸ hroom⟩

/-- A segment that fits is loaded, or memory does not last. -/
theorem LoadedTo.step {m₀ : PMap} {n : Nat} {done : List Proghdr} {free : List Nat}
    (h : LoadedTo M K elf dirs e d m₀ n done m free) (hdone : ∀ q ∈ done, q.Fits)
    (hload : ph.pType = elfProgLoad) (hsize : ph.pFilesz.toNat ≤ ph.pMemsz.toNat)
    (hfits : ph.Fits) (hapart : ∀ q ∈ done, ∀ p, q.Touches p → ¬ ph.Touches p) :
    (∃ m' free', loadSegment M elf m d ph = .ok m' ∧
      LoadedTo M K elf dirs e d m₀ n (done ++ [ph]) m' free') ∨
    ((∃ msg, loadSegment M elf m d ph = .error (.panic msg)) ∧
      n < room (segmentPages (done ++ [ph]))) := by
  unfold loadSegment
  rw [if_neg (not_not.mpr hload)]
  rcases h.alloc hfits.1 fun p hp => not_mem_done hdone hapart ((hfits.mem_pages_iff p).mp hp) with
    ⟨m₁, free', hrun, hext, hroom⟩ | ⟨⟨msg, hrun⟩, hroom⟩
  · rw [hrun]
    obtain ⟨m', hstores, h', hkern, hbytes, hother⟩ := hext.pages.load_bytes elf
      (fun p hp => by
        rw [segmentPages_concat]
        exact Finset.mem_union_right _ ((hfits.mem_pages_iff p).mpr hp)) hsize hfits.2.1
    refine .inl ⟨m', free', hstores, h', hroom, fun q hq k hk => ?_,
      h.kernel.trans (hext.kernel.trans hkern)⟩
    rcases List.mem_append.mp hq with hq | hq
    · have htouch : q.Touches (pgnum (q.pVa + BitVec.ofNat 32 k)) := ⟨k, hk, rfl⟩
      have hin : pgnum (q.pVa + BitVec.ofNat 32 k) ∈ segmentPages done :=
        mem_segmentPages.mpr ⟨q, hq, ((hdone q hq).mem_pages_iff _).mpr htouch⟩
      have hin' : pgnum (q.pVa + BitVec.ofNat 32 k) ∈ segmentPages (done ++ [ph]) := by
        rw [segmentPages_concat]
        exact Finset.mem_union_left _ hin
      rw [hother _ hin' (hapart q hq _ htouch), hext.loadByte _ hin, h.bytes q hq k hk]
    · rw [List.mem_singleton.mp hq] at hk ⊢
      exact hbytes k hk
  · rw [hrun]
    exact .inr ⟨⟨msg, rfl⟩, hroom⟩

/-! ## A segment whose end wraps -/

/-- The pages a segment gets that passes the test against `UTOP` and ends above: none, or
the one of its first address. -/
theorem wrapped_pages (htop : roundup (ph.pVa + ph.pMemsz) ≤ utop)
    (habove : utop.toNat < ph.pVa.toNat + ph.pMemsz.toNat) {p : Nat} (hp : p ∈ ph.pages) :
    p = pgnum ph.pVa ∧ ph.pVa < utop ∧
      (roundup (ph.pVa + ph.pMemsz)).toNat = (pgnum ph.pVa + 1) * 4096 := by
  have hlo := toNat_rounddown ph.pVa
  have hhi := toNat_roundup (ph.pVa + ph.pMemsz)
  have hutop : utop.toNat = 4005560320 := rfl
  have hva := ph.pVa.isLt
  have hsz := ph.pMemsz.isLt
  rw [BitVec.le_def] at htop
  unfold Proghdr.pages regionPages at hp
  rw [Finset.mem_Ico, pgnum_eq, pgnum_eq] at hp
  rw [BitVec.toNat_add] at hhi
  rw [BitVec.lt_def, pgnum_eq]
  split at hhi <;> omega

/-- Such a segment starts above the stack page. -/
theorem ustacktop_le (hstack : ¬ ph.Touches initialStack)
    (habove : utop.toNat < ph.pVa.toNat + ph.pMemsz.toNat) : ustacktop.toNat ≤ ph.pVa.toNat := by
  have hutop : utop.toNat = 4005560320 := rfl
  have hstacktop : ustacktop.toNat = 4005552128 := rfl
  have hpage : initialStack = 977917 := by decide
  by_contra hlow
  refine hstack ⟨4005548032 - ph.pVa.toNat, by omega, ?_⟩
  rw [hpage, pgnum_eq, BitVec.toNat_add, BitVec.toNat_ofNat]
  omega

/-- Clearing it from `UTOP` on hits the kernel where the kernel can write. -/
theorem clear_high {va : Word} (hva : ¬ va < utop) (n : Nat) :
    kernelStoreBytes m d va (List.replicate (n + 1) 0) =
      if KernelWritable m d va then .error (.undefined "store to a kernel address")
      else .error (.panic "page fault in kernel mode") := by
  rw [List.replicate_succ, kernelStoreBytes_cons, if_neg hva]

/-- Clearing a page of the program from an address on gets to the next page. -/
theorem UserPages.clear_to_next {S : Finset Nat} {free : List Nat} {va : Word}
    (h : UserPages M K m dirs e d S free) (hva : va < utop) (hpage : pgnum va ∈ S) (n : Nat) :
    ∃ k m', (va + BitVec.ofNat 32 k).toNat = (pgnum va + 1) * 4096 ∧
      va.toNat + k = (pgnum va + 1) * 4096 ∧ UserPages M K m' dirs e d S free ∧
      KernelKept M K d m m' ∧
      kernelStoreBytes m d va (List.replicate (k + n) 0) =
        kernelStoreBytes m' d (va + BitVec.ofNat 32 k) (List.replicate n 0) := by
  have hutop : utop.toNat = 4005560320 := rfl
  have hdiv := pgnum_eq va
  rw [BitVec.lt_def] at hva
  obtain ⟨k, hk⟩ : ∃ k, (pgnum va + 1) * 4096 = va.toNat + k :=
    ⟨(pgnum va + 1) * 4096 - va.toNat, by omega⟩
  have hin : ∀ i, i < (List.replicate k (0 : BitVec 8)).length →
      pgnum (va + BitVec.ofNat 32 i) ∈ S := fun i hi => by
    rw [List.length_replicate] at hi
    have hsame : pgnum (va + BitVec.ofNat 32 i) = pgnum va := by
      rw [pgnum_eq, pgnum_eq, BitVec.toNat_add, BitVec.toNat_ofNat]
      omega
    rw [hsame]
    exact hpage
  obtain ⟨m', hset, h', hkept, -, -⟩ := h.kernelStore_ok _ (List.replicate k 0)
    (by rw [List.length_replicate]; omega) hin
  refine ⟨k, m', ?_, hk.symm, h', hkept, ?_⟩
  · rw [BitVec.toNat_add, BitVec.toNat_ofNat]
    omega
  · rw [← List.replicate_append_replicate, kernelStoreBytes_append, hset, List.length_replicate]
    rfl

/-- What clearing such a segment comes to: a page below `UTOP` that is not mapped, or the
first address above. -/
theorem UserPages.clear_wrapped {done : List Proghdr} {free : List Nat}
    (h : UserPages M K m dirs e d (segmentPages (done ++ [ph])) free)
    (hkern : KernTables M K m d) (hne : ph.pMemsz ≠ 0#32)
    (htop : roundup (ph.pVa + ph.pMemsz) ≤ utop)
    (habove : utop.toNat < ph.pVa.toNat + ph.pMemsz.toNat)
    (hstack : ¬ ph.Touches initialStack) (hnew : ∀ p, ph.Touches p → p ∉ segmentPages done) :
    (¬ ph.Overruns m d →
      ∃ msg, kernelStoreBytes m d ph.pVa (List.replicate ph.pMemsz.toNat 0) =
        .error (.panic msg)) ∧
    (ph.Overruns m d →
      kernelStoreBytes m d ph.pVa (List.replicate ph.pMemsz.toNat 0) =
        .error (.undefined "store to a kernel address")) := by
  have hutop : utop.toNat = 4005560320 := rfl
  have hstacktop : ustacktop.toNat = 4005552128 := rfl
  have hlt := ph.pVa.isLt
  have hva := ustacktop_le hstack habove
  obtain ⟨n, hn⟩ := Nat.exists_eq_succ_of_ne_zero
    (fun h0 => hne (BitVec.eq_of_toNat_eq h0) : ph.pMemsz.toNat ≠ 0)
  by_cases hhigh : ¬ ph.pVa < utop
  · rw [hn, Nat.succ_eq_add_one, clear_high hhigh]
    by_cases hw : KernelWritable m d ph.pVa
    · rw [if_pos hw]
      refine ⟨fun hno => absurd ⟨hne, htop, habove, fun hlow => absurd hlow hhigh, ?_⟩ hno,
        fun _ => rfl⟩
      rw [if_neg hhigh]
      exact hw
    · rw [if_neg hw]
      refine ⟨fun _ => ⟨_, rfl⟩, fun ho => absurd ho.2.2.2.2 ?_⟩
      rw [if_neg hhigh]
      exact hw
  have hlow := not_not.mp hhigh
  have hlow' := hlow
  rw [BitVec.lt_def] at hlow'
  have hfirst : ph.Touches (pgnum ph.pVa) :=
    ⟨0, by omega, by rw [show ph.pVa + BitVec.ofNat 32 0 = ph.pVa from BitVec.add_zero _]⟩
  by_cases hpage : pgnum ph.pVa ∈ ph.pages
  swap
  · have hnot : pgnum ph.pVa ∉ segmentPages (done ++ [ph]) := by
      rw [segmentPages_concat, Finset.mem_union, not_or]
      exact ⟨hnew _ hfirst, hpage⟩
    rw [hn, Nat.succ_eq_add_one, List.replicate_succ, h.fault hlow hnot]
    refine ⟨fun _ => ⟨_, rfl⟩, fun ho => absurd ?_ hpage⟩
    have hround := ho.2.2.2.1 hlow
    unfold Proghdr.pages regionPages
    rw [hround, Finset.mem_Ico, pgnum_eq, pgnum_eq, toNat_rounddown, pgnum_eq]
    omega
  -- The page of the first address is mapped, and cleared to its end.
  obtain ⟨-, -, hround⟩ := wrapped_pages htop habove hpage
  have hle : (roundup (ph.pVa + ph.pMemsz)).toNat ≤ utop.toNat := htop
  have hdiv := pgnum_eq ph.pVa
  have hmapped : pgnum ph.pVa ∈ segmentPages (done ++ [ph]) := by
    rw [segmentPages_concat]
    exact Finset.mem_union_right _ hpage
  obtain ⟨j, hj⟩ : ∃ j, ph.pVa.toNat + ph.pMemsz.toNat = (pgnum ph.pVa + 1) * 4096 + (j + 1) :=
    ⟨ph.pVa.toNat + ph.pMemsz.toNat - (pgnum ph.pVa + 1) * 4096 - 1, by omega⟩
  obtain ⟨k, m₂, hnext, hk, h₂, hkept, hrun⟩ := h.clear_to_next hlow hmapped (j + 1)
  rw [show ph.pMemsz.toNat = k + (j + 1) by omega, hrun]
  by_cases hend : (pgnum ph.pVa + 1) * 4096 = utop.toNat
  · have heq : ph.pVa + BitVec.ofNat 32 k = utop := BitVec.eq_of_toNat_eq (hnext.trans hend)
    have hiff : KernelWritable m₂ d utop ↔ KernelWritable m d utop :=
      hkept.kernelWritable_iff hkern (by decide)
    rw [heq, clear_high (by decide)]
    by_cases hw : KernelWritable m₂ d utop
    · rw [if_pos hw]
      refine ⟨fun hno => absurd ⟨hne, htop, habove, fun _ => BitVec.eq_of_toNat_eq
        (hround.trans hend), ?_⟩ hno, fun _ => rfl⟩
      rw [if_pos hlow]
      exact hiff.mp hw
    · rw [if_neg hw]
      refine ⟨fun _ => ⟨_, rfl⟩, fun ho => absurd (hiff.mpr ?_) hw⟩
      have hlast := ho.2.2.2.2
      rwa [if_pos hlow] at hlast
  · have hlast : ph.pVa + BitVec.ofNat 32 k < utop := by
      rw [BitVec.lt_def, hnext]
      omega
    have hpg : pgnum (ph.pVa + BitVec.ofNat 32 k) = pgnum ph.pVa + 1 := by
      rw [pgnum_eq, hnext]
      omega
    have hnot : pgnum (ph.pVa + BitVec.ofNat 32 k) ∉ segmentPages (done ++ [ph]) := by
      rw [segmentPages_concat, Finset.mem_union, not_or]
      refine ⟨hnew _ ⟨k, by omega, rfl⟩, fun hmem => ?_⟩
      have heq := (wrapped_pages htop habove hmem).1
      omega
    rw [List.replicate_succ, h₂.fault hlast hnot]
    refine ⟨fun _ => ⟨_, rfl⟩, fun ho => absurd ?_ hend⟩
    rw [← hround, ho.2.2.2.1 hlow]

/-! ## What loading any image leaves -/

/-- The state `load_icode` leaves once memory is `m`. -/
def loadedState (M : Machine) (s : KState) (c e d : Nat) (elf : Elf) (m : PMap) : KState :=
  (({ s.lcr3 c d with pm := m } : KState).setEnv e fun env =>
    { env with envTf := { env.envTf with eip := elf.eEntry } }).lcr3 c M.kernPgdir

variable {s s' : KState} {c : Nat}

/-- `load_icode` on an environment with a page directory: the loop has turns to make for
the segments alone. -/
theorem loadIcode_eq (hmagic : elf.eMagic = elfMagic) (hd : (s.envs e).envPgdir = some d) :
    loadIcode M s c e elf = (do
      let m ← elf.segments.foldlM (fun m ph => loadSegment M elf m d ph) s.pm
      let m ← panics (regionAlloc M m (some d) (ustacktop - 4096#32) 4096#32)
      pure (loadedState M s c e d elf m)) := by
  have hturn : (fun m ph => loadSegment M elf m d ph) =
      fun m (ph : Proghdr) => if decide (ph.pType = elfProgLoad) = true then
        loadSegment M elf m d ph else pure m := by
    funext m ph
    by_cases hload : ph.pType = elfProgLoad
    · rw [if_pos (decide_eq_true hload)]
    · rw [if_neg (by rw [decide_eq_true_iff]; exact hload)]
      unfold loadSegment
      rw [if_pos hload]
      rfl
  unfold loadIcode
  rw [if_neg (not_not.mpr hmagic), hd]
  dsimp only
  unfold Elf.segments
  rw [List.foldlM_filter, ← hturn]
  rfl

theorem loadSegment_grown {free : List Nat} (h : PageInv M K m dirs free fun _ => 0)
    (hd : dirs e = some d) :
    Post (loadSegment M elf m d ph)
      (fun m' => (∃ free', PageInv M K m' dirs free' fun _ => 0) ∧ Grown M K dirs m m' ∧
        (ph.pType = elfProgLoad → ph.MapsSpare → pageEntry m' dirs e (pgnum ph.pVa) ≠ 0#32))
      fun _ => True := by
  unfold loadSegment
  by_cases hload : ph.pType ≠ elfProgLoad
  · rw [if_pos hload]
    exact post_ok.mpr ⟨⟨free, h⟩, .refl m, fun hl => absurd hl hload⟩
  rw [if_neg hload]
  have hall : Post (panics (regionAlloc M m (some d) ph.pVa ph.pMemsz)) _ fun _ => True :=
    (post_panics (L := fun _ => True) (regionAlloc_post h hd)).imp (fun _ hq => hq)
      fun _ _ => trivial
  refine hall.bind ?_
  rintro m₁ ⟨⟨free₁, h₁⟩, hg, hpage⟩
  refine (kernelStoreBytes_frame h₁ hd).bind ?_
  rintro m₂ ⟨h₂, -, hpte₂, hmem₂⟩
  refine (kernelStoreBytes_frame h₂ hd).imp ?_ fun _ _ => trivial
  rintro m₃ ⟨h₃, -, hpte₃, hmem₃⟩
  have hpte : ∀ e i j, pteWord m₃ dirs e i j = pteWord m₁ dirs e i j :=
    fun e i j => (hpte₃ e i j).trans (hpte₂ e i j)
  refine ⟨⟨free₁, h₃⟩, ⟨fun e i j hne => ?_, fun q hq => ?_⟩, fun _ hspare => ?_⟩
  · rw [hpte]
    exact hg.mapped e i j hne
  · rw [hmem₃ q hq, hmem₂ q hq, hg.outside q hq]
  · obtain ⟨hz, hlow, hmod⟩ := hspare
    have hlo := toNat_rounddown ph.pVa
    have hhi := toNat_roundup ph.pVa
    have hutop : utop.toNat = 4005560320 := rfl
    have hne : ph.pVa.toNat % 4096 ≠ 0 := fun h0 => hmod (BitVec.eq_of_toNat_eq (by
      rw [BitVec.toNat_umod]
      exact h0))
    rw [BitVec.lt_def] at hlow
    rw [if_pos (by omega)] at hhi
    have hpg : pgnum ph.pVa = pgnum (rounddown ph.pVa) := by
      rw [pgnum_eq, pgnum_eq, hlo]
      omega
    rw [hpg, pageEntry_pgnum, hpte]
    refine hpage ?_
    unfold pgsize
    rw [hz, BitVec.add_zero, hhi, hlo]
    omega

/-- Loading any image, if it comes to an end, keeps what was mapped, and its empty segments
have their page. -/
theorem loadIcode_grown (h : BaseInv M K s) (hc : s.curenv c = none)
    (hd : (s.envs e).envPgdir = some d) :
    Post (loadIcode M s c e elf) (fun s' => BaseInv M K s' ∧ s'.curenv c = none ∧
      Grown M K s.dirs s.pm s'.pm ∧ s'.dirs = s.dirs ∧
      ∀ ph ∈ elf.segments, ph.MapsSpare → pageEntry s'.pm s'.dirs e (pgnum ph.pVa) ≠ 0#32)
      fun _ => True := by
  by_cases hmagic : elf.eMagic = elfMagic
  swap
  · unfold loadIcode
    rw [if_pos hmagic]
    exact post_error.mpr trivial
  rw [loadIcode_eq hmagic hd]
  obtain ⟨free, hp⟩ := h.pages
  have hd' : s.dirs e = some d := hd
  have hfold : Post (elf.segments.foldlM (fun m ph => loadSegment M elf m d ph) s.pm)
      (fun m => (∃ free', PageInv M K m s.dirs free' fun _ => 0) ∧ Grown M K s.dirs s.pm m ∧
        ∀ ph ∈ elf.segments, ph.MapsSpare → pageEntry m s.dirs e (pgnum ph.pVa) ≠ 0#32)
      fun _ => True := by
    refine Post.foldlM (I := fun done m => (∃ free', PageInv M K m s.dirs free' fun _ => 0) ∧
      Grown M K s.dirs s.pm m ∧
      ∀ ph ∈ done, ph.MapsSpare → pageEntry m s.dirs e (pgnum ph.pVa) ≠ 0#32)
      elf.segments ?_ ⟨⟨free, hp⟩, .refl s.pm, fun ph hph => absurd hph List.not_mem_nil⟩
    rintro done ph m ⟨rest, hrest⟩ ⟨⟨free', hm⟩, hg, hspare⟩
    have hin : ph ∈ elf.segments := by rw [hrest]; simp
    have hload : ph.pType = elfProgLoad := of_decide_eq_true (List.mem_filter.mp hin).2
    refine (loadSegment_grown hm hd').imp ?_ fun _ _ => trivial
    rintro m' ⟨hm', hg', hpage⟩
    refine ⟨hm', hg.trans hg', fun q hq hqs => ?_⟩
    rcases List.mem_append.mp hq with hq | hq
    · exact hg'.mapped _ _ _ (hspare q hq hqs)
    · rw [List.mem_singleton.mp hq] at hqs ⊢
      exact hpage hload hqs
  refine hfold.bind ?_
  rintro m ⟨⟨free', hm⟩, hg, hspare⟩
  have hstack : Post (panics (regionAlloc M m (some d) (ustacktop - 4096#32) 4096#32)) _
      fun _ => True :=
    (post_panics (L := fun _ => True) (regionAlloc_post hm hd')).imp (fun _ hq => hq)
      fun _ _ => trivial
  refine hstack.bind ?_
  rintro m' ⟨hm', hg', -⟩
  have hc' : (({ s.lcr3 c d with pm := m' } : KState).setEnv e fun env =>
      { env with envTf := { env.envTf with eip := elf.eEntry } }).curenv c = none :=
    (KState.curenv_lcr3 s d c c).trans hc
  have hdirs : (loadedState M s c e d elf m').dirs = s.dirs :=
    KState.dirs_setEnv { s.lcr3 c d with pm := m' } e
      (fun env => { env with envTf := { env.envTf with eip := elf.eEntry } }) rfl
  refine post_pure.mpr ⟨BaseInv.lcr3 (BaseInv.setEnv ((h.lcr3 hc d).setPm hm')
    ⟨rfl, rfl, rfl, Iff.rfl, id⟩) hc' M.kernPgdir, ?_, hg.trans hg', hdirs, fun ph hph hs => ?_⟩
  · unfold loadedState
    rw [KState.curenv_lcr3]
    exact hc'
  · rw [hdirs]
    exact hg'.mapped _ _ _ (hspare ph hph hs)

/-! ## The state `load_icode` starts from -/

theorem envAlloc_initPgdir {parentId : Word} (h : envAlloc M s parentId = .ok (e, s')) :
    ∃ p m, pageAlloc s.pm allocZero = (some p, m) ∧ s'.pm = initPgdir M m p ∧
      s'.dirs e = some p := by
  unfold envAlloc at h
  cases hhead : s.envFreeList with
  | none =>
      rw [hhead] at h
      cases h
  | some e' =>
      rw [hhead] at h
      unfold envSetupVm at h
      dsimp only at h
      cases halloc : pageAlloc s.pm allocZero with
      | mk r m =>
      cases r with
      | none =>
          rw [halloc] at h
          cases h
      | some p =>
          rw [halloc] at h
          obtain ⟨rfl, rfl⟩ := Prod.mk.inj (Except.ok.inj h)
          refine ⟨p, m, rfl, rfl, ?_⟩
          show (KState.envs _ e').envPgdir = some p
          rw [KState.envs_setEnv_self, KState.envs_setEnv_self]

theorem initPgdir_mem {p : Nat} (i : Nat) : (initPgdir M m p).mem p i =
    if i = pdxUvpt then page2pa p ||| pteP ||| pteU else m.mem M.kernPgdir i := by
  unfold initPgdir
  by_cases hi : i = pdxUvpt
  · rw [if_pos hi, hi, mem_write_self]
  · rw [if_neg hi, mem_write_of_index_ne hi]
    exact congrFun (Function.update_self p _ m.mem) i

/-- The self-map of a directory cannot be written. -/
theorem selfMap_not_writable (p : Nat) :
    (page2pa p ||| pteP ||| pteU) &&& kernelStore ≠ kernelStore := by
  intro h
  have hbit := congrArg (fun w : Word => w.getLsbD 1) h
  simp [page2pa, pteP, pteU, pteW, kernelStore] at hbit

/-- A page directory that has just been set up. -/
theorem initPgdir_kernTables {p : Nat} (hkern : KernTables M K m M.kernPgdir) :
    KernTables M K (initPgdir M m p) p := by
  intro i hlo hhi hw hps
  rw [initPgdir_mem] at hw hps ⊢
  by_cases hi : i = pdxUvpt
  · rw [if_pos hi] at hw
    exact absurd hw (selfMap_not_writable p)
  · rw [if_neg hi] at hw hps ⊢
    exact hkern i hlo hhi hw hps

/-- `env_alloc` leaves an address space without pages. -/
theorem envAlloc_empty {parentId : Word} (h : BaseInv M K s)
    (hkern : KernTables M K s.pm M.kernPgdir) (halloc : envAlloc M s parentId = .ok (e, s')) :
    BaseInv M K s' ∧ s'.cpus = s.cpus ∧ KernTables M K s'.pm M.kernPgdir ∧
      ∃ d free, UserPages M K s'.pm s'.dirs e d ∅ free ∧ KernTables M K s'.pm d := by
  obtain ⟨hbase, hcpus, -⟩ := (h.envAlloc_post parentId).value halloc
  obtain ⟨p, m, hpage, hpm, hdir⟩ := envAlloc_initPgdir halloc
  obtain ⟨free, hp⟩ := h.pages
  obtain ⟨free', hp'⟩ := hbase.pages
  rcases h.envAlloc_cases parentId with ⟨r, hr, -⟩ | ⟨e', s'', d, hok, -, hnone, hdirs, hpte, hmem⟩
  · rw [hr] at halloc
    cases halloc
  obtain ⟨rfl, rfl⟩ := Prod.mk.inj (Except.ok.inj (hok.symm.trans halloc))
  have hkp : M.kernPgdir ≠ p := fun heq => kernPgdir_not_pool (M := M) (K := K)
    (heq ▸ hp'.target_pool (.dir e') p hdir)
  have hkmem : s''.pm.mem M.kernPgdir = s.pm.mem M.kernPgdir :=
    hmem free _ hp fun hin => kernPgdir_not_pool (hp.free_pool _ hin)
  have hkern' : KernTables M K s''.pm M.kernPgdir := by
    unfold KernTables
    rw [hkmem]
    exact hkern
  have hm : m.mem M.kernPgdir = s''.pm.mem M.kernPgdir := by
    rw [hpm]
    exact ((mem_write_of_page_ne hkp).trans (Function.update_of_ne hkp _ _)).symm
  have hempty : ∀ i, pdeWord s''.pm s''.dirs e' i = 0#32 := fun i => by
    unfold pdeWord
    rw [hdir]
    dsimp only
    by_cases hi : i < pdxUtop
    · have hne : i ≠ pdxUvpt := by
        unfold pdxUtop at hi
        unfold pdxUvpt
        omega
      rw [if_pos hi, hpm, initPgdir_mem, if_neg hne, hm]
      exact hp'.kern_low i hi
    · rw [if_neg hi]
  refine ⟨hbase, hcpus, hkern', p, free', ⟨hp', hdir, fun q hq => absurd hq (Finset.notMem_empty q),
    fun q _ => pteWord_of_no_pde (hempty _), fun q hq => absurd hq (Finset.notMem_empty q),
    fun i hne => absurd (hempty i) hne⟩, ?_⟩
  rw [hpm]
  refine initPgdir_kernTables ?_
  unfold KernTables
  rw [hm]
  exact hkern'

theorem Initialised.inv (h : Initialised M K s) :
    BaseInv M K s ∧ s.curenv 0 = none ∧ KernTables M K s.pm M.kernPgdir := by
  induction h with
  | boot h hkern => exact ⟨h.base, (h.cpus 0).1, hkern⟩
  | @create s s' elf h hcreate ih =>
      obtain ⟨hbase, hcur, hkern⟩ := ih
      unfold envCreate at hcreate
      cases halloc : envAlloc M s 0#32 with
      | error r =>
          rw [halloc] at hcreate
          cases hcreate
      | ok x =>
          obtain ⟨e, s₁⟩ := x
          rw [halloc] at hcreate
          obtain ⟨hbase₁, hcpus, hkern₁, d, free, hpages, -⟩ := envAlloc_empty hbase hkern halloc
          have hcur₁ : s₁.curenv 0 = none := by
            rw [KState.curenv, hcpus]
            exact hcur
          obtain ⟨hbase', hcur', hg, -, -⟩ :=
            (loadIcode_grown hbase₁ hcur₁ hpages.dir).value hcreate
          refine ⟨hbase', hcur', ?_⟩
          unfold KernTables
          rw [hg.outside _ kernPgdir_not_pool]
          exact hkern₁

/-- An environment from `env_alloc` has no page, and the kernel's page tables are not on
the free list. -/
theorem NewEnv.start (h : NewEnv M K s e) : ∃ d free, BaseInv M K s ∧ s.curenv 0 = none ∧
    UserPages M K s.pm s.dirs e d ∅ free ∧ KernTables M K s.pm d := by
  obtain ⟨s₀, parentId, hinit, halloc⟩ := h
  obtain ⟨hbase, hcur, hkern⟩ := hinit.inv
  obtain ⟨hbase', hcpus, -, d, free, hpages, hkern'⟩ := envAlloc_empty hbase hkern halloc
  refine ⟨d, free, hbase', ?_, hpages, hkern'⟩
  rw [KState.curenv, hcpus]
  exact hcur

/-! ## The loop -/

section

variable {m₀ : PMap} {n : Nat} {done rest : List Proghdr} {free : List Nat}

theorem Elf.Sane.of_split (h : elf.Sane) (hsplit : elf.segments = done ++ ph :: rest) :
    ph.pType = elfProgLoad ∧ ph.pFilesz.toNat ≤ ph.pMemsz.toNat ∧
      (∀ q ∈ done, ∀ p, q.Touches p → ¬ ph.Touches p) ∧ ¬ ph.Touches initialStack := by
  have hin : ph ∈ elf.segments := by
    rw [hsplit]
    exact List.mem_append_right _ List.mem_cons_self
  have hapart := h.apart
  rw [hsplit, List.pairwise_append] at hapart
  exact ⟨of_decide_eq_true (List.mem_filter.mp hin).2, h.filesz ph hin,
    fun q hq => hapart.2.2 q hq ph List.mem_cons_self, h.stack ph hin⟩

theorem KernelKept.overruns_iff (h : KernelKept M K d m m') (hkern : KernTables M K m d) :
    ph.Overruns m' d ↔ ph.Overruns m d := by
  have hva : ¬ (if ph.pVa < utop then utop else ph.pVa) < utop := by
    by_cases hlow : ph.pVa < utop
    · rw [if_pos hlow]
      decide
    · rwa [if_neg hlow]
  unfold Proghdr.Overruns
  rw [h.kernelWritable_iff hkern hva]

/-- A segment that passes the test against `UTOP` and ends above it. -/
theorem LoadedTo.wrapped (h : LoadedTo M K elf dirs e d m₀ n done m free)
    (hdone : ∀ q ∈ done, q.Fits) (hkern : KernTables M K m₀ d) (hsane : elf.Sane)
    (hsplit : elf.segments = done ++ ph :: rest) (hne : ph.pMemsz ≠ 0#32)
    (htop : roundup (ph.pVa + ph.pMemsz) ≤ utop)
    (habove : utop.toNat < ph.pVa.toNat + ph.pMemsz.toNat) :
    (¬ ph.Overruns m₀ d → ∃ msg, loadSegment M elf m d ph = .error (.panic msg)) ∧
    (ph.Overruns m₀ d → room (segmentPages (done ++ [ph])) ≤ n →
      loadSegment M elf m d ph = .error (.undefined "store to a kernel address")) := by
  obtain ⟨hload, -, hapart, hstack⟩ := hsane.of_split hsplit
  have hnew : ∀ p, ph.Touches p → p ∉ segmentPages done :=
    fun p hp => not_mem_done hdone hapart hp
  have hpos : 0 < ph.pMemsz.toNat := Nat.pos_of_ne_zero fun h0 => hne (BitVec.eq_of_toNat_eq h0)
  have hfirst : ph.Touches (pgnum ph.pVa) :=
    ⟨0, hpos, by rw [show ph.pVa + BitVec.ofNat 32 0 = ph.pVa from BitVec.add_zero _]⟩
  unfold loadSegment
  rw [if_neg (not_not.mpr hload)]
  rcases h.alloc htop fun p hp => (wrapped_pages htop habove hp).1 ▸ hnew _ hfirst with
    ⟨m₁, free', hrun, hext, -⟩ | ⟨⟨msg, hrun⟩, hroom⟩
  · have hkept := h.kernel.trans hext.kernel
    obtain ⟨hpanic, hover⟩ := hext.pages.clear_wrapped (hkept.kernTables hkern) hne htop habove
      hstack hnew
    rw [hkept.overruns_iff hkern] at hpanic hover
    rw [hrun]
    refine ⟨fun hno => ?_, fun ho _ => ?_⟩
    · obtain ⟨msg, hset⟩ := hpanic hno
      refine ⟨msg, ?_⟩
      show (kernelStoreBytes m₁ d _ _ >>= _) = _
      rw [hset]
      rfl
    · show (kernelStoreBytes m₁ d _ _ >>= _) = _
      rw [hover ho]
      rfl
  · rw [hrun]
    exact ⟨fun _ => ⟨msg, rfl⟩, fun _ hle => absurd hroom (Nat.not_lt.mpr hle)⟩

/-- The pages of a segment that does not fit are not mapped, unless they are all. -/
theorem pages_new (hdone : ∀ q ∈ done, q.Fits)
    (hapart : ∀ q ∈ done, ∀ p, q.Touches p → ¬ ph.Touches p)
    (htop : roundup (ph.pVa + ph.pMemsz) ≤ utop) :
    (∀ p ∈ ph.pages, p ∉ segmentPages done) ∨
      segmentPages (done ++ [ph]) = segmentPages done := by
  by_cases hz : ph.pMemsz = 0#32
  · by_cases hspare : ph.MapsSpare
    · have hone : ∀ p ∈ ph.pages, p = pgnum ph.pVa := fun p hp => by
        have hlo := toNat_rounddown ph.pVa
        have hhi := toNat_roundup ph.pVa
        unfold Proghdr.pages regionPages at hp
        rw [hz, BitVec.add_zero, Finset.mem_Ico, pgnum_eq, pgnum_eq] at hp
        rw [pgnum_eq]
        split at hhi <;> omega
      by_cases hin : pgnum ph.pVa ∈ segmentPages done
      · refine .inr ?_
        rw [segmentPages_concat, Finset.union_eq_left]
        exact fun p hp => hone p hp ▸ hin
      · exact .inl fun p hp => hone p hp ▸ hin
    · have hfits : ph.Fits := ⟨htop, fun hne => absurd hz hne, hspare⟩
      exact .inl fun p hp => not_mem_done hdone hapart ((hfits.mem_pages_iff p).mp hp)
  · by_cases hend : ph.pVa.toNat + ph.pMemsz.toNat ≤ utop.toNat
    · have hfits : ph.Fits := ⟨htop, fun _ => hend, fun hspare => hz hspare.1⟩
      exact .inl fun p hp => not_mem_done hdone hapart ((hfits.mem_pages_iff p).mp hp)
    · have hpos : 0 < ph.pMemsz.toNat :=
        Nat.pos_of_ne_zero fun h0 => hz (BitVec.eq_of_toNat_eq h0)
      have hfirst : ph.Touches (pgnum ph.pVa) :=
        ⟨0, hpos, by rw [show ph.pVa + BitVec.ofNat 32 0 = ph.pVa from BitVec.add_zero _]⟩
      exact .inl fun p hp => (wrapped_pages htop (Nat.lt_of_not_le hend) hp).1 ▸
        not_mem_done hdone hapart hfirst

/-- A turn of the loop loads its segment or panics, if the segment is neither of the two
kinds when memory lasts for it. -/
theorem LoadedTo.turn (h : LoadedTo M K elf dirs e d m₀ n done m free)
    (hdone : ∀ q ∈ done, q.Fits) (hkern : KernTables M K m₀ d) (hsane : elf.Sane)
    (hsplit : elf.segments = done ++ ph :: rest)
    (hsound : room (segmentPages (done ++ [ph])) ≤ n → ¬ ph.Overruns m₀ d ∧ ¬ ph.MapsSpare) :
    Post (loadSegment M elf m d ph)
      (fun m' => ph.Fits ∧ ∃ free', LoadedTo M K elf dirs e d m₀ n (done ++ [ph]) m' free')
      fun stop => ∃ msg, stop = .panic msg := by
  obtain ⟨hload, hsize, hapart, hstack⟩ := hsane.of_split hsplit
  by_cases htop : roundup (ph.pVa + ph.pMemsz) ≤ utop
  swap
  · unfold loadSegment regionAlloc
    rw [if_neg (not_not.mpr hload)]
    dsimp only
    rw [if_pos (BitVec.not_le.mp htop)]
    exact post_error.mpr ⟨_, rfl⟩
  by_cases hroom : room (segmentPages (done ++ [ph])) ≤ n
  · obtain ⟨hover, hspare⟩ := hsound hroom
    by_cases hend : ph.pMemsz ≠ 0#32 → ph.pVa.toNat + ph.pMemsz.toNat ≤ utop.toNat
    · have hfits : ph.Fits := ⟨htop, hend, hspare⟩
      rcases h.step hdone hload hsize hfits hapart with ⟨m', free', hrun, h'⟩ | ⟨⟨msg, hrun⟩, -⟩
      · rw [hrun]
        exact post_ok.mpr ⟨hfits, free', h'⟩
      · rw [hrun]
        exact post_error.mpr ⟨msg, rfl⟩
    · obtain ⟨hne, habove⟩ := Classical.not_imp.mp hend
      obtain ⟨msg, hrun⟩ :=
        (h.wrapped hdone hkern hsane hsplit hne htop (Nat.lt_of_not_le habove)).1 hover
      rw [hrun]
      exact post_error.mpr ⟨msg, rfl⟩
  · have hnew : ∀ p ∈ ph.pages, p ∉ segmentPages done := by
      rcases pages_new hdone hapart htop with hnew | hsame
      · exact hnew
      · rw [hsame, ← h.paid] at hroom
        exact absurd (Nat.le_add_left _ _) hroom
    rcases h.alloc htop hnew with ⟨m', free', -, -, hpaid⟩ | ⟨⟨msg, hrun⟩, -⟩
    · exact absurd (hpaid ▸ Nat.le_add_left _ _) hroom
    · unfold loadSegment
      rw [if_neg (not_not.mpr hload), hrun]
      exact post_error.mpr ⟨msg, rfl⟩

theorem LoadedTo.start (h : UserPages M K m dirs e d ∅ free) :
    LoadedTo M K elf dirs e d m free.length [] m free :=
  ⟨h, rfl, fun _ hph => absurd hph List.not_mem_nil, .refl m⟩

/-- Segments that fit are loaded while memory lasts. -/
theorem loadSegments_ok (h : UserPages M K m dirs e d ∅ free) (hsane : elf.Sane)
    (hsplit : elf.segments = done ++ rest) (hdone : ∀ q ∈ done, q.Fits)
    (hroom : room (segmentPages done) ≤ free.length) :
    ∃ m' free', done.foldlM (fun m ph => loadSegment M elf m d ph) m = .ok m' ∧
      LoadedTo M K elf dirs e d m free.length done m' free' := by
  have hpost : Post (done.foldlM (fun m ph => loadSegment M elf m d ph) m)
      (fun m' => ∃ free', LoadedTo M K elf dirs e d m free.length done m' free')
      fun _ => False := by
    refine Post.foldlM (I := fun pre m' => ∃ free', LoadedTo M K elf dirs e d m free.length pre
      m' free') done ?_ ⟨free, .start h⟩
    rintro pre ph m₁ ⟨post, rfl⟩ ⟨free₁, h₁⟩
    have hpre : ∀ q ∈ pre, q.Fits := fun q hq => hdone q (List.mem_append_left _ hq)
    have hfits : ph.Fits := hdone ph (List.mem_append_right _ List.mem_cons_self)
    obtain ⟨hload, hsize, hapart, -⟩ := hsane.of_split (by rw [hsplit, List.append_assoc]; rfl)
    rcases h₁.step hpre hload hsize hfits hapart with ⟨m', free', hrun, h'⟩ | ⟨-, hlt⟩
    · rw [hrun]
      exact post_ok.mpr ⟨free', h'⟩
    · have hsub : segmentPages (pre ++ [ph]) ⊆ segmentPages (pre ++ ph :: post) := fun p hp => by
        obtain ⟨q, hq, hpq⟩ := mem_segmentPages.mp hp
        refine mem_segmentPages.mpr ⟨q, ?_, hpq⟩
        rw [show pre ++ ph :: post = (pre ++ [ph]) ++ post by simp]
        exact List.mem_append_left _ hq
      have hmono := room_mono hsub
      omega
  cases hrun : done.foldlM (fun m ph => loadSegment M elf m d ph) m with
  | error stop => exact (hpost.exit hrun).elim
  | ok m' =>
      obtain ⟨free', h'⟩ := hpost.value hrun
      exact ⟨m', free', rfl, h'⟩

/-- The loop over a sound image loads it or panics. -/
theorem loadSegments_post (h : UserPages M K s.pm s.dirs e d ∅ free)
    (hkern : KernTables M K s.pm d) (hsane : elf.Sane) (hmagic : elf.eMagic = elfMagic)
    (hsound : Sound s e elf) :
    Post (elf.segments.foldlM (fun m ph => loadSegment M elf m d ph) s.pm)
      (fun m' => (∀ q ∈ elf.segments, q.Fits) ∧
        ∃ free', LoadedTo M K elf s.dirs e d s.pm free.length elf.segments m' free')
      fun stop => ∃ msg, stop = .panic msg := by
  refine Post.foldlM (I := fun done m' => (∀ q ∈ done, q.Fits) ∧
    ∃ free', LoadedTo M K elf s.dirs e d s.pm free.length done m' free') elf.segments ?_
    ⟨fun q hq => absurd hq List.not_mem_nil, free, .start h⟩
  rintro done ph m ⟨rest, hsplit⟩ ⟨hdone, free₁, h₁⟩
  refine (h₁.turn hdone hkern hsane hsplit fun hroom => ?_).imp ?_ fun _ hs => hs
  · exact hsound hmagic d h.dir done ph rest hsplit ⟨hdone, free, h.inv.chain, hroom⟩
  · rintro m' ⟨hfits, hloaded⟩
    refine ⟨fun q hq => ?_, hloaded⟩
    rcases List.mem_append.mp hq with hq | hq
    · exact hdone q hq
    · rw [List.mem_singleton.mp hq]
      exact hfits

theorem mem_stack_region (p : Nat) :
    p ∈ regionPages (ustacktop - 4096#32) 4096#32 ↔ p = initialStack := by
  have hlo : pgnum (rounddown (ustacktop - 4096#32)) = initialStack := by decide
  have hhi : pgnum (roundup (ustacktop - 4096#32 + 4096#32)) = initialStack + 1 := by decide
  unfold regionPages
  rw [Finset.mem_Ico, hlo, hhi]
  omega

/-- The last step of `load_icode`, once the segments are loaded. -/
theorem LoadedTo.finish (h : LoadedTo M K elf s.dirs e d s.pm n elf.segments m free)
    (hfits : ∀ q ∈ elf.segments, q.Fits) (hsane : elf.Sane) :
    (∃ m', regionAlloc M m (some d) (ustacktop - 4096#32) 4096#32 = .ok m' ∧
      Loaded elf (loadedState M s 0 e d elf m') e d) ∨
    ∃ msg, regionAlloc M m (some d) (ustacktop - 4096#32) 4096#32 = .error msg := by
  have hnew : ∀ p ∈ regionPages (ustacktop - 4096#32) 4096#32, p ∉ segmentPages elf.segments := by
    intro p hp hin
    rw [(mem_stack_region p).mp hp] at hin
    obtain ⟨q, hq, hpq⟩ := mem_segmentPages.mp hin
    exact hsane.stack q hq (((hfits q hq).mem_pages_iff _).mp hpq)
  rcases regionAlloc_cases h.pages (by decide) hnew with ⟨m', free', hrun, hext⟩ | ⟨hrun, -⟩
  swap
  · exact .inr hrun
  have hself : (loadedState M s 0 e d elf m').envs e =
      { s.envs e with envTf := { (s.envs e).envTf with eip := elf.eEntry } } :=
    KState.envs_setEnv_self { s.lcr3 0 d with pm := m' } e fun env =>
      { env with envTf := { env.envTf with eip := elf.eEntry } }
  refine .inl ⟨m', hrun, ?_, fun ph hph k hk => ?_, ?_, fun va hva htr => ?_, ?_⟩
  · rw [hself]
    exact h.pages.dir
  · have hin : pgnum (ph.pVa + BitVec.ofNat 32 k) ∈ segmentPages elf.segments :=
      mem_segmentPages.mpr ⟨ph, hph, ((hfits ph hph).mem_pages_iff _).mpr ⟨k, hk, rfl⟩⟩
    exact (hext.loadByte _ hin).trans (h.bytes ph hph k hk)
  · have hin : pgnum (ustacktop - 4096#32) ∈
        segmentPages elf.segments ∪ regionPages (ustacktop - 4096#32) 4096#32 :=
      Finset.mem_union_right _ ((mem_stack_region _).mpr rfl)
    have htr := (cell_eq_some.mp (hext.pages.cell_eq hin)).2.1
    show translate m' d userStore (ustacktop - 4096#32) ≠ none
    rw [htr]
    exact Option.some_ne_none _
  · have hi := (pdx_lt_pdxUtop_iff va).mpr hva
    have hin : pgnum va ∈ segmentPages elf.segments ∪
        regionPages (ustacktop - 4096#32) 4096#32 := by
      by_contra hout
      refine htr ?_
      show translate m' d pteP va = none
      rw [hext.pages.inv.translate_eq hext.pages.dir hi (by decide) (by decide),
        ← pageEntry_pgnum, hext.pages.others _ hout]
      decide
    rcases Finset.mem_union.mp hin with hin | hin
    · obtain ⟨q, hq, hpq⟩ := mem_segmentPages.mp hin
      exact .inr ⟨q, hq, ((hfits q hq).mem_pages_iff _).mp hpq⟩
    · exact .inl ((mem_stack_region _).mp hin)
  · rw [hself]

end

/-! ## The contract -/

theorem loadContract_of_sound (hnew : NewEnv M K s e) (hsane : elf.Sane)
    (hsound : Sound s e elf) : LoadContract M s e elf := by
  obtain ⟨d, free, -, -, hpages, hkern⟩ := hnew.start
  unfold LoadContract
  by_cases hmagic : elf.eMagic = elfMagic
  swap
  · unfold loadIcode
    rw [if_pos hmagic]
    trivial
  rw [loadIcode_eq hmagic hpages.dir]
  have hloop := loadSegments_post hpages hkern hsane hmagic hsound
  cases hrun : elf.segments.foldlM (fun m ph => loadSegment M elf m d ph) s.pm with
  | error stop =>
      obtain ⟨msg, rfl⟩ := hloop.exit hrun
      trivial
  | ok m =>
      obtain ⟨hfits, free', hloaded⟩ := hloop.value hrun
      rw [Except.ok_bind_eq]
      rcases hloaded.finish hfits hsane with ⟨m', hlast, hdone⟩ | ⟨msg, hlast⟩
      · rw [hlast]
        exact ⟨d, hpages.dir, hdone⟩
      · rw [hlast]
        trivial

/-- A segment of the first kind that the loop reaches is cleared over the kernel. -/
theorem loadIcode_overruns {d : Nat} {done rest : List Proghdr} (hnew : NewEnv M K s e)
    (hsane : elf.Sane) (hmagic : elf.eMagic = elfMagic) (hd : (s.envs e).envPgdir = some d)
    (hsplit : elf.segments = done ++ ph :: rest) (hreach : Reached s done ph)
    (hover : ph.Overruns s.pm d) :
    loadIcode M s 0 e elf = .error (.undefined "store to a kernel address") := by
  obtain ⟨d', free, -, -, hpages, hkern⟩ := hnew.start
  obtain rfl : d' = d := Option.some.inj (hpages.dir.symm.trans hd)
  obtain ⟨hdone, free', hchain, hroom⟩ := hreach
  obtain rfl : free' = free := LinkChain.unique hchain hpages.inv.chain
  have hmono : room (segmentPages done) ≤ room (segmentPages (done ++ [ph])) := by
    rw [segmentPages_concat]
    exact room_mono Finset.subset_union_left
  obtain ⟨m, free₁, hrun, hloaded⟩ :=
    loadSegments_ok hpages hsane hsplit hdone (Nat.le_trans hmono hroom)
  have hstop := (hloaded.wrapped hdone hkern hsane hsplit hover.1 hover.2.1 hover.2.2.1).2 hover
    hroom
  rw [loadIcode_eq hmagic hd, hsplit, List.foldlM_append, hrun, Except.ok_bind_eq,
    List.foldlM_cons, hstop]
  rfl

/-- A segment of the second kind has its page when `load_icode` comes to its end. -/
theorem loadIcode_spare (hnew : NewEnv M K s e) (hph : ph ∈ elf.segments) (hspare : ph.MapsSpare)
    (hstack : pgnum ph.pVa ≠ initialStack)
    (hapart : ∀ q ∈ elf.segments, ¬ q.Touches (pgnum ph.pVa))
    (hends : ∀ msg, loadIcode M s 0 e elf ≠ .error (.panic msg)) : ¬ LoadContract M s e elf := by
  obtain ⟨d, free, hbase, hcur, hpages, -⟩ := hnew.start
  unfold LoadContract
  cases hrun : loadIcode M s 0 e elf with
  | error stop =>
      cases stop with
      | panic msg => exact absurd hrun (hends msg)
      | left s' => exact id
      | monitor => exact id
      | undefined why => exact id
  | ok s' =>
      obtain ⟨hbase', hcur', hg, hdirs, hmapped⟩ :=
        (loadIcode_grown hbase hcur hpages.dir).value hrun
      obtain ⟨free', hp'⟩ := hbase'.pages
      have hd' : s'.dirs e = some d := by
        rw [hdirs]
        exact hpages.dir
      rintro ⟨d', hd, hloaded⟩
      obtain rfl : d' = d := Option.some.inj (hd.symm.trans hpages.dir)
      have hentry := hmapped ph hph hspare
      rw [pageEntry_pgnum] at hentry
      have hbit := hp'.pte_perm e _ _ hentry
      have htr : translate s'.pm d' pteP ph.pVa ≠ none := by
        rw [hp'.translate_eq hd' ((pdx_lt_pdxUtop_iff _).mpr hspare.2.1) (by decide) (by decide),
          if_pos hbit]
        exact Option.some_ne_none _
      rcases hloaded.others ph.pVa hspare.2.1 htr with heq | ⟨q, hq, htouch⟩
      · exact hstack heq
      · exact hapart q hq htouch

/-- `load_icode` of a sound image keeps its contract.  It breaks it when it reaches a
segment that runs over the kernel, so that among the images without an empty segment
inside a page the sound ones are those it keeps the contract for; and it breaks it when it
ends after an empty segment got a page that no segment touches. -/
theorem loadIcode_contract (hnew : NewEnv M K s e) (hsane : elf.Sane) :
    (Sound s e elf → LoadContract M s e elf) ∧
    ((∀ ph ∈ elf.segments, ¬ ph.MapsSpare) → LoadContract M s e elf → Sound s e elf) ∧
    ∀ ph ∈ elf.segments, ph.MapsSpare → pgnum ph.pVa ≠ initialStack →
      (∀ q ∈ elf.segments, ¬ q.Touches (pgnum ph.pVa)) →
      (∀ msg, loadIcode M s 0 e elf ≠ .error (.panic msg)) → ¬ LoadContract M s e elf := by
  refine ⟨loadContract_of_sound hnew hsane, fun hspare hcontract => ?_,
    fun ph hph hspare hstack hapart hends => loadIcode_spare hnew hph hspare hstack hapart hends⟩
  intro hmagic d hd done ph rest hsplit hreach
  have hin : ph ∈ elf.segments := by
    rw [hsplit]
    exact List.mem_append_right _ List.mem_cons_self
  refine ⟨fun hover => ?_, hspare ph hin⟩
  unfold LoadContract at hcontract
  rw [loadIcode_overruns hnew hsane hmagic hd hsplit hreach hover] at hcontract
  exact hcontract

end

/-! ## On a concrete machine -/

/-- The machine of `pcBoot` with all of memory mapped at `KERNBASE`, for the kernel alone. -/
def kernbaseBoot : KState :=
  { pcBoot with
    pm :=
      { pcBoot.pm with
        mem := fun p i =>
          if p = 0x100 ∧ 960 ≤ i ∧ i < 1024 then
            page2pa (0x101 + (i - 960)) ||| pteP ||| pteW ||| pteU
          else if 0x101 ≤ p ∧ p < 0x141 then page2pa ((p - 0x101) * 1024 + i) ||| pteW ||| pteP
          else 0#32 } }

theorem kernbaseBoot_pde (i : Nat) : kernbaseBoot.pm.mem 0x100 i =
    if 0x100 = 0x100 ∧ 960 ≤ i ∧ i < 1024 then
      page2pa (0x101 + (i - 960)) ||| pteP ||| pteW ||| pteU
    else 0#32 := rfl

theorem kernbaseBoot_booted : Booted (pc .roundRobin) lowPages kernbaseBoot := by
  obtain ⟨hpages, href, -, henvs, hlist, hcpus⟩ := pcBoot_booted .roundRobin
  refine ⟨hpages, href, fun i hi => ?_, henvs, hlist, hcpus⟩
  unfold pdxUtop at hi
  refine (kernbaseBoot_pde i).trans (if_neg fun hx => ?_)
  omega

theorem kernbaseBoot_tables :
    KernTables (pc .roundRobin) lowPages kernbaseBoot.pm (pc .roundRobin).kernPgdir := by
  intro i hlo hhi hw hps hpool
  have hkept : kept (pc .roundRobin) (pgnum (kernbaseBoot.pm.mem 0x100 i)) := by
    rw [kernbaseBoot_pde]
    by_cases hi : 960 ≤ i
    · rw [if_pos ⟨rfl, hi, hhi⟩, pgnum_or, pgnum_or, pgnum_or, pgnum_page2pa (by omega)]
      simp only [pgnum_pteP, pgnum_pteW, pgnum_pteU, Nat.or_zero]
      refine .inr (.inr (.inr ⟨?_, ?_⟩))
      · rw [show pgnum extphysmem = 0x100 by decide]
        omega
      · show 0x101 + (i - 960) < 0x7F80
        omega
    · rw [if_neg fun hx => hi hx.2.1]
      exact .inl (by decide)
  exact hpool.2.1 hkept

/-- Its first environment, as `env_alloc` leaves it. -/
def firstEnv : KState :=
  match envAlloc (pc .roundRobin) kernbaseBoot 0#32 with
  | .ok (_, s) => s
  | .error _ => kernbaseBoot

theorem firstEnv_new : NewEnv (pc .roundRobin) lowPages firstEnv 0 :=
  ⟨kernbaseBoot, 0#32, .boot kernbaseBoot_booted kernbaseBoot_tables, rfl⟩

/-- An image with one segment. -/
def oneSegment (va filesz memsz : Word) : Elf :=
  { eMagic := elfMagic
    eEntry := 0x800020#32
    phdrs := [⟨elfProgLoad, 0x1000#32, va, filesz, memsz⟩]
    binary := fun k => BitVec.ofNat 8 (k + 1) }

theorem oneSegment_sane {va filesz memsz : Word} (hsize : filesz.toNat ≤ memsz.toNat)
    (hstack : ∀ k, k < memsz.toNat → pgnum (va + BitVec.ofNat 32 k) ≠ initialStack) :
    (oneSegment va filesz memsz).Sane := by
  have hone : (oneSegment va filesz memsz).segments =
      [⟨elfProgLoad, 0x1000#32, va, filesz, memsz⟩] := rfl
  constructor
  · rw [hone]
    intro ph hph
    rw [List.mem_singleton.mp hph]
    exact hsize
  · rw [hone]
    exact List.pairwise_singleton _ _
  · rw [hone]
    rintro ph hph ⟨k, hk, heq⟩
    rw [List.mem_singleton.mp hph] at hk heq
    exact hstack k hk heq

/-- A byte in the last page of the address space: the end of its page is 0 in 32 bits. -/
theorem loadIcode_wraps : ∃ s, NewEnv (pc .roundRobin) lowPages s 0 ∧
    (oneSegment 0xfffff000#32 1#32 1#32).Sane ∧
    ¬ LoadContract (pc .roundRobin) s 0 (oneSegment 0xfffff000#32 1#32 1#32) := by
  refine ⟨firstEnv, firstEnv_new, oneSegment_sane (by decide) fun k hk => ?_, ?_⟩
  · obtain rfl : k = 0 := Nat.lt_one_iff.mp hk
    decide
  · unfold LoadContract
    have hrun : ∃ why, loadIcode (pc .roundRobin) firstEnv 0 0
        (oneSegment 0xfffff000#32 1#32 1#32) = .error (.undefined why) := ⟨_, rfl⟩
    obtain ⟨why, hrun⟩ := hrun
    rw [hrun]
    exact id

/-- Eight bytes, three of them in the file, are loaded.  Without a byte in memory the same
segment gets a page nothing touches. -/
theorem loadIcode_contract_pc : ∃ s, NewEnv (pc .roundRobin) lowPages s 0 ∧
    (∃ s', loadIcode (pc .roundRobin) s 0 0 (oneSegment 0x800020#32 3#32 8#32) = .ok s') ∧
    LoadContract (pc .roundRobin) s 0 (oneSegment 0x800020#32 3#32 8#32) ∧
    ¬ LoadContract (pc .roundRobin) s 0 (oneSegment 0x800020#32 0#32 0#32) := by
  have hpage : ∀ k, k < (8#32 : Word).toNat →
      pgnum (0x800020#32 + BitVec.ofNat 32 k) ≠ initialStack := by decide
  have hfull : (oneSegment 0x800020#32 3#32 8#32).Sane := oneSegment_sane (by decide) hpage
  have hempty : (oneSegment 0x800020#32 0#32 0#32).Sane :=
    oneSegment_sane (by decide) fun k hk => absurd hk (Nat.not_lt_zero k)
  refine ⟨firstEnv, firstEnv_new, ⟨_, rfl⟩, ?_, ?_⟩
  · refine (loadIcode_contract firstEnv_new hfull).1 ?_
    intro _ d _ done ph rest hsplit _
    have hin : ph ∈ (oneSegment 0x800020#32 3#32 8#32).segments := by
      rw [hsplit]
      exact List.mem_append_right _ List.mem_cons_self
    rw [List.mem_singleton.mp hin]
    exact ⟨fun hover => absurd hover.2.2.1 (by decide), fun hspare => absurd hspare.1 (by decide)⟩
  · have hends : ∃ s', loadIcode (pc .roundRobin) firstEnv 0 0
        (oneSegment 0x800020#32 0#32 0#32) = .ok s' := ⟨_, rfl⟩
    obtain ⟨s', hends⟩ := hends
    refine (loadIcode_contract firstEnv_new hempty).2.2 _ List.mem_cons_self
      ⟨rfl, by decide, by decide⟩ (by decide) ?_ fun msg hrun => ?_
    · rintro q hq ⟨k, hk, -⟩
      rw [List.mem_singleton.mp hq] at hk
      exact absurd hk (Nat.not_lt_zero k)
    · rw [hends] at hrun
      cases hrun

end Jos
end Sisop

import Mathlib.Data.Nat.Bitwise
import Mathlib.Tactic.Common

/-!
# Words, pages and page table entries

The 32-bit words of `inc/types.h` and the paging constants and macros of
`inc/mmu.h` and `inc/memlayout.h`.  A virtual or physical address, a page table
entry and a permission argument are all the same type in the source, and are all
`Word` here.  Page numbers and table indices are natural numbers.

The lemmas turn the shifts and masks into division and remainder, where `omega`
applies, and the disjunctions that build an entry into statements about its page
number.
-/

namespace Sisop
namespace Jos

abbrev Word := BitVec 32

def pgsize : Nat := 4096
def nptentries : Nat := 1024

def pteP : Word := 0x001#32
def pteW : Word := 0x002#32
def pteU : Word := 0x004#32
def ptePwt : Word := 0x008#32
def ptePcd : Word := 0x010#32
def ptePs : Word := 0x080#32
def pteAvail : Word := 0xE00#32
def pteSyscall : Word := pteAvail ||| pteP ||| pteW ||| pteU

def utop : Word := 0xeec00000#32
def ulim : Word := 0xef800000#32
def uxstacktop : Word := utop
def ustacktop : Word := 0xeebfe000#32
def pftemp : Word := 0x007ff000#32

/-- Physical pages of the I/O hole and of the startup code for the other CPUs. -/
def iophysmem : Word := 0x0A0000#32
def extphysmem : Word := 0x100000#32
def mpentryPaddr : Word := 0x7000#32

/-- `PGNUM`: the page number field of an address. -/
def pgnum (la : Word) : Nat := (la >>> 12).toNat

/-- `PDX`: the page directory index of an address. -/
def pdx (la : Word) : Nat := ((la >>> 22) &&& 0x3FF#32).toNat

/-- `PTX`: the page table index of an address. -/
def ptx (la : Word) : Nat := ((la >>> 12) &&& 0x3FF#32).toNat

/-- `PGADDR`: the address made of a directory index, a table index and an offset. -/
def pgaddr (d t o : Nat) : Word :=
  BitVec.ofNat 32 d <<< 22 ||| BitVec.ofNat 32 t <<< 12 ||| BitVec.ofNat 32 o

/-- `ROUNDDOWN(a, PGSIZE)` on 32-bit words. -/
def rounddown (a : Word) : Word := a - a % 4096#32

/-- `ROUNDUP(a, PGSIZE)` on 32-bit words; the sum wraps. -/
def roundup (a : Word) : Word := rounddown (a + 4096#32 - 1#32)

/-- `page2pa`: the physical address of a page. -/
def page2pa (pp : Nat) : Word := BitVec.ofNat 32 pp <<< 12

/-- `PDX(UTOP)`: the directory entries below this one are the user's. -/
def pdxUtop : Nat := 955

example : pdx utop = pdxUtop := by decide

/-! ## Fields of an address -/

theorem pgnum_eq (la : Word) : pgnum la = la.toNat / 4096 := by
  rw [pgnum, BitVec.toNat_ushiftRight, Nat.shiftRight_eq_div_pow]

theorem pdx_eq (la : Word) : pdx la = la.toNat / 4194304 := by
  have h := la.isLt
  rw [pdx, BitVec.toNat_and, BitVec.toNat_ushiftRight, Nat.shiftRight_eq_div_pow]
  rw [show (0x3FF#32).toNat = 2 ^ 10 - 1 from rfl, Nat.and_two_pow_sub_one_eq_mod]
  omega

theorem ptx_eq (la : Word) : ptx la = la.toNat / 4096 % 1024 := by
  rw [ptx, BitVec.toNat_and, BitVec.toNat_ushiftRight, Nat.shiftRight_eq_div_pow]
  exact Nat.and_two_pow_sub_one_eq_mod _ 10

theorem ptx_lt (la : Word) : ptx la < nptentries := by
  rw [ptx_eq]
  exact Nat.mod_lt _ (by decide)

theorem pdx_lt (la : Word) : pdx la < 1024 := by
  have h := la.isLt
  rw [pdx_eq]
  omega

/-- `UTOP` is a multiple of the size a directory entry maps, so an address is
below it exactly when its directory index is. -/
theorem pdx_lt_pdxUtop_iff (la : Word) : pdx la < pdxUtop ↔ la < utop := by
  rw [pdx_eq, BitVec.lt_def, show utop.toNat = 955 * 4194304 from rfl, pdxUtop]
  omega

theorem toNat_pgaddr {d t : Nat} (hd : d < 1024) (ht : t < 1024) :
    (pgaddr d t 0).toNat = d * 4194304 + t * 4096 := by
  have hdlt : d * 2 ^ 22 < 2 ^ 32 :=
    Nat.lt_of_lt_of_le (Nat.mul_lt_mul_of_pos_right hd (Nat.two_pow_pos 22)) (by decide)
  have htlt : t * 2 ^ 12 < 2 ^ 32 :=
    Nat.lt_of_lt_of_le (Nat.mul_lt_mul_of_pos_right ht (Nat.two_pow_pos 12)) (by decide)
  have hor : d * 2 ^ 22 ||| t * 2 ^ 12 = d * 2 ^ 22 + t * 2 ^ 12 := by
    have hlow : t * 2 ^ 12 < 2 ^ 22 :=
      Nat.lt_of_lt_of_le (Nat.mul_lt_mul_of_pos_right ht (Nat.two_pow_pos 12)) (by decide)
    rw [Nat.mul_comm d]
    exact (Nat.two_pow_add_eq_or_of_lt hlow d).symm
  simp only [pgaddr, BitVec.toNat_or, BitVec.toNat_shiftLeft, BitVec.toNat_ofNat,
    Nat.shiftLeft_eq, Nat.zero_mod, Nat.or_zero]
  rw [Nat.mod_eq_of_lt (show d < 2 ^ 32 by omega), Nat.mod_eq_of_lt (show t < 2 ^ 32 by omega),
    Nat.mod_eq_of_lt hdlt, Nat.mod_eq_of_lt htlt, hor]
  rfl

theorem pdx_pgaddr {d t : Nat} (hd : d < 1024) (ht : t < 1024) : pdx (pgaddr d t 0) = d := by
  rw [pdx_eq, toNat_pgaddr hd ht]
  omega

theorem ptx_pgaddr {d t : Nat} (hd : d < 1024) (ht : t < 1024) : ptx (pgaddr d t 0) = t := by
  rw [ptx_eq, toNat_pgaddr hd ht]
  omega

/-- A page-aligned address is the one its two indices make. -/
theorem pgaddr_pdx_ptx {la : Word} (h : la % 4096#32 = 0#32) : pgaddr (pdx la) (ptx la) 0 = la := by
  have hlt := la.isLt
  have hmod : la.toNat % 4096 = 0 := by
    have h' := congrArg BitVec.toNat h
    rwa [BitVec.toNat_umod] at h'
  refine BitVec.eq_of_toNat_eq ?_
  rw [toNat_pgaddr (pdx_lt la) (ptx_lt la), pdx_eq, ptx_eq]
  omega

/-! ## Fields of a page table entry -/

theorem toNat_page2pa {pp : Nat} (h : pp < 2 ^ 20) : (page2pa pp).toNat = pp * 4096 := by
  rw [page2pa, BitVec.toNat_shiftLeft, BitVec.toNat_ofNat, Nat.shiftLeft_eq,
    Nat.mod_eq_of_lt (show pp < 2 ^ 32 by omega)]
  omega

theorem pgnum_page2pa {pp : Nat} (h : pp < 2 ^ 20) : pgnum (page2pa pp) = pp := by
  rw [pgnum_eq, toNat_page2pa h]
  omega

/-- The page number of a disjunction is the disjunction of the page numbers.
This is where address bits in a permission argument reach the frame. -/
theorem pgnum_or (a b : Word) : pgnum (a ||| b) = pgnum a ||| pgnum b := by
  simp only [pgnum, BitVec.ushiftRight_or_distrib, BitVec.toNat_or]

theorem pgnum_lt (la : Word) : pgnum la < 2 ^ 20 := by
  have h := la.isLt
  rw [pgnum_eq]
  omega

theorem pgnum_eq_zero {perm : Word} (h : perm.toNat < 4096) : pgnum perm = 0 := by
  rw [pgnum_eq]
  omega

@[simp] theorem pgnum_pteP : pgnum pteP = 0 := by decide
@[simp] theorem pgnum_pteU : pgnum pteU = 0 := by decide
@[simp] theorem pgnum_pteW : pgnum pteW = 0 := by decide

/-- The entry `page_insert` writes refers to the page inserted when the
permission argument has no address bit outside it. -/
theorem pgnum_entry {pp : Nat} {perm : Word} (hpp : pp < 2 ^ 20) (hperm : pp ||| pgnum perm = pp) :
    pgnum (page2pa pp ||| perm ||| pteP) = pp := by
  rw [pgnum_or, pgnum_or, pgnum_page2pa hpp, pgnum_pteP, hperm, Nat.or_zero]

theorem or_pteP_and (w : Word) : (w ||| pteP) &&& pteP = pteP := by
  ext i hi
  simp
  tauto

theorem or_pteP_ne_zero (w : Word) : w ||| pteP ≠ 0#32 := by
  intro h
  have h' := or_pteP_and w
  rw [h] at h'
  exact absurd h' (by decide)

/-- A word with no bit outside a mask is at most the mask. -/
theorem toNat_le_of_and_not {w mask : Word} (h : w &&& ~~~mask = 0#32) : w.toNat ≤ mask.toNat := by
  have hw : w &&& mask = w := by
    ext i hi
    have hbit := congrArg (fun v : Word => v[i]) h
    simp at hbit ⊢
    exact hbit
  rw [← hw, BitVec.toNat_and]
  exact Nat.and_le_right

end Jos
end Sisop

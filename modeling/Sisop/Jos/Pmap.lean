import Mathlib.Logic.Function.Basic
import Sisop.Jos.Mmu

/-!
# Physical pages and page tables

The page allocator and the two-level page tables of `kern/pmap.c`, translated
function by function.

A `struct PageInfo *` and the physical page it stands for are both the index
into `pages`.  A `pte_t *` is a page and the index of a word in it.  `mem` is
physical memory, one word at a time, and holds page tables, page directories and
user data alike, so an entry that names the wrong page is a reference to that
page here too.  `pp_link` and `page_free_list` are the links of the source, not
a list.

There is no TLB: `tlb_invalidate` does nothing, and a translation is always the one
of the page tables as they are now.  On the machine, `invlpg` empties the entry of
its own processor only, and another that runs under the same directory may go on
with the old one.

A panic is the error of `Except String`, with the message of the source.  A
`NULL` page directory is dereferenced by `pgdir_walk`, and the kernel then
panics in its own page fault handler.
-/

namespace Sisop
namespace Jos

/-- Which scheduler the kernel was built with. -/
inductive SchedBuild
  | roundRobin
  | priorities
  deriving DecidableEq, Repr

def ncpuMax : Nat := 8

/-- What boot finds or decides once: the size of physical memory, the first page
after the kernel image and the pages `boot_alloc` handed out, the page of
`kern_pgdir` among those, the number of CPUs, and the scheduler compiled in.
Physical memory is at most the 256 MB mapped at `KERNBASE`. -/
structure Machine where
  npages : Nat
  kernEnd : Nat
  kernPgdir : Nat
  ncpu : Nat
  build : SchedBuild
  npages_le : npages ≤ 0x10000
  ncpu_pos : 0 < ncpu
  ncpu_le : ncpu ≤ ncpuMax
  le_kernPgdir : pgnum extphysmem ≤ kernPgdir
  kernPgdir_lt : kernPgdir < kernEnd

/-- `pages`, `page_free_list` and physical memory. -/
structure PMap where
  ppRef : Nat → BitVec 16
  ppLink : Nat → Option Nat
  pageFreeList : Option Nat
  mem : Nat → Nat → Word

/-- A pointer to a page table entry. -/
structure PtePtr where
  page : Nat
  index : Nat
  deriving DecidableEq, Repr

namespace PMap

def read (m : PMap) (p : PtePtr) : Word := m.mem p.page p.index

def write (m : PMap) (p : PtePtr) (w : Word) : PMap :=
  { m with mem := Function.update m.mem p.page (Function.update (m.mem p.page) p.index w) }

/-- `memset(page2kva(pp), 0, PGSIZE)`. -/
def zero (m : PMap) (pp : Nat) : PMap := { m with mem := Function.update m.mem pp fun _ => 0#32 }

def setRef (m : PMap) (pp : Nat) (n : BitVec 16) : PMap :=
  { m with ppRef := Function.update m.ppRef pp n }

/-- `pp->pp_ref++`. -/
def incref (m : PMap) (pp : Nat) : PMap := m.setRef pp (m.ppRef pp + 1#16)

end PMap

def eNoMem : Int := 4
def allocZero : Nat := 1

variable (M : Machine)

/-- The pages `page_init` keeps out of the free list. -/
def kept (i : Nat) : Prop :=
  i = 0 ∨ pgnum mpentryPaddr = i ∨ (pgnum iophysmem ≤ i ∧ i < pgnum extphysmem) ∨
    (pgnum extphysmem ≤ i ∧ i < M.kernEnd)

instance (i : Nat) : Decidable (kept M i) := inferInstanceAs (Decidable (_ ∨ _))

/-- One turn of the loop of `page_init`. -/
def pageInitStep (m : PMap) (i : Nat) : PMap :=
  if kept M i then { m with ppLink := Function.update m.ppLink i none }
  else
    { m with
      ppLink := Function.update m.ppLink i m.pageFreeList
      ppRef := Function.update m.ppRef i 0#16
      pageFreeList := some i }

def pageInit (m : PMap) : PMap := (List.range M.npages).foldl (pageInitStep M) m

/-- `KADDR`, which panics on a physical address past the end of memory, and gives
the page the address is in. -/
def kaddr (pa : Word) : Except String Nat :=
  if M.npages ≤ pgnum pa then .error "KADDR called with invalid pa" else .ok (pgnum pa)

def pa2page (pa : Word) : Except String Nat :=
  if M.npages ≤ pgnum pa then .error "pa2page called with invalid pa" else .ok (pgnum pa)

def pageAlloc (m : PMap) (allocFlags : Nat) : Option Nat × PMap :=
  match m.pageFreeList with
  | none => (none, m)
  | some freePage =>
      let m := { m with
        pageFreeList := m.ppLink freePage
        ppLink := Function.update m.ppLink freePage none }
      (some freePage, if allocFlags &&& allocZero ≠ 0 then m.zero freePage else m)

def pageFree (m : PMap) (pp : Nat) : Except String PMap :=
  if m.ppRef pp ≠ 0#16 then .error "page_free: pp_ref is nonzero"
  else if m.ppLink pp ≠ none then .error "page_free: pp_link is not NULL"
  else .ok { m with
    ppLink := Function.update m.ppLink pp m.pageFreeList
    pageFreeList := some pp }

def pageDecref (m : PMap) (pp : Nat) : Except String PMap :=
  let m := m.setRef pp (m.ppRef pp - 1#16)
  if m.ppRef pp = 0#16 then pageFree m pp else .ok m

/-- The first half of `pgdir_walk`: a missing page table is allocated, counted
and entered in the directory when the caller asks for it and memory lasts. -/
def pgdirGrow (m : PMap) (dir : Nat) (va : Word) (create : Bool) : PMap :=
  if m.mem dir (pdx va) = 0#32 ∧ create = true then
    match pageAlloc m allocZero with
    | (none, m) => m
    | (some page, m) =>
        (m.incref page).write ⟨dir, pdx va⟩ (page2pa page ||| pteP ||| pteW ||| pteU)
  else m

def pgdirWalk (m : PMap) (pgdir : Option Nat) (va : Word) (create : Bool) :
    Except String (Option PtePtr × PMap) :=
  match pgdir with
  | none => .error "page fault in kernel mode"
  | some dir => do
      let m := pgdirGrow m dir va create
      if m.mem dir (pdx va) ≠ 0#32 then
        let pte ← kaddr M (m.mem dir (pdx va))
        pure (some ⟨pte, ptx va⟩, m)
      else pure (none, m)

/-- `page_lookup`: the page mapped at `va` and its entry, which is what the
source leaves in `*pte_store`.  The presence test of the source is
`*pte && PTE_P`, that is `*pte ≠ 0`. -/
def pageLookup (m : PMap) (pgdir : Option Nat) (va : Word) :
    Except String (Option (Nat × PtePtr)) := do
  let (pte, _) ← pgdirWalk M m pgdir va false
  match pte with
  | none => pure none
  | some pte =>
      if m.read pte = 0#32 then pure none
      else
        let page ← pa2page M (m.read pte)
        pure (some (page, pte))

def pageRemove (m : PMap) (pgdir : Option Nat) (va : Word) : Except String PMap := do
  match ← pageLookup M m pgdir va with
  | none => pure m
  | some (pageRmv, pte) =>
      let m ← pageDecref m pageRmv
      pure (m.write pte 0#32)

def pageInsert (m : PMap) (pgdir : Option Nat) (pp : Nat) (va : Word) (perm : Word) :
    Except String (Int × PMap) := do
  let (pageTable, m) ← pgdirWalk M m pgdir va true
  match pageTable with
  | none => pure (-eNoMem, m)
  | some pageTable =>
      let m := m.incref pp
      let m ← pageRemove M m pgdir va
      pure (0, m.write pageTable (page2pa pp ||| perm ||| pteP))

end Jos
end Sisop

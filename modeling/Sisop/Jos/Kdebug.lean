import Sisop.Jos.UserMem

/-!
# Debugging information

`debuginfo_eip` of `kern/kdebug.c` looks an address up in a table of stabs.  For an
address of a program the table is where the program's `UserStabData` says it is, so
all that is read there is recorded, byte by byte, between the checks that passed.

The difference of two pointers to stabs is what the kernel computes for it: a shift
and a product, which give the number of stabs between them when there is one, and any
`int` otherwise.  There is no result when the sum of the ends of a region is not an
`int`.
-/

namespace Sisop
namespace Jos

/-- `USTABDATA`. -/
def ustabdata : Word := 0x200000#32

def nFUN : BitVec 8 := 0x24#8
def nSLINE : BitVec 8 := 0x44#8
def nSO : BitVec 8 := 0x64#8
def nSOL : BitVec 8 := 0x84#8
def nPSYM : BitVec 8 := 0xa0#8

/-- A call of `user_mem_check` that returned 0, and a byte that is read. -/
inductive EipAccess
  | checked (va len : Word)
  | read (a : Word)
  deriving DecidableEq, Repr

structure UserStabData where
  stabs : Word
  stabEnd : Word
  stabstr : Word
  stabstrEnd : Word
  deriving DecidableEq

/-- The fields of `struct Stab` that are read. -/
inductive StabField
  | strx
  | type
  | desc
  | value
  deriving DecidableEq, Repr

def StabField.offset : StabField → Nat
  | .strx => 0
  | .type => 4
  | .desc => 6
  | .value => 8

def StabField.width : StabField → Nat
  | .strx => 4
  | .type => 1
  | .desc => 2
  | .value => 4

/-- A read of a field of `stabs[k]`. -/
structure StabRead where
  k : Int
  field : StabField
  deriving DecidableEq, Repr

/-- Where the field lies. -/
def StabRead.addr (stabs : Word) (x : StabRead) : Word :=
  stabs + BitVec.ofInt 32 (12 * x.k) + BitVec.ofNat 32 x.field.offset

def readBytes (a : Word) (n : Nat) : List EipAccess :=
  (List.range n).map fun j => .read (a + BitVec.ofNat 32 j)

def StabRead.events (stabs : Word) (x : StabRead) : List EipAccess :=
  readBytes (x.addr stabs) x.field.width

structure Eipdebuginfo where
  /-- nothing is `"<unknown>"` -/
  eipFile : Option Word
  eipLine : BitVec 16
  eipFnName : Option Word
  eipFnNamelen : Nat
  eipFnAddr : Word
  eipFnNarg : Nat

section

variable (mem : Word → BitVec 8)

def load16 (a : Word) : BitVec 16 := mem (a + 1#32) ++ mem a

def load32 (a : Word) : Word := load16 mem (a + 2#32) ++ load16 mem a

/-- `strfind(s, c) - s`, and the bytes it reads, within `n` bytes. -/
def strfind (c : BitVec 8) : Nat → Word → Nat × List EipAccess
  | 0, _ => (0, [])
  | n + 1, s =>
    if mem s = 0#8 ∨ mem s = c then (0, [.read s])
    else ((strfind c n (s + 1#32)).1 + 1, .read s :: (strfind c n (s + 1#32)).2)

variable (stabs : Word)

def nStrx (k : Int) : Word := load32 mem (StabRead.addr stabs ⟨k, .strx⟩)
def nType (k : Int) : BitVec 8 := mem (StabRead.addr stabs ⟨k, .type⟩)
def nDesc (k : Int) : BitVec 16 := load16 mem (StabRead.addr stabs ⟨k, .desc⟩)
def nValue (k : Int) : Word := load32 mem (StabRead.addr stabs ⟨k, .value⟩)

/-! ## `stab_binsearch` -/

/-- `while (m >= l && stabs[m].n_type != type) m--`. -/
def stabScan (type : BitVec 8) (l m : Int) : Int × List StabRead :=
  if l ≤ m then
    if nType mem stabs m ≠ type then
      ((stabScan type l (m - 1)).1, ⟨m, .type⟩ :: (stabScan type l (m - 1)).2)
    else (m, [⟨m, .type⟩])
  else (m, [])
termination_by (m + 1 - l).toNat

/-- The variables of the search, with what was read so far. -/
structure BinSearch where
  l : Int
  r : Int
  addr : Word
  left : Int
  right : Int
  anyMatches : Bool
  reads : List StabRead

/-- The values of an `int`. -/
def IsInt (i : Int) : Prop := -2147483648 ≤ i ∧ i < 2147483648

instance (i : Int) : Decidable (IsInt i) := inferInstanceAs (Decidable (_ ∧ _))

/-- The middle of the region, rounded towards zero. -/
def BinSearch.trueM (st : BinSearch) : Int := (st.l + st.r).tdiv 2

/-- One pass of the loop. -/
def binStep (type : BitVec 8) (st : BinSearch) : BinSearch :=
  let (m, scanned) := stabScan mem stabs type st.l st.trueM
  if m < st.l then { st with l := st.trueM + 1, reads := st.reads ++ scanned }
  else
    let reads := st.reads ++ scanned ++ [⟨m, .value⟩]
    if nValue mem stabs m < st.addr then
      { st with l := st.trueM + 1, left := m, anyMatches := true, reads }
    else if st.addr < nValue mem stabs m then
      { st with r := m - 1, right := m - 1, anyMatches := true, reads }
    else { st with l := m, addr := st.addr + 1#32, left := m, anyMatches := true, reads }

variable {mem stabs} {type : BitVec 8} {l m : Int} {st : BinSearch}

/-- Where the scan for a type ends. -/
theorem stabScan_bounds : (stabScan mem stabs type l m).1 ≤ m ∧
    (l ≤ m + 1 → l - 1 ≤ (stabScan mem stabs type l m).1) := by
  induction m using stabScan.induct mem stabs type l with
  | case1 m hle htype ih =>
    rw [stabScan, if_pos hle, if_pos htype]
    dsimp only
    omega
  | case2 m hle htype =>
    rw [stabScan, if_pos hle, if_neg htype]
    dsimp only
    omega
  | case3 m hle =>
    rw [stabScan, if_neg hle]
    dsimp only
    omega

theorem trueM_bounds (h : st.l ≤ st.r) : st.l ≤ st.trueM ∧ st.trueM ≤ st.r := by
  have hsign : Int.sign 2 = 1 := rfl
  unfold BinSearch.trueM
  rw [Int.tdiv_eq_ediv, hsign]
  split <;> omega

def exactMatch (mem : Word → BitVec 8) (stabs : Word) (l : Int) (addr : Word) : Nat :=
  if nValue mem stabs l = addr then 1 else 0

theorem exactMatch_le (addr : Word) : exactMatch mem stabs l addr ≤ 1 := by
  unfold exactMatch
  split
  · exact Nat.le_refl 1
  · exact Nat.zero_le 1

/-- What is left to search.  After an exact match the region may stay the same, but
the address no longer matches. -/
def BinSearch.remaining (mem : Word → BitVec 8) (stabs : Word) (st : BinSearch) : Nat :=
  2 * (st.r + 1 - st.l).toNat + exactMatch mem stabs st.l st.addr

theorem binStep_lt (h : st.l ≤ st.r) :
    (binStep mem stabs type st).remaining mem stabs < st.remaining mem stabs := by
  have hmid := trueM_bounds h
  obtain ⟨hle, hge⟩ := @stabScan_bounds mem stabs type st.l st.trueM
  have hge' := hge (by omega)
  unfold binStep BinSearch.remaining
  generalize stabScan mem stabs type st.l st.trueM = scan at hle hge' ⊢
  obtain ⟨m, scanned⟩ := scan
  dsimp only at hle hge' ⊢
  have hright := @exactMatch_le mem stabs (st.trueM + 1) st.addr
  by_cases hnone : m < st.l
  · rw [if_pos hnone]
    dsimp only
    omega
  · rw [if_neg hnone]
    by_cases hlt : nValue mem stabs m < st.addr
    · rw [if_pos hlt]
      dsimp only
      omega
    · rw [if_neg hlt]
      by_cases hgt : st.addr < nValue mem stabs m
      · rw [if_pos hgt]
        dsimp only
        omega
      · have heq : nValue mem stabs m = st.addr := by
          rw [BitVec.lt_def] at hlt hgt
          exact BitVec.eq_of_toNat_eq (by omega)
        have hnext : exactMatch mem stabs m (st.addr + 1#32) = 0 := by
          refine if_neg fun hsucc => ?_
          rw [heq] at hsucc
          bv_omega
        rw [if_neg hgt]
        dsimp only
        rw [hnext]
        rcases Int.lt_or_eq_of_le (Int.not_lt.mp hnone) with hm | hm
        · omega
        · have hhere : exactMatch mem stabs st.l st.addr = 1 := by
            rw [hm]
            exact if_pos heq
          omega

variable (mem stabs)

/-- `while (l <= r)`. -/
def binLoop (type : BitVec 8) (st : BinSearch) : Option BinSearch :=
  if _h : st.l ≤ st.r then
    if IsInt (st.l + st.r) then binLoop type (binStep mem stabs type st) else none
  else some st
termination_by st.remaining mem stabs
decreasing_by exact binStep_lt _h

/-- `stab_binsearch`: `*region_left` and `*region_right`, and what it reads. -/
def stabBinsearch (type : BitVec 8) (left right : Int) (addr : Word) :
    Option (Int × Int × List StabRead) := do
  let st ← binLoop mem stabs type ⟨left, right, addr, left, right, false, []⟩
  if st.anyMatches then
    -- the rightmost region that contains the address
    let (l, reads) := stabScan mem stabs type (st.left + 1) st.right
    some (l, st.right, st.reads ++ reads)
  else some (st.left, st.left - 1, st.reads)

/-! ## `debuginfo_eip` -/

/-- The scan back to the stab of a file, from `lline` to `lfile`. -/
def fileScan (lfile lline : Int) : Int × List StabRead :=
  if lfile ≤ lline then
    if nType mem stabs lline = nSOL then (lline, [⟨lline, .type⟩])
    else if nType mem stabs lline ≠ nSO then
      ((fileScan lfile (lline - 1)).1, ⟨lline, .type⟩ :: (fileScan lfile (lline - 1)).2)
    else if nValue mem stabs lline = 0#32 then
      ((fileScan lfile (lline - 1)).1,
        ⟨lline, .type⟩ :: ⟨lline, .value⟩ :: (fileScan lfile (lline - 1)).2)
    else (lline, [⟨lline, .type⟩, ⟨lline, .value⟩])
  else (lline, [])
termination_by (lline + 1 - lfile).toNat
decreasing_by all_goals omega

/-- The number of parameters from `lline` on. -/
def argScan (lline rfun : Int) : Nat × List StabRead :=
  if lline < rfun then
    if nType mem stabs lline = nPSYM then
      ((argScan (lline + 1) rfun).1 + 1, ⟨lline, .type⟩ :: (argScan (lline + 1) rfun).2)
    else (0, [⟨lline, .type⟩])
  else (0, [])
termination_by (rfun - lline).toNat

/-- `stabs[k]` has its name in a string table of `size` bytes at `stabstr`. -/
def stabName (stabstr size : Word) (k : Int) : Option Word :=
  if nStrx mem stabs k < size then some (stabstr + nStrx mem stabs k) else none

end

section

variable (mem : Word → BitVec 8)

/-- `stab_end - stabs`: the bytes between them, divided by four and multiplied by the
inverse of three. -/
def UserStabData.nstabs (t : UserStabData) : Int :=
  ((t.stabEnd - t.stabs).sshiftRight 2 * 0xaaaaaaab#32).toInt

/-- Pointers `k` whole stabs apart have the difference `k`. -/
theorem nstabs_of_whole {t : UserStabData} {k : Int} (h : (t.stabEnd - t.stabs).toInt = 12 * k) :
    t.nstabs = k := by
  have hlo := BitVec.le_toInt (t.stabEnd - t.stabs)
  have hhi := BitVec.toInt_lt (x := t.stabEnd - t.stabs)
  have hquarter : ((t.stabEnd - t.stabs).sshiftRight 2).toInt = 3 * k := by
    rw [BitVec.toInt_sshiftRight, h, Int.shiftRight_eq_div_pow]
    omega
  have hinverse : (0xaaaaaaab#32 : Word).toInt = -1431655765 := rfl
  unfold UserStabData.nstabs
  rw [BitVec.toInt_mul, hquarter, hinverse]
  have hproduct : 3 * k * -1431655765 = k + (2 ^ 32 : Nat) * -k := by omega
  rw [hproduct, Int.add_mul_bmod_self_left]
  exact Int.bmod_eq_of_le_mul_two (by omega) (by omega)

/-- `stabstr_end - stabstr`. -/
def UserStabData.strSize (t : UserStabData) : Word := t.stabstrEnd - t.stabstr

/-- The part of `debuginfo_eip` behind the searches for the file and the function.
`name` is the name of the function, and the line is looked for from `lline` to
`rline`. -/
def searchLine (t : UserStabData) (info : Eipdebuginfo) (lfile lfun rfun lline rline : Int)
    (addr : Word) : Option (Eipdebuginfo × List EipAccess) := do
  let (namelen, name) := match info.eipFnName with
    | some s => strfind mem 58#8 (2 ^ 32) s
    | none => (info.eipFnNamelen, [])
  let (lline, rline, line) ← stabBinsearch mem t.stabs nSLINE lline rline addr
  let desc : List StabRead := if lline ≤ rline then [⟨lline, .desc⟩] else []
  let eipLine := if lline ≤ rline then nDesc mem t.stabs lline else info.eipLine
  let (lline, file) := fileScan mem t.stabs lfile lline
  let strx : List StabRead := if lfile ≤ lline then [⟨lline, .strx⟩] else []
  let eipFile := if lfile ≤ lline then
    (stabName mem t.stabs t.stabstr t.strSize lline).or info.eipFile else info.eipFile
  let (narg, args) := if lfun < rfun then argScan mem t.stabs (lfun + 1) rfun else (0, [])
  some ({ info with eipFnNamelen := namelen, eipLine, eipFile, eipFnNarg := narg },
    name ++ (line ++ desc ++ file ++ strx ++ args).flatMap (StabRead.events t.stabs))

/-- The part of `debuginfo_eip` behind the checks of the string table. -/
def searchStabs (t : UserStabData) (info : Eipdebuginfo) (addr : Word) :
    Option (Int × Eipdebuginfo × List EipAccess) := do
  let (lfile, rfile, file) ← stabBinsearch mem t.stabs nSO 0 (t.nstabs - 1) addr
  if lfile = 0 then some (-1, info, file.flatMap (StabRead.events t.stabs))
  else
    let (lfun, rfun, func) ← stabBinsearch mem t.stabs nFUN lfile rfile addr
    if lfun ≤ rfun then
      let fnAddr := nValue mem t.stabs lfun
      let info := { info with
        eipFnName := (stabName mem t.stabs t.stabstr t.strSize lfun).or info.eipFnName
        eipFnAddr := fnAddr }
      let named : List StabRead := [⟨lfun, .strx⟩, ⟨lfun, .value⟩]
      let (info, rest) ← searchLine mem t info lfile lfun rfun lfun rfun (addr - fnAddr)
      some (0, info, (file ++ func ++ named).flatMap (StabRead.events t.stabs) ++ rest)
    else
      let info := { info with eipFnAddr := addr }
      let (info, rest) ← searchLine mem t info lfile lfun rfun lfile rfile addr
      some (0, info, (file ++ func).flatMap (StabRead.events t.stabs) ++ rest)

/-- What `debuginfo_eip` sets first. -/
def unknownInfo (addr : Word) : Eipdebuginfo :=
  { eipFile := none, eipLine := 0#16, eipFnName := none, eipFnNamelen := 9, eipFnAddr := addr,
    eipFnNarg := 0 }

/-- `*usd`. -/
def userStabData : UserStabData :=
  { stabs := load32 mem ustabdata, stabEnd := load32 mem (ustabdata + 4#32),
    stabstr := load32 mem (ustabdata + 8#32), stabstrEnd := load32 mem (ustabdata + 12#32) }

/-- `debuginfo_eip` behind the choice of the table. -/
def debuginfoTable (t : UserStabData) (addr : Word) :
    Option (Int × Eipdebuginfo × List EipAccess) :=
  if t.stabstrEnd ≤ t.stabstr then some (-1, unknownInfo addr, [])
  else
    let last := t.stabstrEnd - 1#32
    if mem last ≠ 0#8 then some (-1, unknownInfo addr, [.read last])
    else do
      let (ret, info, rest) ← searchStabs mem t (unknownInfo addr) addr
      some (ret, info, .read last :: rest)

variable (check : Word → Word → Bool) (kern : UserStabData)

/-- `debuginfo_eip`, where `check va len` says that `user_mem_check` of the current
environment returns 0, and `kern` is the table of the kernel. -/
def debuginfoEip (addr : Word) : Option (Int × Eipdebuginfo × List EipAccess) :=
  if ulim ≤ addr then debuginfoTable mem kern addr
  else if check ustabdata 16#32 then
    let t := userStabData mem
    let usd := .checked ustabdata 16#32 :: readBytes ustabdata 16
    let len := BitVec.ofInt 32 t.nstabs
    if check t.stabs len then
      if check t.stabstr t.strSize then do
        let (ret, info, rest) ← debuginfoTable mem t addr
        some (ret, info, usd ++ .checked t.stabs len :: .checked t.stabstr t.strSize :: rest)
      else some (-1, unknownInfo addr, usd ++ [.checked t.stabs len])
    else some (-1, unknownInfo addr, usd)
  else some (-1, unknownInfo addr, [])

end

end Jos
end Sisop

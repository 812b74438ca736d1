import Mathlib.Data.BitVec
import Mathlib.Data.List.DropRight
import Mathlib.Logic.Function.Basic
import Sisop.Lib.CString

/-!
# Inodes and the superblock

The file system is one array of inodes and one array of their states.  A C
string is the list of its bytes before the terminator.

In `Inode` the two arrays `content` and `directory_path` lie one behind the
other, and string functions that start in `content` run on into
`directory_path` when nothing stops them.  So both are one memory here, `content`
from position 0 and `directory_path` from position `maxDataSize`.  The owner, the
mode and the times are left out: no callback below decides anything by them.
-/

namespace Sisop
namespace Fisopfs

open CString

abbrev Byte := BitVec 8

def maxDataSize : Nat := 1024
def maxPathLength : Nat := 256
def maxInodes : Nat := 1024

/-- Where the memory of `content` and `directory_path` ends. -/
def contentEnd : Nat := maxDataSize + maxPathLength

/-- The slash between the names of a path. -/
def slash : Byte := 47#8

def rootPath : List Byte := [slash]

inductive InodeType
  | regular
  | directory
  deriving DecidableEq, Repr

inductive InodeState
  | free
  | occupied
  deriving DecidableEq, Repr

structure Inode where
  type : InodeType
  size : Nat
  path : List Byte
  content : Nat → Byte

/-- An inode of zero bytes. -/
def Inode.zero : Inode := ⟨.regular, 0, [], fun _ => 0⟩

def Inode.directoryPath (inode : Inode) : List Byte :=
  strAt inode.content maxDataSize maxPathLength

/-- `strlen(inode->content)`. -/
def Inode.contentLen (inode : Inode) : Nat :=
  strlen inode.content 0 contentEnd

structure Superblock where
  inodes : Nat → Inode
  inodesStates : Nat → InodeState

namespace Superblock

variable (sb : Superblock)

/-- `superblock.inodes[i] = inode`. -/
def setInode (i : Nat) (inode : Inode) : Superblock :=
  { sb with inodes := Function.update sb.inodes i inode }

/-- `superblock.inodes_states[i] = st`. -/
def setState (i : Nat) (st : InodeState) : Superblock :=
  { sb with inodesStates := Function.update sb.inodesStates i st }

/-- Slot `i` of the array holds an inode in use. -/
def Live (i : Nat) : Prop :=
  i < maxInodes ∧ sb.inodesStates i = .occupied

instance (i : Nat) : Decidable (sb.Live i) :=
  inferInstanceAs (Decidable (_ ∧ _))

variable {sb} {i j : Nat} {inode : Inode} {st : InodeState}

@[simp] theorem setInode_inodesStates : (sb.setInode i inode).inodesStates = sb.inodesStates :=
  rfl

@[simp] theorem setState_inodes : (sb.setState i st).inodes = sb.inodes := rfl

@[simp] theorem setInode_self : (sb.setInode i inode).inodes i = inode :=
  Function.update_self ..

@[simp] theorem setState_self : (sb.setState i st).inodesStates i = st :=
  Function.update_self ..

theorem setInode_of_ne (h : j ≠ i) : (sb.setInode i inode).inodes j = sb.inodes j :=
  Function.update_of_ne h ..

theorem setState_of_ne (h : j ≠ i) : (sb.setState i st).inodesStates j = sb.inodesStates j :=
  Function.update_of_ne h ..

end Superblock

/-- The root directory `build_root_directory` writes. -/
def rootDirectory : Inode :=
  { type := .directory, size := 1024, path := rootPath, content := fun _ => 0 }

/-- `build_superblock`. -/
def buildSuperblock : Superblock :=
  { inodes := fun i => if i = 0 then rootDirectory else Inode.zero
    inodesStates := fun i => if i = 0 then .occupied else .free }

/-! ## Names -/

/-- The bytes behind the last slash of a path, or all of them when there is none. -/
def lastComponent (path : List Byte) : List Byte :=
  path.rtakeWhile (· ≠ slash)

def getFilenameFromPath (path : List Byte) : Option (List Byte) :=
  if path = [] then none else some (lastComponent path)

/-- The bytes before the last slash, or none when there is no slash. -/
def getParentPathFromPath (parentPath : List Byte) : List Byte :=
  (parentPath.rdropWhile (· ≠ slash)).dropLast

/-- A C string that begins with a slash. -/
structure AbsolutePath (path : List Byte) : Prop where
  absolute : path.head? = some slash
  string : 0#8 ∉ path

/-- A file name has no slash. -/
theorem slash_notMem_lastComponent (path : List Byte) : slash ∉ lastComponent path := by
  intro h
  have hne := List.mem_rtakeWhile_imp h
  simp at hne

theorem lastComponent_ne_rootPath (path : List Byte) : lastComponent path ≠ rootPath := by
  intro h
  refine slash_notMem_lastComponent path ?_
  rw [h]
  exact List.mem_singleton.mpr rfl

theorem getFilenameFromPath_eq {path filename : List Byte}
    (h : getFilenameFromPath path = some filename) :
    path ≠ [] ∧ filename = lastComponent path := by
  rw [getFilenameFromPath] at h
  split at h
  · cases h
  · rename_i hne
    exact ⟨hne, (Option.some.inj h).symm⟩

theorem length_getParentPathFromPath (path : List Byte) :
    (getParentPathFromPath path).length ≤ path.length - 1 := by
  have hdrop : (path.rdropWhile (· ≠ slash)).length ≤ path.length :=
    (List.rdropWhile_prefix _ path).length_le
  rw [getParentPathFromPath, List.length_dropLast]
  omega

end Fisopfs
end Sisop

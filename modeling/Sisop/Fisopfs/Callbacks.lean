import Sisop.Lib.Reach
import Sisop.Fisopfs.Inode

/-!
# The callbacks

Each callback takes the superblock and gives a `Reply`: the superblock it leaves,
the value it returns (a negative one is an `Errno`) and how far into `content` it
reached.  A callback has no reply where C leaves its behaviour undefined: a name
too long for the array `path`, a path too long for `parent_path`, or a negative
size that makes `fisopfs_truncate` index in front of `content`.

An offset is an `off_t`; `toSize` is its conversion where the source compares it
with a `size_t`.
-/

namespace Sisop
namespace Fisopfs

open CString

inductive Errno
  | eexist
  | enospc
  | enametoolong
  | eperm
  | enoent
  | eisdir
  | enotdir
  | enotempty
  | einval
  | efbig
  | eacces
  deriving DecidableEq, Repr

structure Reply where
  sb : Superblock
  ret : Except Errno Nat
  /-- One past the last index of `content` read or written. -/
  touched : Nat

/-- `THROW`. -/
def throw (sb : Superblock) (e : Errno) : Option Reply := some ⟨sb, .error e, 0⟩

/-- The bytes of one object; none is larger than half the address space. -/
abbrev Buffer := { d : List Byte // d.length < 2 ^ 63 }

def toSize (x : Int) : Nat := (x % 2 ^ 64).toNat

/-! ## `utils.c` -/

variable (sb : Superblock)

def getInodeIndex (path : List Byte) : Option Nat :=
  if path = [] then none
  else if path = rootPath then some 0
  else match getFilenameFromPath path with
    | none => none
    | some filename => (List.range maxInodes).find? fun i =>
        sb.inodesStates i = .occupied ∧ filename = (sb.inodes i).path

def nextFreeInodeIndex (path : List Byte) : Except Errno Nat :=
  match (List.range maxInodes).find? fun i =>
      (sb.inodes i).path = path ∨ sb.inodesStates i = .free with
  | none => .error .enospc
  | some i => if (sb.inodes i).path = path then .error .eexist else .ok i

/-- The `directory_path` of a new inode; a file's must fit in `parent_path`. -/
def parentPath (path : List Byte) : InodeType → Option (List Byte)
  | .directory => some rootPath
  | .regular =>
      if path.length - 1 < maxPathLength then
        let parent := getParentPathFromPath path.tail
        some (if parent = [] then rootPath else parent)
      else none

/-- The inode `new_inode` builds. -/
def Inode.new (type : InodeType) (filename parent : List Byte) : Inode :=
  { type, size := 0, path := filename, content := memcpy (fun _ => 0) maxDataSize parent }

@[simp] theorem Inode.new_content {type : InodeType} {filename parent : List Byte} :
    (Inode.new type filename parent).content = memcpy (fun _ => 0) maxDataSize parent := rfl

def newInode (path : List Byte) (type : InodeType) : Option Reply :=
  -- `strlen(path) - 1` wraps for the empty path
  if path = [] ∨ path.length - 1 > maxDataSize then throw sb .enametoolong
  else match getFilenameFromPath path with
    | none => throw sb .eperm
    | some filename =>
      match nextFreeInodeIndex sb filename with
      | .error e => throw sb e
      | .ok i =>
        -- the array `path` of the new inode
        if filename.length < maxPathLength then do
          let parent ← parentPath path type
          some ⟨(sb.setInode i (Inode.new type filename parent)).setState i .occupied, .ok 0, 0⟩
        else none

def getFilesInDirectory (pathDir : List Byte) : List Nat :=
  (List.range maxInodes).filter fun i =>
    some (sb.inodes i).directoryPath = getFilenameFromPath pathDir

/-! ## `fisopfs.c` -/

def fisopfsRead (path : List Byte) (size : Nat) (offset : Int) : Except Errno (List Byte) × Nat :=
  if offset < 0 then (.error .einval, 0)
  else match getInodeIndex sb path with
    | none => (.error .enoent, 0)
    | some i =>
      let inode := sb.inodes i
      if inode.type = .directory then (.error .eisdir, 0)
      else if inode.size ≤ toSize offset then (.ok [], 0)
      else
        let bytesToRead :=
          if inode.size < toSize (offset + size) then inode.size - toSize offset else size
        (.ok (memread inode.content (toSize offset) bytesToRead), toSize offset + bytesToRead)

def fisopfsCreate (path : List Byte) : Option Reply := newInode sb path .regular

def fisopfsMkdir (path : List Byte) : Option Reply := newInode sb path .directory

def fisopfsRmdir (path : List Byte) : Option Reply :=
  match getInodeIndex sb path with
  | none => throw sb .enoent
  | some i =>
    if (sb.inodes i).type ≠ .directory then throw sb .enotdir
    else if 0 < (getFilesInDirectory sb path).length then throw sb .enotempty
    else some ⟨(sb.setState i .free).setInode i Inode.zero, .ok 0, 0⟩

def fisopfsUnlink (path : List Byte) : Option Reply :=
  match getInodeIndex sb path with
  | none => throw sb .enoent
  | some i =>
    if (sb.inodes i).type ≠ .regular then throw sb .eisdir
    else some ⟨(sb.setInode i Inode.zero).setState i .free, .ok 0, 0⟩

/-- The inode a write goes to: the one found, or else a file created for it. -/
def writeTarget (path : List Byte) : Option (Superblock × Except Errno Nat) :=
  match getInodeIndex sb path with
  | some i => some (sb, .ok i)
  | none => do
    let r ← fisopfsCreate sb path
    match r.ret, getInodeIndex r.sb path with
    | .error e, _ => some (r.sb, .error e)
    | .ok _, none => some (r.sb, .error .enoent)
    | .ok _, some i => some (r.sb, .ok i)

/-- What `fisopfs_write` does to the inode. -/
def Inode.write (inode : Inode) (data : List Byte) (offset : Nat) : Inode :=
  let written := { inode with content := memcpy inode.content offset data }
  { written with
    size := written.contentLen
    content := memset0 written.content written.contentLen (written.contentLen + 1) }

@[simp] theorem Inode.write_path {inode : Inode} {data : List Byte} {offset : Nat} :
    (inode.write data offset).path = inode.path := rfl

@[simp] theorem Inode.write_type {inode : Inode} {data : List Byte} {offset : Nat} :
    (inode.write data offset).type = inode.type := rfl

def fisopfsWrite (path : List Byte) (data : Buffer) (offset : Int) : Option Reply := do
  if toSize (offset + data.val.length) > maxDataSize then throw sb .efbig
  else
    let (sb, target) ← writeTarget sb path
    match target with
    | .error e => throw sb e
    | .ok i =>
      let inode := sb.inodes i
      if inode.size < toSize offset then throw sb .einval
      else if inode.type ≠ .regular then throw sb .eacces
      else
        let inode := inode.write data.val (toSize offset)
        some ⟨sb.setInode i inode, .ok data.val.length,
          max (toSize offset + data.val.length) (inode.size + 1)⟩

/-- What `fisopfs_truncate` does to the inode for a size that is not 0. -/
def Inode.truncate (inode : Inode) (size : Nat) : Inode :=
  let contentSize := inode.contentLen + 1
  let content := memset0 inode.content (min size contentSize) contentSize
  let content := memset0 content contentSize size
  let content := if size < contentSize then memset0 content size (size + 1) else content
  { inode with size, content }

/-- What `fisopfs_truncate` does to the inode for size 0. -/
def Inode.clear (inode : Inode) : Inode :=
  { inode with size := 0, content := memset0 inode.content 0 maxDataSize }

@[simp] theorem Inode.clear_content {inode : Inode} :
    inode.clear.content = memset0 inode.content 0 maxDataSize := rfl

def fisopfsTruncate (path : List Byte) (size : Int) : Option Reply :=
  if (maxDataSize : Int) < size then throw sb .einval
  else match getInodeIndex sb path with
    | none => throw sb .enoent
    | some i =>
      let inode := sb.inodes i
      if inode.type ≠ .regular then throw sb .eisdir
      else if size = 0 then
        some ⟨sb.setInode i inode.clear, .ok 0, maxDataSize⟩
      else if size < 0 then none
      else
        some ⟨sb.setInode i (inode.truncate size.toNat), .ok 0,
          max (inode.contentLen + 1) size.toNat⟩

/-! ## Runs -/

inductive Op
  | create (path : List Byte)
  | mkdir (path : List Byte)
  | write (path : List Byte) (data : Buffer) (offset : Int)
  | truncate (path : List Byte) (size : Int)
  | unlink (path : List Byte)
  | rmdir (path : List Byte)

/-- The path a callback is given. -/
def Op.path : Op → List Byte
  | .create path | .mkdir path | .write path _ _ | .truncate path _ | .unlink path
  | .rmdir path => path

def Op.reply : Op → Option Reply
  | .create path => fisopfsCreate sb path
  | .mkdir path => fisopfsMkdir sb path
  | .write path data offset => fisopfsWrite sb path data offset
  | .truncate path size => fisopfsTruncate sb path size
  | .unlink path => fisopfsUnlink sb path
  | .rmdir path => fisopfsRmdir sb path

/-- The file system from an empty superblock on. -/
def fisopfs : TransitionSystem Superblock Op where
  init sb := sb = buildSuperblock
  step sb op sb' := ∃ r, op.reply sb = some r ∧ r.sb = sb'

/-- The superblock after a callback that has a reply. -/
def next (op : Op) : Option Superblock := (op.reply sb).map Reply.sb

variable {sb} {sb' : Superblock}

theorem step_of_next {op : Op} (h : next sb op = some sb') : fisopfs.step sb op sb' :=
  Option.map_eq_some_iff.mp h

end Fisopfs
end Sisop

import Sisop.Fisopfs.Readdir
import Sisop.Lib.SlotMap

/-!
# The file system as a store

What the array of inodes stands for when a program takes names for paths and text for bytes: a
map from names to nodes, which does not know slots, terminators or states.  A file is its text,
and zeros up to its size when a truncation made it longer.

`Store.Proper` says what the program has to keep to: a name is created once and not twice, and a
file is written where it has text or at its end.
-/

namespace Sisop
namespace Fisopfs

/-- `parent` is the directory recorded for it. -/
structure Node where
  type : InodeType
  parent : List Byte
  text : List Byte
  size : Nat

def Node.new (type : InodeType) (parent : List Byte) : Node := ⟨type, parent, [], 0⟩

def Node.bytes (nd : Node) : List Byte := nd.text ++ List.replicate (nd.size - nd.text.length) 0#8

/-- The text with `d` in place of what stood there; what zeros there were behind it go. -/
def Node.write (nd : Node) (d : List Byte) (o : Nat) : Node :=
  let text := nd.text.take o ++ d ++ nd.text.drop (o + d.length)
  { nd with text, size := text.length }

def Node.truncate (nd : Node) (n : Nat) : Node := { nd with text := nd.text.take n, size := n }

/-- The node of each name; the root has the name `/`. -/
abbrev Store := List Byte → Option Node

/-- The directory recorded for a new node: the root for a directory, and for a file the path of
its directory without the slash in front. -/
def recordedParent (path : List Byte) : InodeType → List Byte
  | .directory => rootPath
  | .regular =>
      let parent := getParentPathFromPath path.tail
      if parent = [] then rootPath else parent

namespace Store

variable (st : Store)

def find (path : List Byte) : Option Node := st (dirName path)

def Full : Prop := {name | st name ≠ none}.ncard = maxInodes

open Classical in
noncomputable def make (path : List Byte) (type : InodeType) : Store × Except Errno Nat :=
  if st.Full then (st, .error .enospc)
  else (Function.update st (lastComponent path) (some (Node.new type (recordedParent path type))), .ok 0)

/-- A write to the node of `name`. -/
def writeNode (name : List Byte) (nd : Node) (d : List Byte) (o : Nat) : Store × Except Errno Nat :=
  if nd.size < o then (st, .error .einval)
  else if nd.type ≠ .regular then (st, .error .eacces)
  else (Function.update st name (some (nd.write d o)), .ok d.length)

noncomputable def write (path d : List Byte) (o : Nat) : Store × Except Errno Nat :=
  if maxDataSize < o + d.length then (st, .error .efbig)
  else
    match st.find path with
    | some nd => st.writeNode (dirName path) nd d o
    | none =>
        match st.make path .regular with
        | (st, .error e) => (st, .error e)
        | (st, .ok _) => st.writeNode (dirName path) (Node.new .regular (recordedParent path .regular)) d o

def truncate (path : List Byte) (n : Nat) : Store × Except Errno Nat :=
  if maxDataSize < n then (st, .error .einval)
  else
    match st.find path with
    | none => (st, .error .enoent)
    | some nd =>
        if nd.type ≠ .regular then (st, .error .eisdir)
        else (Function.update st (dirName path) (some (nd.truncate n)), .ok 0)

def unlink (path : List Byte) : Store × Except Errno Nat :=
  match st.find path with
  | none => (st, .error .enoent)
  | some nd =>
      if nd.type ≠ .regular then (st, .error .eisdir)
      else (Function.update st (dirName path) none, .ok 0)

open Classical in
noncomputable def rmdir (path : List Byte) : Store × Except Errno Nat :=
  match st.find path with
  | none => (st, .error .enoent)
  | some nd =>
      if nd.type ≠ .directory then (st, .error .enotdir)
      else if ∃ name nd, st name = some nd ∧ nd.parent = lastComponent path then
        (st, .error .enotempty)
      else (Function.update st (dirName path) none, .ok 0)

def read (path : List Byte) (n o : Nat) : Except Errno (List Byte) :=
  match st.find path with
  | none => .error .enoent
  | some nd => if nd.type = .directory then .error .eisdir else .ok ((nd.bytes.drop o).take n)

/-- A listing of the store: `.` and `..`, and the names recorded in the directory, each once. -/
def Listed (path : List Byte) (l : Listing) : Prop :=
  match st.find path with
  | none => l.names = dots ∧ l.ret = .error .enoent
  | some nd =>
      if nd.type ≠ .directory then l.names = dots ∧ l.ret = .error .enotdir
      else ∃ names, l.names = dots ++ names ∧ names.Nodup ∧ l.ret = .ok 0 ∧ ∀ name,
        name ∈ names ↔ name ≠ rootPath ∧ ∃ child, st name = some child ∧ child.parent = dirName path

noncomputable def step : Op → Store × Except Errno Nat
  | .create path => st.make path .regular
  | .mkdir path => st.make path .directory
  | .write path d o => st.write path d.val o.toNat
  | .truncate path n => st.truncate path n.toNat
  | .unlink path => st.unlink path
  | .rmdir path => st.rmdir path

/-! ## What a program keeps to -/

/-- A path as the kernel gives it, short enough for every copy of it. -/
structure ValidPath (path : List Byte) : Prop where
  absolute : AbsolutePath path
  short : path.length < maxPathLength
  named : path = rootPath ∨ lastComponent path ≠ []

/-- A name is created when there is none.  What is written has no zeros, leaves room for one
behind the text, and is put where the file has text or at its end, or fails. -/
def Proper : Op → Prop
  | .create path | .mkdir path => ValidPath path ∧ path ≠ rootPath ∧ st.find path = none
  | .write path d o => ValidPath path ∧ 0 ≤ o ∧ o < 2 ^ 63 ∧ 0#8 ∉ d.val ∧
      o.toNat + d.val.length ≠ maxDataSize ∧
      ∀ nd, st.find path = some nd → o.toNat ≤ nd.text.length ∨ nd.size < o.toNat
  | .truncate path n => ValidPath path ∧ 0 ≤ n
  | .unlink path | .rmdir path => ValidPath path

end Store

/-- A node of the root and no other. -/
def emptyStore : Store := fun name => if name = rootPath then some ⟨.directory, [], [], 1024⟩ else none

def stores : TransitionSystem Store Op where
  init st := st = emptyStore
  step st op st' := (st.step op).1 = st'

/-! ## The superblock as a store -/

/-- The text of an inode ends at its first zero. -/
def Inode.node (inode : Inode) : Node where
  type := inode.type
  parent := inode.directoryPath
  text := CString.memread inode.content 0 inode.contentLen
  size := inode.size

def slotsOf (sb : Superblock) (i : Nat) : Option (List Byte × Node) :=
  if sb.inodesStates i = .occupied then some ((sb.inodes i).path, (sb.inodes i).node) else none

def storeOf (sb : Superblock) : Store := SlotMap.find maxInodes (slotsOf sb)

end Fisopfs
end Sisop

import Sisop.Fisopfs.Callbacks

/-!
# What a callback can do

A callback leaves the superblock as it is, puts a new inode in the first free
slot, clears the slot its path leads to, or edits the content of the file its
path leads to.  A write to a missing file creates it and then edits it.
`reply_change` says so once for all callbacks; the invariants are cases on it.
-/

namespace Sisop
namespace Fisopfs

open CString

variable {sb sb' : Superblock} {path : List Byte}

/-- The slots before and after a callback looks for `path`, creating it perhaps. -/
inductive Creation (sb : Superblock) (path : List Byte) : Superblock → Prop
  | same : Creation sb path sb
  | new (i : Nat) (type : InodeType) (parent : List Byte) (named : path ≠ [])
      (next : nextFreeInodeIndex sb (lastComponent path) = .ok i)
      (fits : parent.length < maxPathLength) :
      Creation sb path
        ((sb.setInode i (Inode.new type (lastComponent path) parent)).setState i .occupied)

/-- The file `path` leads to before and after a callback on `path`. -/
inductive Edit (sb : Superblock) (path : List Byte) : Superblock → Prop
  | same : Edit sb path sb
  | write (i : Nat) (data : Buffer) (offset : Int) (found : getInodeIndex sb path = some i)
      (regular : (sb.inodes i).type = .regular)
      (fits : toSize (offset + data.val.length) ≤ maxDataSize)
      (within : toSize offset ≤ (sb.inodes i).size) :
      Edit sb path (sb.setInode i ((sb.inodes i).write data.val (toSize offset)))
  | clear (i : Nat) (found : getInodeIndex sb path = some i)
      (regular : (sb.inodes i).type = .regular) :
      Edit sb path (sb.setInode i (sb.inodes i).clear)
  | truncate (i size : Nat) (found : getInodeIndex sb path = some i)
      (regular : (sb.inodes i).type = .regular) (pos : 0 < size) (fits : size ≤ maxDataSize) :
      Edit sb path (sb.setInode i ((sb.inodes i).truncate size))

/-- The slots before and after a callback that removes what `path` leads to. -/
inductive Removal (sb : Superblock) (path : List Byte) : Superblock → Prop
  | same : Removal sb path sb
  | remove (i : Nat) (found : getInodeIndex sb path = some i)
      (leaf : (sb.inodes i).type = .regular ∨
        path ≠ [] ∧ ∀ j, j < maxInodes → (sb.inodes j).directoryPath ≠ lastComponent path) :
      Removal sb path ((sb.setInode i Inode.zero).setState i .free)

/-- The superblock before and after a callback on `path`. -/
inductive Change (sb : Superblock) (path : List Byte) : Superblock → Prop
  | edit {sb₁ sb₂ : Superblock} (create : Creation sb path sb₁) (edit : Edit sb₁ path sb₂) :
      Change sb path sb₂
  | remove {sb₁ : Superblock} (remove : Removal sb path sb₁) : Change sb path sb₁

theorem throw_eq {e : Errno} {r : Reply} (h : throw sb e = some r) :
    r = ⟨sb, .error e, 0⟩ :=
  (Option.some.inj h).symm

theorem length_parentPath {type : InodeType} {parent : List Byte}
    (h : parentPath path type = some parent) : parent.length < maxPathLength := by
  cases type with
  | directory =>
    cases Option.some.inj h
    decide
  | regular =>
    rw [parentPath] at h
    split at h
    · rename_i hlen
      cases Option.some.inj h
      split
      · decide
      · have hcut := length_getParentPathFromPath path.tail
        rw [List.length_tail] at hcut
        omega
    · cases h

/-- `new_inode` fails, or it fills the slot that is free for the name. -/
theorem newInode_reply {type : InodeType} {r : Reply} (h : newInode sb path type = some r) :
    (∃ e, r = ⟨sb, .error e, 0⟩) ∨
    ∃ i parent, path ≠ [] ∧ nextFreeInodeIndex sb (lastComponent path) = .ok i ∧
      parentPath path type = some parent ∧
      r = ⟨(sb.setInode i (Inode.new type (lastComponent path) parent)).setState i .occupied,
        .ok 0, 0⟩ := by
  rw [newInode] at h
  split at h
  · exact .inl ⟨_, throw_eq h⟩
  · rename_i hlen
    obtain ⟨hnamed, -⟩ := not_or.mp hlen
    split at h
    · exact .inl ⟨_, throw_eq h⟩
    · rename_i filename hname
      obtain ⟨-, rfl⟩ := getFilenameFromPath_eq hname
      split at h
      · exact .inl ⟨_, throw_eq h⟩
      · rename_i i hnext
        split at h
        · obtain ⟨parent, hparent, hr⟩ := Option.bind_eq_some_iff.mp h
          exact .inr ⟨i, parent, hnamed, hnext, hparent, (Option.some.inj hr).symm⟩
        · cases h

theorem newInode_creation {type : InodeType} {r : Reply} (h : newInode sb path type = some r) :
    Creation sb path r.sb ∧ r.touched = 0 := by
  rcases newInode_reply h with ⟨e, rfl⟩ | ⟨i, parent, hnamed, hnext, hparent, rfl⟩
  · exact ⟨.same, rfl⟩
  · exact ⟨.new i type parent hnamed hnext (length_parentPath hparent), rfl⟩

/-- `fisopfs_rmdir` fails, or it clears the slot of a directory that no inode names
as its parent. -/
theorem rmdir_reply {r : Reply} (h : fisopfsRmdir sb path = some r) :
    (∃ e, r = ⟨sb, .error e, 0⟩) ∨
    ∃ i, getInodeIndex sb path = some i ∧ (sb.inodes i).type = .directory ∧ path ≠ [] ∧
      (∀ j, j < maxInodes → (sb.inodes j).directoryPath ≠ lastComponent path) ∧
      r = ⟨(sb.setState i .free).setInode i Inode.zero, .ok 0, 0⟩ := by
  rw [fisopfsRmdir] at h
  split at h
  · exact .inl ⟨_, throw_eq h⟩
  · rename_i i hi
    split at h
    · exact .inl ⟨_, throw_eq h⟩
    · rename_i htype
      split at h
      · exact .inl ⟨_, throw_eq h⟩
      · rename_i hfiles
        have hnamed : path ≠ [] := by
          rintro rfl
          cases hi
        refine .inr ⟨i, hi, not_not.mp htype, hnamed, fun j hj hdir => ?_,
          (Option.some.inj h).symm⟩
        refine hfiles (List.length_pos_of_mem (a := j) ?_)
        rw [getFilesInDirectory, List.mem_filter, List.mem_range, getFilenameFromPath,
          if_neg hnamed, hdir]
        exact ⟨hj, by simp⟩

/-- A directory that is removed has no inode that names it as its parent. -/
theorem rmdir_removal {r : Reply} (h : fisopfsRmdir sb path = some r) :
    Removal sb path r.sb ∧ r.touched = 0 := by
  rcases rmdir_reply h with ⟨e, rfl⟩ | ⟨i, hi, -, hnamed, hfiles, rfl⟩
  · exact ⟨.same, rfl⟩
  · exact ⟨.remove i hi (.inr ⟨hnamed, hfiles⟩), rfl⟩

/-- `fisopfs_unlink` fails, or it clears the slot of a file. -/
theorem unlink_reply {r : Reply} (h : fisopfsUnlink sb path = some r) :
    (∃ e, r = ⟨sb, .error e, 0⟩) ∨
    ∃ i, getInodeIndex sb path = some i ∧ (sb.inodes i).type = .regular ∧
      r = ⟨(sb.setInode i Inode.zero).setState i .free, .ok 0, 0⟩ := by
  rw [fisopfsUnlink] at h
  split at h
  · exact .inl ⟨_, throw_eq h⟩
  · rename_i i hi
    split at h
    · exact .inl ⟨_, throw_eq h⟩
    · rename_i htype
      exact .inr ⟨i, hi, not_not.mp htype, (Option.some.inj h).symm⟩

theorem unlink_removal {r : Reply} (h : fisopfsUnlink sb path = some r) :
    Removal sb path r.sb ∧ r.touched = 0 := by
  rcases unlink_reply h with ⟨e, rfl⟩ | ⟨i, hi, htype, rfl⟩
  · exact ⟨.same, rfl⟩
  · exact ⟨.remove i hi (.inl htype), rfl⟩

/-- The slots a write looks for its file in: as they were, or after `fisopfs_create`. -/
inductive Made (sb : Superblock) (path : List Byte) : Superblock → Prop
  | same : Made sb path sb
  | new {r : Reply} (made : newInode sb path .regular = some r) : Made sb path r.sb

theorem Made.creation (h : Made sb path sb') : Creation sb path sb' := by
  cases h with
  | same => exact .same
  | new made => exact (newInode_creation made).1

theorem writeTarget_made {target : Except Errno Nat}
    (h : writeTarget sb path = some (sb', target)) :
    Made sb path sb' ∧ ∀ i, target = .ok i → getInodeIndex sb' path = some i := by
  rw [writeTarget] at h
  split at h
  · rename_i i hi
    cases Option.some.inj h
    exact ⟨.same, fun j hj => by cases hj; exact hi⟩
  · obtain ⟨r, hr, h⟩ := Option.bind_eq_some_iff.mp h
    have hnew : Made sb path r.sb := .new hr
    split at h
    · cases Option.some.inj h
      exact ⟨hnew, fun i hi => by cases hi⟩
    · cases Option.some.inj h
      exact ⟨hnew, fun i hi => by cases hi⟩
    · rename_i hi
      cases Option.some.inj h
      exact ⟨hnew, fun j hj => by cases hj; exact hi⟩

theorem writeTarget_creation {target : Except Errno Nat}
    (h : writeTarget sb path = some (sb', target)) :
    Creation sb path sb' ∧ ∀ i, target = .ok i → getInodeIndex sb' path = some i :=
  (writeTarget_made h).imp_left Made.creation

/-- A write fails and may leave a new empty file, or it edits its target. -/
theorem write_reply {data : Buffer} {offset : Int} {r : Reply}
    (h : fisopfsWrite sb path data offset = some r) :
    (Made sb path r.sb ∧ r.touched = 0) ∨
    ∃ sb' i, writeTarget sb path = some (sb', .ok i) ∧ (sb'.inodes i).type = .regular ∧
      toSize (offset + data.val.length) ≤ maxDataSize ∧ toSize offset ≤ (sb'.inodes i).size ∧
      r = ⟨sb'.setInode i ((sb'.inodes i).write data.val (toSize offset)), .ok data.val.length,
        max (toSize offset + data.val.length)
          (((sb'.inodes i).write data.val (toSize offset)).size + 1)⟩ := by
  rw [fisopfsWrite] at h
  split at h
  · cases throw_eq h
    exact .inl ⟨.same, rfl⟩
  · rename_i hfits
    obtain ⟨⟨sb', target⟩, htarget, h⟩ := Option.bind_eq_some_iff.mp h
    have hnew := (writeTarget_made htarget).1
    cases target with
    | error e =>
      cases throw_eq h
      exact .inl ⟨hnew, rfl⟩
    | ok i =>
      dsimp only at h
      split at h
      · cases throw_eq h
        exact .inl ⟨hnew, rfl⟩
      · rename_i hwithin
        split at h
        · cases throw_eq h
          exact .inl ⟨hnew, rfl⟩
        · rename_i htype
          exact .inr ⟨sb', i, htarget, not_not.mp htype, Nat.le_of_not_lt hfits,
            Nat.le_of_not_lt hwithin, (Option.some.inj h).symm⟩

/-- A write frees no slot, takes none beside the one of a new file, and changes no
type. -/
theorem write_frame {data : Buffer} {offset : Int} {r : Reply} {target : Except Errno Nat}
    (hfits : ¬ toSize (offset + data.val.length) > maxDataSize)
    (ht : writeTarget sb path = some (sb', target))
    (hr : fisopfsWrite sb path data offset = some r) :
    r.sb.inodesStates = sb'.inodesStates ∧
      ∀ k, (r.sb.inodes k).type = (sb'.inodes k).type := by
  rw [fisopfsWrite, if_neg hfits, ht, Option.bind_eq_bind, Option.bind_some] at hr
  cases target with
  | error e =>
    rw [throw_eq hr]
    exact ⟨rfl, fun _ => rfl⟩
  | ok i =>
    dsimp only at hr
    split at hr
    · rw [throw_eq hr]
      exact ⟨rfl, fun _ => rfl⟩
    · split at hr
      · rw [throw_eq hr]
        exact ⟨rfl, fun _ => rfl⟩
      · rw [← Option.some.inj hr]
        refine ⟨rfl, fun k => ?_⟩
        by_cases hk : k = i
        · rw [hk, Superblock.setInode_self, Inode.write_type]
        · rw [Superblock.setInode_of_ne hk]

theorem write_change {data : Buffer} {offset : Int} {r : Reply}
    (h : fisopfsWrite sb path data offset = some r) : Change sb path r.sb := by
  rcases write_reply h with ⟨hnew, -⟩ | ⟨sb', i, htarget, htype, hfits, hwithin, rfl⟩
  · exact .edit hnew.creation .same
  · obtain ⟨hnew, hfound⟩ := writeTarget_creation htarget
    exact .edit hnew (.write i data offset (hfound i rfl) htype hfits hwithin)

/-- A truncation fails, or it edits the file. -/
theorem truncate_reply {size : Int} {r : Reply} (h : fisopfsTruncate sb path size = some r) :
    (r.sb = sb ∧ r.touched = 0) ∨
    ∃ i, getInodeIndex sb path = some i ∧ (sb.inodes i).type = .regular ∧
      (size = 0 ∧ r = ⟨sb.setInode i (sb.inodes i).clear, .ok 0, maxDataSize⟩ ∨
        0 < size ∧ size ≤ maxDataSize ∧
          r = ⟨sb.setInode i ((sb.inodes i).truncate size.toNat), .ok 0,
            max ((sb.inodes i).contentLen + 1) size.toNat⟩) := by
  rw [fisopfsTruncate] at h
  split at h
  · cases throw_eq h
    exact .inl ⟨rfl, rfl⟩
  · rename_i hle
    split at h
    · cases throw_eq h
      exact .inl ⟨rfl, rfl⟩
    · rename_i i hi
      dsimp only at h
      split at h
      · cases throw_eq h
        exact .inl ⟨rfl, rfl⟩
      · rename_i htype
        refine .inr ⟨i, hi, not_not.mp htype, ?_⟩
        split at h
        · rename_i hzero
          exact .inl ⟨hzero, (Option.some.inj h).symm⟩
        · split at h
          · cases h
          · exact .inr ⟨by omega, by omega, (Option.some.inj h).symm⟩

theorem truncate_change {size : Int} {r : Reply} (h : fisopfsTruncate sb path size = some r) :
    Change sb path r.sb := by
  refine .edit .same ?_
  rcases truncate_reply h with ⟨hsb, -⟩ | ⟨i, hi, htype, ⟨-, rfl⟩ | ⟨hpos, hle, rfl⟩⟩
  · rw [hsb]
    exact .same
  · exact .clear i hi htype
  · exact .truncate i size.toNat hi htype (by omega) (by omega)

/-- Every reply of a callback is one change. -/
theorem reply_change {op : Op} {r : Reply} (h : op.reply sb = some r) :
    Change sb op.path r.sb := by
  cases op with
  | create path =>
    have hnew : newInode sb path .regular = some r := h
    exact .edit (newInode_creation hnew).1 .same
  | mkdir path =>
    have hnew : newInode sb path .directory = some r := h
    exact .edit (newInode_creation hnew).1 .same
  | write path data offset => exact write_change h
  | truncate path size => exact truncate_change h
  | unlink path => exact .remove (unlink_removal h).1
  | rmdir path => exact .remove (rmdir_removal h).1

end Fisopfs
end Sisop

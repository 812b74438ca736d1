import Sisop.Fisopfs.Readdir
import Sisop.Fisopfs.Volume

/-!
# The tree of directories

`new_inode` does not look whether the directory of a path is there, it writes `/`
as the parent of every directory, and `fisopfs_rmdir` compares the parents it
finds with a last component.  So the inodes form a tree as long as directories are
made in the root and files in the root or in a directory of it, and
`fisopfs_rmdir` is right as long as its path is the first with its name.
-/

namespace Sisop
namespace Fisopfs

open TransitionSystem

/-! ## What the tree is -/

/-- Every inode but the root has a directory in use as its parent, and names it. -/
def Tree (sb : Superblock) (g : Created) : Prop :=
  ∀ i q, g i = some q → q ≠ rootPath → ∃ j p, g j = some p ∧ (sb.inodes j).type = .directory ∧
    InDirectory p q ∧ (sb.inodes i).directoryPath = (sb.inodes j).path

/-- An inode in use was created below `p`. -/
def Below (g : Created) (p : List Byte) : Prop :=
  ∃ i rest, g i = some (p ++ slash :: rest)

/-- `fisopfs_rmdir` of `path` succeeds exactly for a directory, other than the root,
with nothing below. -/
def RmdirExact (sb : Superblock) (g : Created) (path : List Byte) : Prop :=
  (∃ r, fisopfsRmdir sb path = some r ∧ r.ret = .ok 0) ↔
    IsDirectory sb g path ∧ path ≠ rootPath ∧ ¬ Below g path

/-- A callback takes a slot only for an inode of an existing directory, which the
inode names as its parent, and a removal is exact. -/
structure TreeStep (x : Superblock × Created) (op : Op) (y : Superblock × Created) : Prop where
  creation : ∀ i, x.1.inodesStates i = .free → y.1.inodesStates i = .occupied →
    ∃ j p, x.2 j = some p ∧ (x.1.inodes j).type = .directory ∧ InDirectory p op.path ∧
      (y.1.inodes i).directoryPath = (x.1.inodes j).path
  removal : ∀ path, op = .rmdir path → RmdirExact x.1 x.2 path

/-! ## When callbacks keep it -/

/-- `new_inode` gets a slot for `path`. -/
def Room (sb : Superblock) (path : List Byte) : Prop :=
  path.length - 1 ≤ maxDataSize ∧ ∃ i, nextFreeInodeIndex sb (lastComponent path) = .ok i

/-- The callback creates an inode of this type. -/
def Makes (sb : Superblock) : Op → InodeType → Prop
  | .create path, type => type = .regular ∧ Room sb path
  | .mkdir path, type => type = .directory ∧ Room sb path
  | .write path data offset, type => type = .regular ∧
      toSize (offset + data.val.length) ≤ maxDataSize ∧ getInodeIndex sb path = none ∧ Room sb path
  | _, _ => False

/-- Where `new_inode` records the directory: a directory's place is the root, and a
file's the root or a directory in it. -/
def Place (sb : Superblock) (g : Created) (path : List Byte) : InodeType → Prop
  | .directory => InDirectory rootPath path
  | .regular => ∃ p, IsDirectory sb g p ∧ InDirectory p path ∧ slash ∉ p.tail

/-- The first slot with an inode that has the last component of `path`. -/
structure FirstNamed (g : Created) (path : List Byte) (j : Nat) (q : List Byte) : Prop where
  created : g j = some q
  ne_root : q ≠ rootPath
  name : lastComponent q = lastComponent path
  first : ∀ i q', i < j → g i = some q' → q' ≠ rootPath → lastComponent q' ≠ lastComponent path

/-- `fisopfs_rmdir` is led to a directory of another path, or to a file instead of
the directory, or it takes the inodes of another directory for those below `path`. -/
def Misled (sb : Superblock) (g : Created) (path : List Byte) : Prop :=
  (∃ j q, FirstNamed g path j q ∧ match (sb.inodes j).type with
    | .directory => q ≠ path
    | .regular => IsDirectory sb g path) ∨
  IsDirectory sb g path ∧ path ≠ slash :: lastComponent path ∧
    ∃ i q, g i = some q ∧ InDirectory (slash :: lastComponent path) q

/-- The callbacks that keep the tree. -/
structure Orderly (x : Superblock × Created) (op : Op) : Prop where
  absolute : AbsolutePath op.path
  place : ∀ type, Makes x.1 op type → Place x.1 x.2 op.path type
  rmdir : ∀ path, op = .rmdir path → ¬ Misled x.1 x.2 path
  no_truncate : ∀ path size, op ≠ .truncate path size

/-! ## Slots before and after -/

variable {sb sb' : Superblock} {g : Created} {path p q : List Byte} {i j k : Nat} {lost : Prop}

theorem Tracked.path_eq (h : Tracked lost (sb, g)) (hj : g j = some p) :
    (sb.inodes j).path = dirName p := by
  have hn := h.named
  unfold dirName
  split
  · rename_i hroot
    have hj0 : j = 0 := by_contra fun hne => (hn.name j p hne hj).1 hroot
    rw [hj0]
    exact hn.rootName
  · rename_i hroot
    exact (hn.name j p (hn.ne_zero_of_created hj hroot) hj).2.1

/-- A slot that is taken is filled by `new_inode`, for the path of the callback. -/
theorem newInode_taken {type : InodeType} {r : Reply} (hr : newInode sb path type = some r)
    (hfree : sb.inodesStates i = .free) (hocc : r.sb.inodesStates i = .occupied) :
    (r.sb.inodes i).type = type ∧ Room sb path := by
  have hlen : path.length - 1 ≤ maxDataSize := by
    by_contra hlong
    rw [newInode, if_pos (.inr (by omega))] at hr
    rw [← Option.some.inj hr, hfree] at hocc
    cases hocc
  rcases newInode_reply hr with ⟨e, rfl⟩ | ⟨k, parent, -, hnext, -, rfl⟩
  · rw [hfree] at hocc
    cases hocc
  · have hik : i = k := by
      by_contra hne
      rw [Superblock.setState_of_ne hne, Superblock.setInode_inodesStates, hfree] at hocc
      cases hocc
    rw [hik, Superblock.setState_inodes, Superblock.setInode_self]
    exact ⟨rfl, hlen, k, hnext⟩

/-- A write takes a slot when its file is not there. -/
theorem write_taken {data : Buffer} {offset : Int} {r : Reply}
    (hr : fisopfsWrite sb path data offset = some r)
    (hfree : sb.inodesStates i = .free) (hocc : r.sb.inodesStates i = .occupied) :
    Makes sb (.write path data offset) (r.sb.inodes i).type := by
  have hwrite := hr
  rw [fisopfsWrite] at hr
  split at hr
  · rw [throw_eq hr, hfree] at hocc
    cases hocc
  · rename_i hfits
    obtain ⟨⟨sb', target⟩, htarget, -⟩ := Option.bind_eq_some_iff.mp hr
    obtain ⟨hstates, htypes⟩ := write_frame hfits htarget hwrite
    rw [hstates] at hocc
    rw [htypes]
    rw [writeTarget] at htarget
    split at htarget
    · cases Option.some.inj htarget
      rw [hfree] at hocc
      cases hocc
    · rename_i hnone
      obtain ⟨r', hnew, htarget⟩ := Option.bind_eq_some_iff.mp htarget
      have hsb : sb' = r'.sb := by
        split at htarget
        all_goals
          cases Option.some.inj htarget
          rfl
      rw [hsb] at hocc ⊢
      obtain ⟨htype, hroom⟩ := newInode_taken hnew hfree hocc
      exact ⟨htype, Nat.le_of_not_lt hfits, hnone, hroom⟩

/-- The slots after a removal were in use before. -/
theorem removal_taken (hr : Removal sb path sb') (hfree : sb.inodesStates i = .free) :
    sb'.inodesStates i = .free := by
  cases hr with
  | same => exact hfree
  | remove k found leaf =>
    by_cases hik : i = k
    · rw [hik, Superblock.setState_self]
    · rw [Superblock.setState_of_ne hik, Superblock.setInode_inodesStates]
      exact hfree

/-- A slot that is taken holds an inode of the type the callback makes. -/
theorem makes_of_reply {op : Op} {r : Reply} (hr : op.reply sb = some r)
    (hfree : sb.inodesStates i = .free) (hocc : r.sb.inodesStates i = .occupied) :
    Makes sb op (r.sb.inodes i).type := by
  cases op with
  | create path =>
    have hnew : newInode sb path .regular = some r := hr
    exact newInode_taken hnew hfree hocc
  | mkdir path =>
    have hnew : newInode sb path .directory = some r := hr
    exact newInode_taken hnew hfree hocc
  | write path data offset => exact write_taken hr hfree hocc
  | truncate path size =>
    have hstates : r.sb.inodesStates i = .free := by
      rcases truncate_reply hr with ⟨hsb, -⟩ | ⟨k, -, -, ⟨-, rfl⟩ | ⟨-, -, rfl⟩⟩
      · rwa [hsb]
      · exact hfree
      · exact hfree
    rw [hstates] at hocc
    cases hocc
  | unlink path =>
    rw [removal_taken (unlink_removal hr).1 hfree] at hocc
    cases hocc
  | rmdir path =>
    rw [removal_taken (rmdir_removal hr).1 hfree] at hocc
    cases hocc

/-- An inode in use stays with its type, or its slot is cleared by a removal that
its path led to. -/
theorem kept_of_change (hc : Change sb path sb')
    (hi : sb.inodesStates i = .occupied) :
    (sb'.inodesStates i = .occupied ∧ (sb'.inodes i).type = (sb.inodes i).type) ∨
    (Removal sb path sb' ∧ sb'.inodesStates i = .free) ∧ getInodeIndex sb path = some i ∧
      ((sb.inodes i).type = .regular ∨
        ∀ j, j < maxInodes → (sb.inodes j).directoryPath ≠ lastComponent path) := by
  cases hc with
  | @edit sb₁ _ create edit =>
    refine .inl ?_
    have hcreate : sb₁.inodesStates i = .occupied ∧ (sb₁.inodes i).type = (sb.inodes i).type := by
      cases create with
      | same => exact ⟨hi, rfl⟩
      | new k type parent named next fits =>
        have hik : i ≠ k := by
          rintro rfl
          rw [(nextFreeInodeIndex_ok next).2.1] at hi
          cases hi
        rw [Superblock.setState_of_ne hik, Superblock.setState_inodes,
          Superblock.setInode_of_ne hik]
        exact ⟨hi, rfl⟩
    have hset : ∀ k (inode : Inode), inode.type = (sb₁.inodes k).type →
        (sb₁.setInode k inode).inodesStates i = .occupied ∧
        ((sb₁.setInode k inode).inodes i).type = (sb.inodes i).type := by
      intro k inode htype
      refine ⟨hcreate.1, ?_⟩
      by_cases hik : i = k
      · rw [hik, Superblock.setInode_self, htype, ← hik, hcreate.2]
      · rw [Superblock.setInode_of_ne hik, hcreate.2]
    cases edit with
    | same => exact hcreate
    | write k data offset found => exact hset k _ rfl
    | clear k found => exact hset k _ rfl
    | truncate k size found => exact hset k _ rfl
  | remove remove =>
    cases remove with
    | same => exact .inl ⟨hi, rfl⟩
    | remove k found leaf =>
      by_cases hik : i = k
      · subst hik
        exact .inr ⟨⟨.remove i found leaf, Superblock.setState_self⟩, found,
          leaf.imp_right And.right⟩
      · rw [Superblock.setState_of_ne hik, Superblock.setState_inodes,
          Superblock.setInode_of_ne hik]
        exact .inl ⟨hi, rfl⟩

theorem recordSlots_kept (hi : sb.inodesStates i = .occupied)
    (hi' : sb'.inodesStates i = .occupied) : recordSlots sb path sb' g i = g i := by
  simp [recordSlots, hi, hi']

/-- A directory that an inode names as its parent is not removed. -/
theorem Tracked.isDirectory_change (h : Tracked lost (sb, g)) (hc : Change sb path sb')
    (hp : IsDirectory sb g p)
    (hchild : Removal sb path sb' → ∃ i, i < maxInodes ∧ (sb.inodes i).directoryPath = dirName p) :
    ∃ j, g j = some p ∧ (sb.inodes j).type = .directory ∧
      recordSlots sb path sb' g j = some p ∧ (sb'.inodes j).type = .directory := by
  have hn := h.named
  obtain ⟨j, hj, hdir⟩ := hp
  have hocc := hn.occupied hj
  refine ⟨j, hj, hdir, ?_⟩
  rcases kept_of_change hc hocc with ⟨hocc', htype⟩ | ⟨⟨hremove, -⟩, hfound, hleaf⟩
  · rw [recordSlots_kept hocc hocc', htype]
    exact ⟨hj, hdir⟩
  · obtain ⟨i, hbound, hpath⟩ := hchild hremove
    rcases hleaf with hfile | hempty
    · rw [hdir] at hfile
      cases hfile
    · by_cases hroot : path = rootPath
      · refine absurd hn.rootParent ?_
        have hzero := hempty 0 (by decide)
        rwa [hroot] at hzero
      · refine absurd ?_ (hempty i hbound)
        rw [hpath, ← h.path_eq hj]
        exact (getInodeIndex_bears hroot hfound).2.2.symm

/-! ## One callback -/

/-- Without truncations every inode but the root names a parent. -/
theorem Filed.directoryPath_ne_nil (h : Filed False sb g) (hi : i ≠ 0) (hq : g i = some q) :
    (sb.inodes i).directoryPath ≠ [] := by
  rcases h.parent i q hi hq with hparent | ⟨hlost, -⟩
  · rcases parentPath_eq hparent with ⟨-, hdir⟩ | ⟨-, hdir⟩
    · rw [hdir]
      decide
    · rw [hdir]
      split
      · decide
      · rename_i hroot
        intro hnil
        rw [directoryOf, List.tail_cons] at hnil
        exact hroot (by rw [directoryOf, hnil]; rfl)
  · cases hlost

theorem Tracked.isDirectory_rootPath (h : Tracked lost (sb, g)) : IsDirectory sb g rootPath :=
  ⟨0, h.named.root, h.named.rootType⟩

/-- A slot that is taken holds an inode of a directory that stays, and names it. -/
theorem Tracked.creation_step (h : Tracked False (sb, g)) {op : Op} {r : Reply}
    (hr : op.reply sb = some r) (h' : Tracked False (r.sb, recordSlots sb op.path r.sb g))
    (hok : Orderly (sb, g) op) (hfree : sb.inodesStates i = .free)
    (hocc : r.sb.inodesStates i = .occupied) :
    ∃ j p, g j = some p ∧ (sb.inodes j).type = .directory ∧ InDirectory p op.path ∧
      recordSlots sb op.path r.sb g j = some p ∧ (r.sb.inodes j).type = .directory ∧
      (r.sb.inodes i).directoryPath = dirName p := by
  have hplace := hok.place _ (makes_of_reply hr hfree hocc)
  have hi0 := h.named.ne_zero_of_free hfree
  have hi : recordSlots sb op.path r.sb g i = some op.path := by
    simp [recordSlots, hfree, hocc]
  obtain ⟨hq, -, hname⟩ := h'.named.name i op.path hi0 hi
  have hne := h'.filed.directoryPath_ne_nil hi0 hi
  have hstay : ∀ p, Removal sb op.path r.sb →
      ∃ i, i < maxInodes ∧ (sb.inodes i).directoryPath = dirName p := by
    intro p hremove
    rw [removal_taken hremove hfree] at hocc
    cases hocc
  have hparent : ∃ p, IsDirectory sb g p ∧ InDirectory p op.path ∧ match (r.sb.inodes i).type with
      | .directory => p = rootPath
      | .regular => p = rootPath ∨ p = slash :: dirName p := by
    cases htype : (r.sb.inodes i).type with
    | directory =>
      rw [htype] at hplace
      exact ⟨rootPath, h.isDirectory_rootPath, hplace, rfl⟩
    | regular =>
      rw [htype] at hplace
      obtain ⟨p, hp, hin, hslash⟩ := hplace
      exact ⟨p, hp, hin, (slash_notMem_tail_iff (h.isDirectory_absolute hp)).mp hslash⟩
  obtain ⟨p, hp, hin, hshape⟩ := hparent
  obtain ⟨j, hj, hdir, hj', hdir'⟩ := h.isDirectory_change (reply_change hr) hp (hstay p)
  refine ⟨j, p, hj, hdir, hin, hj', hdir', ?_⟩
  have hpne : p ≠ [] := by
    rintro rfl
    cases (h.isDirectory_absolute hp).absolute
  have hdirectory := (inDirectory_iff hok.absolute hname hpne).mp hin
  refine (h'.directoryPath_iff ⟨j, hj', hdir'⟩ hi hq).mpr ?_
  cases htype : (r.sb.inodes i).type with
  | directory =>
    rw [htype] at hshape
    exact hshape
  | regular =>
    rw [htype] at hshape
    refine ⟨hne, ?_⟩
    rw [hdirectory]
    exact hshape.imp_left fun hroot => ⟨hroot, hroot⟩

/-- The directory of an inode that stays, and the string that names it, stay too. -/
theorem Tracked.tree_step (h : Tracked False (sb, g)) (ht : Tree sb g) {op : Op} {r : Reply}
    (hr : op.reply sb = some r) (h' : Tracked False (r.sb, recordSlots sb op.path r.sb g))
    (hok : Orderly (sb, g) op) : Tree r.sb (recordSlots sb op.path r.sb g) := by
  intro i q hi hq
  have hocc : r.sb.inodesStates i = .occupied := h'.named.occupied hi
  cases hstate : sb.inodesStates i with
  | free =>
    have hpath : q = op.path := by
      have hnew : recordSlots sb op.path r.sb g i = some op.path := by
        simp [recordSlots, hstate, hocc]
      rw [hnew] at hi
      exact (Option.some.inj hi).symm
    obtain ⟨j, p, -, -, hin, hj', hdir', hname⟩ := h.creation_step hr h' hok hstate hocc
    rw [hpath]
    exact ⟨j, p, hj', hdir', hin, by rw [hname, h'.path_eq hj']⟩
  | occupied =>
    have hgi : g i = some q := by rwa [recordSlots_kept hstate hocc] at hi
    obtain ⟨j₀, p, hj₀, hdir₀, hin, hname⟩ := ht i q hgi hq
    rw [h.path_eq hj₀] at hname
    have hchange := reply_change hr
    obtain ⟨j, -, -, hj', hdir'⟩ := h.isDirectory_change hchange ⟨j₀, hj₀, hdir₀⟩
      fun _ => ⟨i, h.named.bound i hstate, hname⟩
    refine ⟨j, p, hj', hdir', hin, ?_⟩
    rw [h'.path_eq hj', ← hname]
    rcases kept_of_change hchange hstate with ⟨-, htype⟩ | ⟨⟨-, hfree⟩, -⟩
    · have hi0 := h.named.ne_zero_of_created hgi hq
      rcases h.filed.parent i q hi0 hgi with hold | ⟨hlost, -⟩
      · rcases h'.filed.parent i q hi0 hi with hnew | ⟨hlost, -⟩
        · rw [htype, hold] at hnew
          exact (Option.some.inj hnew).symm
        · cases hlost
      · cases hlost
    · rw [hfree] at hocc
      cases hocc

/-- A lookup finds the first slot with the name. -/
theorem Tracked.firstNamed (h : Tracked lost (sb, g)) (hroot : path ≠ rootPath)
    (hk : getInodeIndex sb path = some k) : ∃ q, FirstNamed g path k q := by
  have hn := h.named
  obtain ⟨-, hbears⟩ := getInodeIndex_bears hroot hk
  have hk0 : k ≠ 0 := by
    rintro rfl
    exact hn.not_bears_zero hbears
  obtain ⟨q, hq⟩ := hn.created hbears.1
  obtain ⟨hqroot, hname, -⟩ := hn.name k q hk0 hq
  refine ⟨q, hq, hqroot, by rw [← hname, hbears.2], fun i q' hi hq' hroot' hname' => ?_⟩
  have hi0 := hn.ne_zero_of_created hq' hroot'
  exact getInodeIndex_first hroot hk hi (hn.bears_of_created hi0 hq' hname')

/-- In a tree every inode but the root lies in the root or in a directory of it, and
names that directory. -/
theorem Tracked.directoryOf_eq (h : Tracked False (sb, g)) (ht : Tree sb g) (hi : g i = some q)
    (hq : q ≠ rootPath) : ∃ p, IsDirectory sb g p ∧ InDirectory p q ∧ directoryOf q = p ∧
      (sb.inodes i).directoryPath = dirName p ∧ slash ∉ p.tail := by
  obtain ⟨j, p, hj, hdir, hin, hname⟩ := ht i q hi hq
  rw [h.path_eq hj] at hname
  have hp : IsDirectory sb g p := ⟨j, hj, hdir⟩
  have hpabs := h.isDirectory_absolute hp
  have hpne : p ≠ [] := by
    rintro rfl
    cases hpabs.absolute
  have hqname := (h.named.name i q (h.named.ne_zero_of_created hi hq) hi).2.2
  have hdirectory := (inDirectory_iff (h.filed.absolute i q hi) hqname hpne).mp hin
  refine ⟨p, hp, hin, hdirectory, hname, (slash_notMem_tail_iff hpabs).mpr ?_⟩
  have hshape := (h.directoryPath_iff hp hi hq).mp hname
  cases htype : (sb.inodes i).type with
  | directory =>
    rw [htype] at hshape
    exact .inl hshape
  | regular =>
    rw [htype] at hshape
    rcases hshape.2 with ⟨-, hroot⟩ | heq
    · exact .inl hroot
    · rw [hdirectory] at heq
      exact .inr heq

/-- What is below a path has the path's last component as its parent. -/
theorem Tracked.exists_named_of_below (h : Tracked False (sb, g)) (ht : Tree sb g)
    (hp : AbsolutePath path) (hroot : path ≠ rootPath) (hb : Below g path) :
    ∃ i, i < maxInodes ∧ (sb.inodes i).directoryPath = lastComponent path := by
  obtain ⟨i, rest, hi⟩ := hb
  have hcons := hp.eq_cons
  have htail : (path ++ slash :: rest).tail = path.tail ++ slash :: rest := by
    rw [hcons]
    rfl
  have hq : path ++ slash :: rest ≠ rootPath := by
    rw [hcons]
    simp [rootPath]
  obtain ⟨p, -, -, hdir, hname, hslash⟩ := h.directoryOf_eq ht hi hq
  refine ⟨i, h.named.bound i (h.named.occupied hi), ?_⟩
  have hrest : slash ∉ rest := by
    intro hmem
    refine hslash ?_
    rw [← hdir, directoryOf, List.tail_cons, htail, eq_append_lastComponent hmem,
      ← List.cons_append, ← List.append_assoc,
      getParentPathFromPath_append (slash_notMem_lastComponent rest)]
    simp
  have hpath : p = path := by
    rw [← hdir, directoryOf, htail, getParentPathFromPath_append hrest]
    exact hcons.symm
  rw [hname, hpath, dirName, if_neg hroot]

/-- When nothing is below a directory and its name misleads nobody, no inode names it
as its parent. -/
theorem Tracked.not_named_of_not_misled (h : Tracked False (sb, g)) (hz : ZeroFree sb)
    (ht : Tree sb g) (hm : ¬ Misled sb g path) (hdirectory : IsDirectory sb g path)
    (hroot : path ≠ rootPath) (hbelow : ¬ Below g path) (hlast : lastComponent path ≠ []) :
    (sb.inodes i).directoryPath ≠ lastComponent path := by
  have hn : Named sb g := h.named
  intro hname
  cases hstate : sb.inodesStates i with
  | free =>
    rw [hz i hstate] at hname
    have hnil : Inode.zero.directoryPath = [] := CString.strAt_eq_nil rfl
    exact hlast (hname.symm.trans hnil)
  | occupied =>
    obtain ⟨q, hi⟩ := hn.created hstate
    have hi0 : i ≠ 0 := by
      rintro rfl
      exact hlast (hname.symm.trans hn.rootParent)
    obtain ⟨p, hp, hin, -, hpname, hslash⟩ := h.directoryOf_eq ht hi (hn.name i q hi0 hi).1
    have heq : dirName p = lastComponent path := hpname.symm.trans hname
    have hp : p = slash :: lastComponent path := by
      rcases (slash_notMem_tail_iff (h.isDirectory_absolute hp)).mp hslash with hproot | hshape
      · rw [dirName, if_pos hproot] at heq
        exact absurd heq.symm (lastComponent_ne_rootPath path)
      · rwa [heq] at hshape
    by_cases hpath : path = slash :: lastComponent path
    · rw [hp, ← hpath] at hin
      obtain ⟨name, -, -, hq | ⟨hproot, -⟩⟩ := hin
      · exact hbelow ⟨i, name, by rw [hi, hq]⟩
      · exact hroot hproot
    · rw [hp] at hin
      exact hm (.inr ⟨hdirectory, hpath, i, q, hi, hin⟩)

/-- In a tree `fisopfs_rmdir` is exact, unless it is misled. -/
theorem Tracked.rmdirExact (h : Tracked False (sb, g)) (hz : ZeroFree sb) (ht : Tree sb g)
    (hp : AbsolutePath path) (hm : ¬ Misled sb g path) : RmdirExact sb g path := by
  have hn := h.named
  constructor
  · rintro ⟨r, hr, hret⟩
    rcases rmdir_reply hr with ⟨e, rfl⟩ | ⟨k, hk, hdir, -, hempty, -⟩
    · cases hret
    · have hroot : path ≠ rootPath := by
        rintro rfl
        exact hempty 0 (by decide) hn.rootParent
      obtain ⟨q, hfirst⟩ := h.firstNamed hroot hk
      have hqp : q = path := by
        by_contra hne
        refine hm (.inl ⟨k, q, hfirst, ?_⟩)
        rw [hdir]
        exact hne
      have hcreated := hfirst.created
      rw [hqp] at hcreated
      refine ⟨⟨k, hcreated, hdir⟩, hroot, fun hbelow => ?_⟩
      obtain ⟨i, hi, hname⟩ := h.exists_named_of_below ht hp hroot hbelow
      exact hempty i hi hname
  · rintro ⟨hdirectory, hroot, hbelow⟩
    obtain ⟨k, hk⟩ := h.exists_found hdirectory
    obtain ⟨q, hfirst⟩ := h.firstNamed hroot hk
    have hdir : (sb.inodes k).type = .directory := by
      cases htype : (sb.inodes k).type with
      | directory => rfl
      | regular =>
        refine absurd (.inl ⟨k, q, hfirst, ?_⟩) hm
        rw [htype]
        exact hdirectory
    have hlast : lastComponent path ≠ [] := by
      have hname := h.isDirectory_name hdirectory
      rwa [dirName, if_neg hroot] at hname
    have hpath : path ≠ [] := ne_nil_of_getInodeIndex hk
    have hfiles : getFilesInDirectory sb path = [] := by
      rw [getFilesInDirectory, getFilenameFromPath, if_neg hpath]
      refine List.filter_eq_nil_iff.mpr fun i hi hname => ?_
      have hname : (sb.inodes i).directoryPath = lastComponent path :=
        Option.some.inj (of_decide_eq_true hname)
      exact h.not_named_of_not_misled hz ht hm hdirectory hroot hbelow hlast hname
    exact ⟨_, by simp [fisopfsRmdir, hk, hdir, hfiles]; rfl, rfl⟩

/-! ## Every run -/

/-- What every orderly run keeps. -/
structure TreeInv (x : Superblock × Created) : Prop where
  tracked : Tracked False x
  zeroFree : ZeroFree x.1
  tree : Tree x.1 x.2

theorem tree_init : Tree buildSuperblock createdRoot := by
  intro i q hi hq
  by_cases h0 : i = 0
  · simp only [createdRoot, h0, if_true] at hi
    exact absurd (Option.some.inj hi).symm hq
  · simp [createdRoot, h0] at hi

theorem TreeInv.reply (h : TreeInv (sb, g)) {op : Op} (hok : Orderly (sb, g) op) {r : Reply}
    (hr : op.reply sb = some r) : TreeInv (r.sb, recordSlots sb op.path r.sb g) := by
  have ht := h.tracked.reply hok.absolute hok.no_truncate hr
  exact ⟨ht, h.zeroFree.change h.tracked.named (reply_change hr),
    h.tracked.tree_step h.tree hr ht hok⟩

theorem treeInv_of_reach {x : Superblock × Created} (h : Reach recorded Orderly x) :
    TreeInv x := by
  have hinit : ∀ x, recorded.init x → TreeInv x := by
    rintro ⟨sb, g⟩ ⟨hsb, hg⟩
    cases hsb
    cases hg
    exact ⟨Tracked.init, zeroFree_buildSuperblock, tree_init⟩
  have hstep : ∀ x op y, TreeInv x → Orderly x op → recorded.step x op y → TreeInv y := by
    rintro ⟨sb, g⟩ op ⟨sb', g'⟩ hx hok ⟨⟨r, hr, hsb⟩, hg⟩
    cases hsb
    have hrecord : g' = recordSlots sb op.path r.sb g := hg
    rw [hrecord]
    exact hx.reply hok hr
  exact h.invariant hinit hstep

/-- Every orderly run keeps the tree, and every orderly callback extends it in an
existing directory and removes just what is empty. -/
theorem tree_of_reach {x : Superblock × Created} (h : Reach recorded Orderly x) :
    Tree x.1 x.2 ∧ ∀ op y, Orderly x op → recorded.step x op y → TreeStep x op y := by
  have hinv := treeInv_of_reach h
  refine ⟨hinv.tree, ?_⟩
  obtain ⟨sb, g⟩ := x
  rintro op ⟨sb', g'⟩ hok ⟨⟨r, hr, hsb⟩, -⟩
  cases hsb
  constructor
  · intro i hfree hocc
    have hnew := (hinv.reply hok hr).tracked
    obtain ⟨j, p, hj, hdir, hin, -, -, hname⟩ := hinv.tracked.creation_step hr hnew hok hfree hocc
    exact ⟨j, p, hj, hdir, hin, by rw [hname, hinv.tracked.path_eq hj]⟩
  · rintro path rfl
    exact hinv.tracked.rmdirExact hinv.zeroFree hinv.tree hok.absolute (hok.rmdir path rfl)

/-- The tree with `/a`, where `/a/f` may be created. -/
theorem tree_slashA : ∃ x, Reach recorded Orderly x ∧
    Orderly x (.create [slash, 97#8, slash, 102#8]) ∧
    Tree x.1 x.2 ∧ ∀ op y, Orderly x op → recorded.step x op y → TreeStep x op y := by
  have hguard : ∀ x, ∀ op ∈ [Op.mkdir [slash, 97#8]], Orderly x op := by
    intro x op hop
    rw [List.mem_singleton] at hop
    subst hop
    refine ⟨⟨rfl, by decide⟩, fun type hmakes => ?_, fun _ hop => (by cases hop),
      fun _ _ hop => (by cases hop)⟩
    rw [hmakes.1]
    exact ⟨[97#8], by decide, by decide, .inr ⟨rfl, rfl⟩⟩
  have hrun : ([Op.mkdir [slash, 97#8]].foldlM recordedNext (buildSuperblock, createdRoot)).any
      (fun x => x.2 1 = some [slash, 97#8] ∧ (x.1.inodes 1).type = .directory) = true := by
    decide +kernel
  obtain ⟨x, hr, hx⟩ := exists_recorded hguard hrun
  obtain ⟨hcreated, htype⟩ := of_decide_eq_true hx
  refine ⟨x, hr, ⟨⟨rfl, by decide⟩, fun type hmakes => ?_, fun _ hop => (by cases hop),
    fun _ _ hop => (by cases hop)⟩, tree_of_reach hr⟩
  rw [hmakes.1]
  exact ⟨[slash, 97#8], ⟨1, hcreated, htype⟩, ⟨[102#8], by decide, by decide, .inl rfl⟩, by decide⟩

/-- `/x/f` is created though there is no `/x`, and `rmdir /a` succeeds though `/a/b` is
there. -/
theorem tree_broken : (∃ x, Reach recorded OnAbsolutePath x ∧ ¬ Tree x.1 x.2) ∧
    ∃ x, Reach recorded OnAbsolutePath x ∧ ¬ RmdirExact x.1 x.2 [slash, 97#8] := by
  constructor
  · have hmade : (fisopfsCreate buildSuperblock [slash, 120#8, slash, 102#8]).any
        (fun r => r.sb.inodesStates 1 = .occupied) = true := by decide +kernel
    obtain ⟨r, hr, hocc⟩ := (Option.any_eq_true _ _).mp hmade
    have hocc : r.sb.inodesStates 1 = .occupied := of_decide_eq_true hocc
    have hreach : Reach recorded OnAbsolutePath
        (r.sb, recordSlots buildSuperblock [slash, 120#8, slash, 102#8] r.sb createdRoot) :=
      .step (e := .create [slash, 120#8, slash, 102#8]) reach_empty ⟨rfl, by decide⟩
        ⟨⟨r, hr, rfl⟩, rfl⟩
    refine ⟨_, hreach, fun htree => ?_⟩
    have hcreated : recordSlots buildSuperblock [slash, 120#8, slash, 102#8] r.sb createdRoot 1 =
        some [slash, 120#8, slash, 102#8] := by
      simp [recordSlots, hocc, buildSuperblock]
    obtain ⟨j, p, hj, -, hin, -⟩ := htree 1 _ hcreated (by decide)
    have hp : p = [slash, 120#8, slash, 102#8] ∨ p = rootPath := by
      simp only [recordSlots, createdRoot] at hj
      split at hj
      · cases hj
      · split at hj
        · exact .inl (Option.some.inj hj).symm
        · split at hj
          · exact .inr (Option.some.inj hj).symm
          · cases hj
    have hne : p ≠ [] := by
      rcases hp with rfl | rfl <;> decide
    have hdir := (inDirectory_iff ⟨rfl, by decide⟩ (by decide) hne).mp hin
    rcases hp with rfl | rfl
    · exact absurd hdir (by decide)
    · exact absurd hdir (by decide)
  · obtain ⟨x, hr, -, hchild, -, hrmdir⟩ := exists_nestedDirectories
    exact ⟨x, hr, fun hexact => (hexact.mp hrmdir).2.2 ⟨2, [98#8], hchild⟩⟩

end Fisopfs
end Sisop

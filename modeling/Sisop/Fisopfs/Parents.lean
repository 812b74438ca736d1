import Sisop.Fisopfs.Content

/-!
# Directories in the inodes

A new file keeps the path of its directory without the slash in front, and a new
directory keeps `/` wherever it is made.  Nothing changes that string afterwards
but a truncation of a file whose bytes fill `content`: it zeroes the string too.
So the `directory_path` of an inode says where it was created, as far as
`parentPath` tells places apart.
-/

namespace Sisop
namespace Fisopfs

open TransitionSystem CString

/-! ## Directories of paths -/

/-- `q` is `p` followed by one more component. -/
def InDirectory (p q : List Byte) : Prop :=
  ∃ name, name ≠ [] ∧ slash ∉ name ∧
    (q = p ++ slash :: name ∨ p = rootPath ∧ q = slash :: name)

/-- The directory of an absolute path. -/
def directoryOf (path : List Byte) : List Byte := slash :: getParentPathFromPath path.tail

variable {p q u f path : List Byte}

theorem getParentPathFromPath_of_notMem (h : slash ∉ f) : getParentPathFromPath f = [] := by
  have hdrop : f.rdropWhile (· ≠ slash) = [] := by
    refine List.rdropWhile_eq_nil_iff.mpr fun x hx => decide_eq_true ?_
    rintro rfl
    exact h hx
  rw [getParentPathFromPath, hdrop]
  rfl

/-- The last slash is the one in front of a name. -/
theorem lastComponent_append (h : slash ∉ f) : lastComponent (u ++ slash :: f) = f := by
  have hf : ∀ x ∈ f.reverse, decide (x ≠ slash) = true := by
    intro x hx
    refine decide_eq_true ?_
    rintro rfl
    exact h (List.mem_reverse.mp hx)
  rw [lastComponent, List.rtakeWhile, List.reverse_append, List.reverse_cons, List.append_assoc,
    List.takeWhile_append_of_pos hf]
  simp

theorem getParentPathFromPath_append (h : slash ∉ f) :
    getParentPathFromPath (u ++ slash :: f) = u := by
  have hf : ∀ x ∈ f.reverse, decide (x ≠ slash) = true := by
    intro x hx
    refine decide_eq_true ?_
    rintro rfl
    exact h (List.mem_reverse.mp hx)
  rw [getParentPathFromPath, List.rdropWhile, List.reverse_append, List.reverse_cons,
    List.append_assoc, List.dropWhile_append_of_pos hf]
  simp

/-- A path with a slash is its directory, the slash and its last component. -/
theorem eq_append_lastComponent (h : slash ∈ path) :
    path = getParentPathFromPath path ++ slash :: lastComponent path := by
  have hne : path.rdropWhile (· ≠ slash) ≠ [] := by
    intro hnil
    have hall := List.rdropWhile_eq_nil_iff.mp hnil slash h
    exact absurd rfl (of_decide_eq_true hall)
  have hlast : (path.rdropWhile (· ≠ slash)).getLast hne = slash := by
    have hnot := List.rdropWhile_last_not _ _ hne
    simpa using hnot
  have hsplit : path = path.rdropWhile (· ≠ slash) ++ lastComponent path :=
    (List.rdropWhile_append_rtakeWhile ..).symm
  have hdir : path.rdropWhile (· ≠ slash) = getParentPathFromPath path ++ [slash] := by
    have hend := (List.dropLast_append_getLast hne).symm
    rwa [hlast] at hend
  calc path = path.rdropWhile (· ≠ slash) ++ lastComponent path := hsplit
    _ = getParentPathFromPath path ++ [slash] ++ lastComponent path := by rw [hdir]
    _ = _ := by rw [List.append_assoc]; rfl

theorem AbsolutePath.eq_cons (h : AbsolutePath path) : path = slash :: path.tail := by
  have habs := h.absolute
  cases path with
  | nil => cases habs
  | cons c t =>
    cases Option.some.inj habs
    rfl

/-- An absolute path lies in its directory and in no other. -/
theorem inDirectory_iff (hq : AbsolutePath q) (hname : lastComponent q ≠ []) (hp : p ≠ []) :
    InDirectory p q ↔ directoryOf q = p := by
  constructor
  · rintro ⟨name, hne, hslash, rfl | ⟨rfl, rfl⟩⟩
    · cases p with
      | nil => exact absurd rfl hp
      | cons c u =>
        have hc : c = slash := Option.some.inj hq.absolute
        rw [directoryOf, List.cons_append, List.tail_cons, getParentPathFromPath_append hslash, hc]
    · rw [directoryOf, List.tail_cons, getParentPathFromPath_of_notMem hslash]
      rfl
  · rintro rfl
    refine ⟨lastComponent q, hname, slash_notMem_lastComponent q, ?_⟩
    by_cases htail : slash ∈ q.tail
    · refine .inl ?_
      have hsplit := eq_append_lastComponent htail
      have hlast : lastComponent q = lastComponent q.tail := by
        calc lastComponent q = lastComponent (slash :: q.tail) := by rw [← hq.eq_cons]
          _ = lastComponent ((slash :: getParentPathFromPath q.tail) ++
                slash :: lastComponent q.tail) := by rw [List.cons_append, ← hsplit]
          _ = _ := lastComponent_append (slash_notMem_lastComponent q.tail)
      rw [directoryOf, hlast, List.cons_append, ← hsplit]
      exact hq.eq_cons
    · refine .inr ⟨?_, ?_⟩
      · rw [directoryOf, getParentPathFromPath_of_notMem htail]
        rfl
      · have hlast : lastComponent q = q.tail := by
          calc lastComponent q = lastComponent ([] ++ slash :: q.tail) := by
                rw [List.nil_append, ← hq.eq_cons]
            _ = _ := lastComponent_append htail
        rw [hlast]
        exact hq.eq_cons

/-- A new directory has `/` as its parent, and a new file its directory without the
slash in front. -/
theorem parentPath_eq {type : InodeType} {parent : List Byte}
    (h : parentPath path type = some parent) :
    type = .directory ∧ parent = rootPath ∨
    type = .regular ∧
      parent = if directoryOf path = rootPath then rootPath else (directoryOf path).tail := by
  cases type with
  | directory => exact .inl ⟨rfl, (Option.some.inj h).symm⟩
  | regular =>
    refine .inr ⟨rfl, ?_⟩
    rw [parentPath] at h
    split at h
    · rw [← Option.some.inj h, directoryOf, List.tail_cons]
      by_cases hnil : getParentPathFromPath path.tail = []
      · rw [if_pos hnil, if_pos (by rw [hnil]; rfl)]
      · have hne : slash :: getParentPathFromPath path.tail ≠ rootPath :=
          fun hroot => hnil (List.cons.inj hroot).2
        rw [if_neg hnil, if_neg hne]
    · cases h

/-- The parent of a new inode is a C string. -/
theorem zero_notMem_parentPath {type : InodeType} {parent : List Byte} (hp : AbsolutePath path)
    (h : parentPath path type = some parent) : 0#8 ∉ parent := by
  have hroot : 0#8 ∉ rootPath := by decide
  rcases parentPath_eq h with ⟨-, rfl⟩ | ⟨-, rfl⟩
  · exact hroot
  · split
    · exact hroot
    · intro hmem
      refine hp.string (List.mem_of_mem_tail ?_)
      rw [directoryOf, List.tail_cons, getParentPathFromPath] at hmem
      exact (List.rdropWhile_prefix _ _).subset (List.dropLast_subset _ hmem)

/-! ## `directory_path` -/

variable {sb sb' : Superblock} {g : Created} {lost : Prop} {i k : Nat}

theorem directoryPath_congr {inode inode' : Inode}
    (h : ∀ k, maxDataSize ≤ k → inode'.content k = inode.content k) :
    inode'.directoryPath = inode.directoryPath :=
  strAt_congr fun _ _ => h _ (Nat.le_add_right _ _)

theorem directoryPath_new {type : InodeType} {name parent : List Byte}
    (hlen : parent.length < maxPathLength) (hzero : 0#8 ∉ parent) :
    (Inode.new type name parent).directoryPath = parent := by
  rw [Inode.directoryPath, Inode.new_content]
  exact strAt_memcpy hlen hzero rfl

/-- A write stays in `content`, and the zero behind it was there before. -/
theorem directoryPath_write {inode : Inode} {d : List Byte} {o : Nat} (h : Stored inode)
    (hfits : o + d.length ≤ maxDataSize) :
    (inode.write d o).directoryPath = inode.directoryPath := by
  have hlast : memcpy inode.content o d (contentEnd - 1) = 0 := by
    rw [memcpy_above (Nat.le_trans hfits (by decide))]
    exact h.last
  have hstop := zero_at_strlen (Stored.strlen_lt hlast)
  rw [Nat.zero_add] at hstop
  refine directoryPath_congr fun k hk => ?_
  have hcopy : memcpy inode.content o d k = inode.content k :=
    memcpy_above (Nat.le_trans hfits hk)
  show memset0 (memcpy inode.content o d) _ _ k = inode.content k
  by_cases hend : k = strlen (memcpy inode.content o d) 0 contentEnd
  · rw [memset0_zero (by rw [hend]; exact hstop), ← hcopy, hend, hstop]
  · rw [memset0_outside (by unfold Inode.contentLen; dsimp only; omega), hcopy]

theorem directoryPath_clear {inode : Inode} : inode.clear.directoryPath = inode.directoryPath := by
  refine directoryPath_congr fun k hk => ?_
  rw [Inode.clear_content, memset0_outside (.inr hk)]

/-- A truncation stays in `content` too, unless the bytes of the file fill it. -/
theorem directoryPath_truncate {inode : Inode} {n : Nat} (hn : n ≤ maxDataSize) :
    (inode.truncate n).directoryPath = inode.directoryPath ∨
      (inode.truncate n).directoryPath = [] := by
  by_cases hlen : inode.contentLen < maxDataSize
  · refine .inl (directoryPath_congr fun k hk => ?_)
    unfold Inode.truncate
    dsimp only
    split
    · rw [memset0_outside (.inr (by omega)), memset0_outside (.inr (by omega)),
        memset0_outside (.inr (by omega))]
    · rw [memset0_outside (.inr (by omega)), memset0_outside (.inr (by omega))]
  · refine .inr (strAt_eq_nil ?_)
    have hzero : memset0 inode.content (min n (inode.contentLen + 1)) (inode.contentLen + 1)
        maxDataSize = 0 := by
      have hin :
          min n (inode.contentLen + 1) ≤ maxDataSize ∧ maxDataSize < inode.contentLen + 1 := by
        omega
      simp only [memset0, hin, and_self, if_true]
    unfold Inode.truncate
    dsimp only
    split
    · exact memset0_zero (memset0_zero hzero)
    · exact memset0_zero hzero

/-! ## Where each inode was created -/

/-- The `directory_path` of each inode but the root is the one it got at the path
it was created at, unless it is lost. -/
structure Filed (lost : Prop) (sb : Superblock) (g : Created) : Prop where
  absolute : ∀ i q, g i = some q → AbsolutePath q
  parent : ∀ i q, i ≠ 0 → g i = some q →
    parentPath q (sb.inodes i).type = some (sb.inodes i).directoryPath ∨
    lost ∧ (sb.inodes i).type = .regular ∧ (sb.inodes i).directoryPath = []

/-- Every callback is on an absolute path. -/
def OnAbsolutePath (_ : Superblock × Created) (op : Op) : Prop := AbsolutePath op.path

namespace Filed

theorem init : Filed lost buildSuperblock createdRoot := by
  constructor
  case absolute =>
    intro i q hq
    by_cases hi : i = 0
    · simp only [createdRoot, hi, if_true] at hq
      cases hq
      exact ⟨rfl, by decide⟩
    · simp [createdRoot, hi] at hq
  case parent =>
    intro i q hi hq
    simp [createdRoot, hi] at hq

/-- A slot and its record are replaced together. -/
theorem setSlot (h : Filed lost sb g) {inode : Inode} {st : InodeState} {o : Option (List Byte)}
    (hi : ∀ q, o = some q → AbsolutePath q ∧ parentPath q inode.type = some inode.directoryPath) :
    Filed lost ((sb.setInode i inode).setState i st) (Function.update g i o) := by
  refine ⟨fun k q hq => ?_, fun k q hk hq => ?_⟩
  · by_cases hki : k = i
    · rw [hki, Function.update_self] at hq
      exact (hi q hq).1
    · rw [Function.update_of_ne hki] at hq
      exact h.absolute k q hq
  · rw [Superblock.setState_inodes]
    by_cases hki : k = i
    · rw [hki, Function.update_self] at hq
      rw [hki, Superblock.setInode_self]
      exact .inl (hi q hq).2
    · rw [Function.update_of_ne hki] at hq
      rw [Superblock.setInode_of_ne hki]
      exact h.parent k q hk hq

/-- An inode is edited, and its string is kept or lost. -/
theorem setInode (h : Filed lost sb g) {inode : Inode} (htype : inode.type = (sb.inodes i).type)
    (hdir : inode.directoryPath = (sb.inodes i).directoryPath ∨
      lost ∧ inode.type = .regular ∧ inode.directoryPath = []) :
    Filed lost (sb.setInode i inode) g := by
  refine ⟨h.absolute, fun k q hk hq => ?_⟩
  by_cases hki : k = i
  · subst hki
    rw [Superblock.setInode_self]
    rcases hdir with hsame | hlost
    · rw [hsame, htype]
      exact h.parent k q hk hq
    · exact .inr hlost
  · rw [Superblock.setInode_of_ne hki]
    exact h.parent k q hk hq

theorem creation (h : Filed lost sb g) (hn : Named sb g) (hp : AbsolutePath path)
    {type : InodeType} {r : Reply} (hr : newInode sb path type = some r) :
    Filed lost r.sb (recordSlots sb path r.sb g) := by
  rcases newInode_reply hr with ⟨e, rfl⟩ | ⟨i, parent, -, hnext, hparent, rfl⟩
  · rwa [hn.recordSlots_self]
  · rw [hn.recordSlots_occupy (nextFreeInodeIndex_ok hnext).2.1]
    refine h.setSlot fun q hq => ?_
    cases hq
    refine ⟨hp, ?_⟩
    rw [directoryPath_new (length_parentPath hparent) (zero_notMem_parentPath hp hparent)]
    exact hparent

theorem made (h : Filed lost sb g) (hn : Named sb g) (hp : AbsolutePath path)
    (hm : Made sb path sb') : Filed lost sb' (recordSlots sb path sb' g) := by
  cases hm with
  | same => rwa [hn.recordSlots_self]
  | new hr => exact h.creation hn hp hr

theorem removal (h : Filed lost sb g) (hn : Named sb g) (hr : Removal sb path sb') :
    Filed lost sb' (recordSlots sb path sb' g) := by
  cases hr with
  | same => rwa [hn.recordSlots_self]
  | remove i found leaf =>
    rw [hn.recordSlots_free]
    exact h.setSlot fun q hq => by cases hq

theorem reply (h : Filed lost sb g) (hn : Named sb g) (hs : ∀ k, Stored (sb.inodes k)) {op : Op}
    (hp : AbsolutePath op.path) (hlost : ∀ path size, op = .truncate path size → lost) {r : Reply}
    (hr : op.reply sb = some r) : Filed lost r.sb (recordSlots sb op.path r.sb g) := by
  cases op with
  | create path =>
    have hnew : newInode sb path .regular = some r := hr
    exact h.creation hn hp hnew
  | mkdir path =>
    have hnew : newInode sb path .directory = some r := hr
    exact h.creation hn hp hnew
  | write path data offset =>
    rcases write_reply hr with ⟨hmade, -⟩ | ⟨sb', i, htarget, htype, hfits, hwithin, rfl⟩
    · exact h.made hn hp hmade
    · have hmade := (writeTarget_made htarget).1
      have hstored := stored_creation hs hmade.creation i
      have ho : toSize offset ≤ contentEnd := Nat.le_trans hwithin (Nat.le_of_lt hstored.size_lt)
      rw [toSize_add ho data.property] at hfits
      exact (h.made hn hp hmade).setInode rfl (.inl (directoryPath_write hstored hfits))
  | truncate path size =>
    have hsame := hn.recordSlots_self path
    rcases truncate_reply hr with ⟨hsb, -⟩ | ⟨i, hi, htype, ⟨-, rfl⟩ | ⟨hpos, hle, rfl⟩⟩
    · rwa [hsb, Op.path, hsame]
    · show Filed lost _ (recordSlots sb path sb g)
      rw [hsame]
      exact h.setInode rfl (.inl directoryPath_clear)
    · show Filed lost _ (recordSlots sb path sb g)
      rw [hsame]
      refine h.setInode rfl ((directoryPath_truncate (by omega)).imp_right fun hnil => ?_)
      exact ⟨hlost path size rfl, htype, hnil⟩
  | unlink path => exact h.removal hn (unlink_removal hr).1
  | rmdir path => exact h.removal hn (rmdir_removal hr).1

end Filed

/-- What is so after every run of callbacks on absolute paths. -/
structure Tracked (lost : Prop) (x : Superblock × Created) : Prop where
  named : Named x.1 x.2
  stored : ∀ k, Stored (x.1.inodes k)
  filed : Filed lost x.1 x.2

theorem Tracked.init : Tracked lost (buildSuperblock, createdRoot) :=
  ⟨Named.init, stored_init rfl, Filed.init⟩

theorem Tracked.reply (h : Tracked lost (sb, g)) {op : Op} (hp : AbsolutePath op.path)
    (hlost : ∀ path size, op = .truncate path size → lost) {r : Reply}
    (hr : op.reply sb = some r) : Tracked lost (r.sb, recordSlots sb op.path r.sb g) := by
  have hchange := reply_change hr
  exact ⟨h.named.change hchange, stored_change h.stored hchange,
    h.filed.reply h.named h.stored hp hlost hr⟩

theorem tracked_of_reach {x : Superblock × Created} (h : Reach recorded OnAbsolutePath x) :
    Tracked True x := by
  have hinit : ∀ x, recorded.init x → Tracked True x := by
    rintro ⟨sb, g⟩ ⟨hsb, hg⟩
    cases hsb
    cases hg
    exact Tracked.init
  have hstep : ∀ x op y, Tracked True x → OnAbsolutePath x op → recorded.step x op y →
      Tracked True y := by
    rintro ⟨sb, g⟩ op ⟨sb', g'⟩ hx hop ⟨⟨r, hr, hsb⟩, hg⟩
    cases hsb
    have hrecord : g' = recordSlots sb op.path r.sb g := hg
    rw [hrecord]
    exact hx.reply hop (fun _ _ _ => trivial) hr
  exact h.invariant hinit hstep

end Fisopfs
end Sisop

import Mathlib.Data.List.Nodup
import Sisop.Fisopfs.Parents

/-!
# Listing a directory

`fisopfs_readdir` lists the inodes whose `directory_path` is the name of the
directory, its last component or `/`.  That string is the directory of an inode
only for directories in the root and for files at most two levels deep.  The
listing of a path is right exactly when the path leads to a directory, no two
inodes in it have one name, and every inode in the directory and no other inode
carries its name.
-/

namespace Sisop
namespace Fisopfs

open TransitionSystem

def isChildInode (dirInode childInode : Inode) : Prop :=
  childInode.directoryPath = dirInode.path

instance (dirInode childInode : Inode) : Decidable (isChildInode dirInode childInode) :=
  inferInstanceAs (Decidable (_ = _))

/-- What `filler` is called with, and the value returned. -/
structure Listing where
  names : List (List Byte)
  /-- The slots the names behind `.` and `..` are in. -/
  slots : List Nat
  ret : Except Errno Nat

/-- `.` and `..` -/
def dots : List (List Byte) := [[46#8], [46#8, 46#8]]

def fisopfsReaddir (sb : Superblock) (path : List Byte) : Listing :=
  match getInodeIndex sb path with
  | none => ⟨dots, [], .error .enoent⟩
  | some k =>
    let dirInode := sb.inodes k
    if dirInode.type ≠ .directory then ⟨dots, [], .error .enotdir⟩
    else
      let slots := (List.range' 1 (maxInodes - 1)).filter fun i =>
        sb.inodesStates i = .occupied ∧ isChildInode dirInode (sb.inodes i)
      ⟨dots ++ slots.map fun i => (sb.inodes i).path, slots, .ok 0⟩

/-- A directory was created at `p` and not removed. -/
def IsDirectory (sb : Superblock) (g : Created) (p : List Byte) : Prop :=
  ∃ i, g i = some p ∧ (sb.inodes i).type = .directory

/-- The listing of `p` has the names of the inodes created in `p`, each once, and no
other inode's. -/
structure Lists (sb : Superblock) (g : Created) (p : List Byte) : Prop where
  ok : (fisopfsReaddir sb p).ret = .ok 0
  names : (fisopfsReaddir sb p).names =
    dots ++ (fisopfsReaddir sb p).slots.map fun i => (sb.inodes i).path
  once : ((fisopfsReaddir sb p).slots.map fun i => (sb.inodes i).path).Nodup
  exact : ∀ i, i ∈ (fisopfsReaddir sb p).slots ↔
    ∃ q, g i = some q ∧ q ≠ rootPath ∧ InDirectory p q

/-- The name of the directory `p` in its inode. -/
def dirName (p : List Byte) : List Byte := if p = rootPath then rootPath else lastComponent p

/-- When the listing of `p` is right. -/
structure Listable (sb : Superblock) (g : Created) (p : List Byte) : Prop where
  /-- The first inode with the name of `p` is not a file. -/
  leads : p ≠ rootPath → ¬ ∃ j q, g j = some q ∧ (sb.inodes j).type = .regular ∧
    lastComponent q = lastComponent p ∧
    ∀ i q', i < j → g i = some q' → q' ≠ rootPath → lastComponent q' ≠ lastComponent p
  /-- The inodes in `p` have different names. -/
  distinct : ∀ i j q q', g i = some q → g j = some q' → q ≠ rootPath → q' ≠ rootPath →
    InDirectory p q → InDirectory p q' → lastComponent q = lastComponent q' → i = j
  /-- Directories lie in the root, and files in the root or in a directory of it. -/
  own : ∀ i q, g i = some q → q ≠ rootPath → InDirectory p q →
    match (sb.inodes i).type with
    | .directory => p = rootPath
    | .regular => slash ∉ p.tail ∧ (sb.inodes i).directoryPath ≠ []
  /-- No directory lies elsewhere if `p` is the root, and no file lies in another
  directory that has the name of `p` and is in the root. -/
  foreign : ∀ i q, g i = some q → q ≠ rootPath → ¬ InDirectory p q →
    match (sb.inodes i).type with
    | .directory => p ≠ rootPath
    | .regular => InDirectory (slash :: dirName p) q → (sb.inodes i).directoryPath = []

/-! ## What is listed -/

variable {sb : Superblock} {g : Created} {p q : List Byte} {i k : Nat} {lost : Prop}

theorem Tracked.isDirectory_absolute (h : Tracked lost (sb, g)) (hp : IsDirectory sb g p) :
    AbsolutePath p := by
  obtain ⟨i, hi, -⟩ := hp
  exact h.filed.absolute i p hi

/-- The root or a path with a last component. -/
theorem Tracked.isDirectory_name (h : Tracked lost (sb, g)) (hp : IsDirectory sb g p) :
    dirName p ≠ [] := by
  obtain ⟨i, hi, -⟩ := hp
  unfold dirName
  split
  · decide
  · rename_i hroot
    exact (h.named.name i p (h.named.ne_zero_of_created hi hroot) hi).2.2

/-- A lookup of a directory finds an inode with its name. -/
theorem Tracked.found_name (h : Tracked lost (sb, g)) (hk : getInodeIndex sb p = some k) :
    (sb.inodes k).path = dirName p := by
  unfold dirName
  split
  · rename_i hroot
    rw [hroot, getInodeIndex_rootPath] at hk
    cases hk
    exact h.named.rootName
  · rename_i hroot
    exact (getInodeIndex_bears hroot hk).2.2.symm

theorem Tracked.exists_found (h : Tracked lost (sb, g)) (hp : IsDirectory sb g p) :
    ∃ k, getInodeIndex sb p = some k := by
  obtain ⟨i, hi, -⟩ := hp
  by_cases hroot : p = rootPath
  · exact ⟨0, by rw [hroot, getInodeIndex_rootPath]⟩
  · obtain ⟨k, -, hk⟩ := h.named.getInodeIndex_ne_none hi hroot rfl hroot
    exact ⟨k, hk⟩

/-- A lookup finds a directory when the first inode with the name is not a file. -/
theorem Tracked.found_directory_iff (h : Tracked lost (sb, g))
    (hk : getInodeIndex sb p = some k) : (sb.inodes k).type = .directory ↔
      (p ≠ rootPath → ¬ ∃ j q, g j = some q ∧ (sb.inodes j).type = .regular ∧
        lastComponent q = lastComponent p ∧
        ∀ i q', i < j → g i = some q' → q' ≠ rootPath → lastComponent q' ≠ lastComponent p) := by
  have hn := h.named
  by_cases hroot : p = rootPath
  · rw [hroot, getInodeIndex_rootPath] at hk
    cases hk
    exact ⟨fun _ hne => absurd hroot hne, fun _ => hn.rootType⟩
  obtain ⟨-, hbears⟩ := getInodeIndex_bears hroot hk
  have hk0 : k ≠ 0 := by
    rintro rfl
    exact hn.not_bears_zero hbears
  obtain ⟨q, hq⟩ := hn.created hbears.1
  obtain ⟨hqroot, hname, -⟩ := hn.name k q hk0 hq
  have hlast : lastComponent q = lastComponent p := by rw [← hname, hbears.2]
  constructor
  · rintro hdir - ⟨j, r, hj, hfile, hjname, hfirst⟩
    rcases Nat.lt_trichotomy k j with hlt | rfl | hlt
    · exact hfirst k q hlt hq hqroot hlast
    · rw [hdir] at hfile
      cases hfile
    · have hj0 : j ≠ 0 := by
        rintro rfl
        rw [hn.rootType] at hfile
        cases hfile
      exact getInodeIndex_first hroot hk hlt (hn.bears_of_created hj0 hj hjname)
  · intro hno
    cases htype : (sb.inodes k).type with
    | directory => rfl
    | regular =>
      refine absurd ⟨k, q, hq, htype, hlast, fun i q' hi hq' hroot' hname' => ?_⟩ (hno hroot)
      have hi0 := hn.ne_zero_of_created hq' hroot'
      exact getInodeIndex_first hroot hk hi (hn.bears_of_created hi0 hq' hname')

theorem dirName_eq_rootPath : dirName p = rootPath ↔ p = rootPath := by
  unfold dirName
  split
  · rename_i hroot
    simp [hroot]
  · rename_i hroot
    exact ⟨fun h => absurd h (lastComponent_ne_rootPath p), fun h => absurd h hroot⟩

/-- Whether an inode created at `q` carries the name of the directory `p`. -/
theorem Tracked.directoryPath_iff (h : Tracked lost (sb, g)) (hp : IsDirectory sb g p)
    (hi : g i = some q) (hq : q ≠ rootPath) : (sb.inodes i).directoryPath = dirName p ↔
      match (sb.inodes i).type with
      | .directory => p = rootPath
      | .regular => (sb.inodes i).directoryPath ≠ [] ∧
          (directoryOf q = rootPath ∧ p = rootPath ∨ directoryOf q = slash :: dirName p) := by
  have hname := h.isDirectory_name hp
  rcases h.filed.parent i q (h.named.ne_zero_of_created hi hq) hi with hparent | ⟨-, htype, hnil⟩
  · rcases parentPath_eq hparent with ⟨htype, hdir⟩ | ⟨htype, hdir⟩
    · rw [htype, hdir, eq_comm]
      exact dirName_eq_rootPath
    · rw [htype, hdir]
      by_cases hroot : directoryOf q = rootPath
      · have hno : directoryOf q ≠ slash :: dirName p := by
          rw [hroot]
          intro heq
          exact hname (List.cons.inj heq).2.symm
        simp only [hroot, if_true, true_and]
        rw [eq_comm, dirName_eq_rootPath]
        rw [hroot] at hno
        simp only [hno, or_false]
        exact ⟨fun hp => ⟨by decide, hp⟩, And.right⟩
      · simp only [hroot, if_false, false_and, false_or]
        have htail : (directoryOf q).tail = dirName p ↔ directoryOf q = slash :: dirName p := by
          rw [directoryOf, List.tail_cons, List.cons.injEq, eq_self, true_and]
        rw [htail]
        refine ⟨fun heq => ⟨?_, heq⟩, And.right⟩
        rwa [heq, List.tail_cons]
  · rw [htype, hnil]
    exact ⟨fun heq => absurd heq.symm hname, fun hno => absurd rfl hno.1⟩

/-- A directory that is found has its inodes listed. -/
theorem fisopfsReaddir_eq (hk : getInodeIndex sb p = some k)
    (hdir : (sb.inodes k).type = .directory) :
    fisopfsReaddir sb p = ⟨dots ++ (fisopfsReaddir sb p).slots.map fun i => (sb.inodes i).path,
      (fisopfsReaddir sb p).slots, .ok 0⟩ := by
  simp [fisopfsReaddir, hk, hdir]

theorem fisopfsReaddir_ret (hk : getInodeIndex sb p = some k)
    (h : (fisopfsReaddir sb p).ret = .ok 0) : (sb.inodes k).type = .directory := by
  rw [fisopfsReaddir, hk] at h
  dsimp only at h
  split at h
  · cases h
  · rename_i hdir
    exact not_not.mp hdir

/-- The slots listed are those in use that carry the name, but the root's. -/
theorem Tracked.mem_slots (h : Tracked lost (sb, g)) (hk : getInodeIndex sb p = some k)
    (hdir : (sb.inodes k).type = .directory) : i ∈ (fisopfsReaddir sb p).slots ↔
      ∃ q, g i = some q ∧ q ≠ rootPath ∧ (sb.inodes i).directoryPath = dirName p := by
  have hn := h.named
  have hname := h.found_name hk
  have hslots : i ∈ (fisopfsReaddir sb p).slots ↔
      (1 ≤ i ∧ i < maxInodes) ∧ sb.inodesStates i = .occupied ∧
        (sb.inodes i).directoryPath = dirName p := by
    simp only [fisopfsReaddir, hk, hdir, ne_eq, not_true, if_false, List.mem_filter,
      List.mem_range'_1, decide_eq_true_eq, isChildInode, hname]
    have hend : 1 + (maxInodes - 1) = maxInodes := rfl
    rw [hend]
  rw [hslots]
  constructor
  · rintro ⟨⟨hpos, -⟩, hocc, hpath⟩
    obtain ⟨q, hq⟩ := hn.created hocc
    exact ⟨q, hq, (hn.name i q (by omega) hq).1, hpath⟩
  · rintro ⟨q, hq, hroot, hpath⟩
    have hi0 := hn.ne_zero_of_created hq hroot
    have hocc := hn.occupied hq
    exact ⟨⟨by omega, hn.bound i hocc⟩, hocc, hpath⟩

theorem nodup_slots (hk : getInodeIndex sb p = some k)
    (hdir : (sb.inodes k).type = .directory) : (fisopfsReaddir sb p).slots.Nodup := by
  simp only [fisopfsReaddir, hk, hdir, ne_eq, not_true, if_false]
  exact (List.nodup_range' ..).filter _

/-! ## When it is right -/

/-- A path in the root or in a directory of the root: the rest of its directory has
no slash. -/
theorem slash_notMem_tail_iff (hp : AbsolutePath p) :
    slash ∉ p.tail ↔ p = rootPath ∨ p = slash :: dirName p := by
  have hcons := hp.eq_cons
  constructor
  · intro hno
    by_cases hroot : p = rootPath
    · exact .inl hroot
    · refine .inr ?_
      have hlast : lastComponent p = p.tail := by
        calc lastComponent p = lastComponent ([] ++ slash :: p.tail) := by
              rw [List.nil_append, ← hcons]
          _ = p.tail := lastComponent_append hno
      rw [dirName, if_neg hroot, hlast]
      exact hcons
  · rintro (rfl | heq)
    · decide
    · by_cases hroot : p = rootPath
      · rw [hroot]
        decide
      · rw [dirName, if_neg hroot] at heq
        rw [heq, List.tail_cons]
        exact slash_notMem_lastComponent p

/-- The inodes that carry the name of `p` are those in `p`, exactly when none in `p`
lies too deep and none elsewhere is mistaken for one in `p`. -/
theorem Tracked.carries_iff (h : Tracked lost (sb, g)) (hp : IsDirectory sb g p)
    (hi : g i = some q) (hq : q ≠ rootPath) :
    ((sb.inodes i).directoryPath = dirName p ↔ InDirectory p q) ↔
      (InDirectory p q → match (sb.inodes i).type with
        | .directory => p = rootPath
        | .regular => slash ∉ p.tail ∧ (sb.inodes i).directoryPath ≠ []) ∧
      (¬ InDirectory p q → match (sb.inodes i).type with
        | .directory => p ≠ rootPath
        | .regular => InDirectory (slash :: dirName p) q → (sb.inodes i).directoryPath = []) := by
  have habs := h.isDirectory_absolute hp
  have hne : p ≠ [] := by
    rintro rfl
    cases habs.absolute
  have hqname := (h.named.name i q (h.named.ne_zero_of_created hi hq) hi).2.2
  have hqabs := h.filed.absolute i q hi
  rw [h.directoryPath_iff hp hi hq, inDirectory_iff hqabs hqname hne,
    inDirectory_iff hqabs hqname (List.cons_ne_nil _ _), slash_notMem_tail_iff habs]
  cases (sb.inodes i).type with
  | directory =>
    by_cases hdir : directoryOf q = p
    · simp only [hdir, iff_true, true_imp_iff, not_true, false_imp_iff, and_true]
    · simp only [hdir, iff_false, false_imp_iff, not_false_eq_true, true_imp_iff, true_and, ne_eq]
  | regular =>
    by_cases hdir : directoryOf q = p
    · simp only [hdir, and_self, iff_true, true_imp_iff, not_true, false_imp_iff, and_true]
      exact and_comm
    · have hroot : ¬ (directoryOf q = rootPath ∧ p = rootPath) := by
        rintro ⟨hq, hp⟩
        exact hdir (hq.trans hp.symm)
      simp only [hroot, hdir, iff_false, false_or, false_imp_iff, not_false_eq_true, true_imp_iff,
        true_and, not_and, ne_eq]
      exact ⟨fun hno heq => by_contra fun hne => hno hne heq, fun hno hne heq => hne (hno heq)⟩

/-- No name is listed twice when the inodes in `p` have different names. -/
theorem Tracked.once_iff (h : Tracked lost (sb, g)) (hk : getInodeIndex sb p = some k)
    (hdir : (sb.inodes k).type = .directory)
    (hexact : ∀ i, i ∈ (fisopfsReaddir sb p).slots ↔
      ∃ q, g i = some q ∧ q ≠ rootPath ∧ InDirectory p q) :
    ((fisopfsReaddir sb p).slots.map fun i => (sb.inodes i).path).Nodup ↔
      ∀ i j q q', g i = some q → g j = some q' → q ≠ rootPath → q' ≠ rootPath →
        InDirectory p q → InDirectory p q' → lastComponent q = lastComponent q' → i = j := by
  have hname : ∀ i q, g i = some q → q ≠ rootPath → (sb.inodes i).path = lastComponent q :=
    fun i q hi hq => (h.named.name i q (h.named.ne_zero_of_created hi hq) hi).2.1
  rw [List.nodup_map_iff_inj_on (nodup_slots hk hdir)]
  constructor
  · intro hinj i j q q' hi hj hq hq' hin hin' heq
    refine hinj i ((hexact i).mpr ⟨q, hi, hq, hin⟩) j ((hexact j).mpr ⟨q', hj, hq', hin'⟩) ?_
    rw [hname i q hi hq, hname j q' hj hq', heq]
  · intro hdistinct i hi j hj heq
    obtain ⟨q, hi, hq, hin⟩ := (hexact i).mp hi
    obtain ⟨q', hj, hq', hin'⟩ := (hexact j).mp hj
    rw [hname i q hi hq, hname j q' hj hq'] at heq
    exact hdistinct i j q q' hi hj hq hq' hin hin' heq

/-- The listing of a directory is right exactly when `Listable` says so. -/
theorem lists_iff {x : Superblock × Created} (h : Reach recorded OnAbsolutePath x) {p : List Byte}
    (hp : IsDirectory x.1 x.2 p) : Lists x.1 x.2 p ↔ Listable x.1 x.2 p := by
  obtain ⟨sb, g⟩ := x
  have ht : Tracked True (sb, g) := tracked_of_reach h
  obtain ⟨k, hk⟩ := ht.exists_found hp
  constructor
  · intro hlists
    have hdir := fisopfsReaddir_ret hk hlists.ok
    have hcarry : ∀ i q, g i = some q → q ≠ rootPath →
        ((sb.inodes i).directoryPath = dirName p ↔ InDirectory p q) := by
      intro i q hi hq
      constructor
      · intro hpath
        obtain ⟨q', hi', -, hin⟩ :=
          (hlists.exact i).mp ((ht.mem_slots hk hdir).mpr ⟨q, hi, hq, hpath⟩)
        have hi₁ : g i = some q' := hi'
        rw [hi] at hi₁
        cases hi₁
        exact hin
      · intro hin
        obtain ⟨q', -, -, hpath⟩ :=
          (ht.mem_slots hk hdir).mp ((hlists.exact i).mpr ⟨q, hi, hq, hin⟩)
        exact hpath
    exact {
      leads := (ht.found_directory_iff hk).mp hdir
      distinct := (ht.once_iff hk hdir hlists.exact).mp hlists.once
      own := fun i q hi hq => ((ht.carries_iff hp hi hq).mp (hcarry i q hi hq)).1
      foreign := fun i q hi hq => ((ht.carries_iff hp hi hq).mp (hcarry i q hi hq)).2 }
  · intro hlistable
    have hdir := (ht.found_directory_iff hk).mpr hlistable.leads
    have hexact : ∀ i, i ∈ (fisopfsReaddir sb p).slots ↔
        ∃ q, g i = some q ∧ q ≠ rootPath ∧ InDirectory p q := by
      intro i
      rw [ht.mem_slots hk hdir]
      refine exists_congr fun q => and_congr_right fun hi => and_congr_right fun hq => ?_
      exact (ht.carries_iff hp hi hq).mpr ⟨hlistable.own i q hi hq, hlistable.foreign i q hi hq⟩
    exact {
      ok := by rw [fisopfsReaddir_eq hk hdir]
      names := by rw [fisopfsReaddir_eq hk hdir]
      once := (ht.once_iff hk hdir hexact).mpr hlistable.distinct
      exact := hexact }

/-- `/a` with the directory `/a/b` in it. -/
def nestedDirectories : List Op :=
  [.mkdir [slash, 97#8], .mkdir [slash, 97#8, slash, 98#8]]

/-- After `mkdir /a` and `mkdir /a/b` the directory `/a` is there, lists nothing, and can
be removed. -/
theorem exists_nestedDirectories : ∃ x, Reach recorded OnAbsolutePath x ∧
    IsDirectory x.1 x.2 [slash, 97#8] ∧ x.2 2 = some [slash, 97#8, slash, 98#8] ∧
    (fisopfsReaddir x.1 [slash, 97#8]).slots = [] ∧
    ∃ r, fisopfsRmdir x.1 [slash, 97#8] = some r ∧ r.ret = .ok 0 := by
  have hguard : ∀ x, ∀ op ∈ nestedDirectories, OnAbsolutePath x op := by
    intro x op hop
    have hop : op = .mkdir [slash, 97#8] ∨ op = .mkdir [slash, 97#8, slash, 98#8] := by
      simpa [nestedDirectories] using hop
    rcases hop with rfl | rfl
    · exact ⟨rfl, by decide⟩
    · exact ⟨rfl, by decide⟩
  have hrun : (nestedDirectories.foldlM recordedNext (buildSuperblock, createdRoot)).any
      (fun x => (x.2 1 = some [slash, 97#8] ∧ (x.1.inodes 1).type = .directory) ∧
        x.2 2 = some [slash, 97#8, slash, 98#8] ∧
        (fisopfsReaddir x.1 [slash, 97#8]).slots = [] ∧
        (fisopfsRmdir x.1 [slash, 97#8]).any (fun r => r.ret = .ok 0) = true) = true := by
    decide +kernel
  obtain ⟨x, hr, hx⟩ := exists_recorded hguard hrun
  obtain ⟨hdir, hchild, hslots, hrmdir⟩ := of_decide_eq_true hx
  obtain ⟨r, hrmdir, hret⟩ := (Option.any_eq_true _ _).mp hrmdir
  exact ⟨x, hr, ⟨1, hdir⟩, hchild, hslots, r, hrmdir, of_decide_eq_true hret⟩

/-- The law at `/a`, with `/a/b` in it. -/
theorem lists_slashA : ∃ x, Reach recorded OnAbsolutePath x ∧
    (Lists x.1 x.2 [slash, 97#8] ↔ Listable x.1 x.2 [slash, 97#8]) := by
  obtain ⟨x, hr, hdir, -⟩ := exists_nestedDirectories
  exact ⟨x, hr, lists_iff hr hdir⟩

/-- `/a` is listed without its directory `b`. -/
theorem readdir_misses_directory : ∃ x, Reach recorded OnAbsolutePath x ∧
    IsDirectory x.1 x.2 [slash, 97#8] ∧ ¬ Lists x.1 x.2 [slash, 97#8] := by
  obtain ⟨x, hr, hdir, hchild, hslots, -⟩ := exists_nestedDirectories
  refine ⟨x, hr, hdir, fun hlists => ?_⟩
  have hin : InDirectory [slash, 97#8] [slash, 97#8, slash, 98#8] :=
    ⟨[98#8], by decide, by decide, .inl rfl⟩
  have hmem := (hlists.exact 2).mpr ⟨_, hchild, by decide, hin⟩
  rw [hslots] at hmem
  cases hmem

end Fisopfs
end Sisop

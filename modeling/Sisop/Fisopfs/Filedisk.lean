import Sisop.Fisopfs.Volume

/-!
# The file behind the file system

The global `superblock` is one stretch of memory, and `fisopfs_destroy` writes its
bytes to the filedisk in order.  The file is empty once it is opened, so what an
interrupted `fisopfs_destroy` leaves is any first part of them.  `fisopfs_init`
reads a file over the zeros that a new process starts with, and does not look
whether the file was complete.

Integers have the sizes and the byte order of the machine: four bytes for an
`enum`, a `mode_t` and an owner, eight for a size and a time, the lowest first.
-/

namespace Sisop
namespace Fisopfs

open CString TransitionSystem

/-- The bytes of `superblock`, from its first on. -/
abbrev Memory := Nat → Byte

/-! ## Layout -/

/-- The integer in the `n` bytes at `p`. -/
def loadWord (m : Memory) (p : Nat) : Nat → Nat
  | 0 => 0
  | n + 1 => (m p).toNat + 256 * loadWord m (p + 1) n

/-- The `n` bytes of an integer. -/
def wordBytes : Nat → Nat → List Byte
  | 0, _ => []
  | n + 1, v => BitVec.ofNat 8 v :: wordBytes n (v / 256)

def storeWord (m : Memory) (p n v : Nat) : Memory := memcpy m p (wordBytes n v)

def offMode : Nat := 4
def offSize : Nat := 8
def offUid : Nat := 16
def offGid : Nat := 20
def offLastAccess : Nat := 24
def offLastModification : Nat := 32
def offCreationTime : Nat := 40
def offPath : Nat := 48
def offContent : Nat := offPath + maxPathLength
def offDirectoryPath : Nat := offContent + maxDataSize

/-- `sizeof(Inode)`. -/
def inodeSize : Nat := offDirectoryPath + maxPathLength

/-- Where `inodes_states` begins. -/
def statesBase : Nat := maxInodes * inodeSize

/-- `sizeof(superblock)`. -/
def superblockSize : Nat := statesBase + 4 * maxInodes

/-- The values of `DIRECTORY` and of `OCCUPIED`. -/
def directoryValue : Nat := 1
def occupiedValue : Nat := 1

/-- The inode whose bytes begin at `p`. -/
def inodeAt (m : Memory) (p : Nat) : Inode where
  type := if loadWord m p 4 = directoryValue then .directory else .regular
  size := loadWord m (p + offSize) 8
  path := strAt m (p + offPath) maxPathLength
  content := fun k => if k < contentEnd then m (p + offContent + k) else 0

/-- The superblock whose bytes these are. -/
def superblockOf (m : Memory) : Superblock where
  inodes i := if i < maxInodes then inodeAt m (i * inodeSize) else Inode.zero
  inodesStates i :=
    if i < maxInodes ∧ loadWord m (statesBase + 4 * i) 4 = occupiedValue then .occupied else .free

/-! ## Start and end of the program -/

/-- `build_root_directory`, where `gid` and the times come from the system. -/
def buildRootDirectory (m : Memory) (stamp : Stamp) : Memory :=
  let m := storeWord m 0 4 directoryValue
  let m := storeWord m offMode 4 0x41ed
  let m := storeWord m offSize 8 1024
  let m := storeWord m offUid 4 1717
  let m := storeWord m offGid 4 stamp.gid.toNat
  let m := storeWord m offLastAccess 8 stamp.lastAccess.toNat
  let m := storeWord m offLastModification 8 stamp.lastModification.toNat
  let m := storeWord m offCreationTime 8 stamp.creationTime.toNat
  let m := memcpy m offPath (rootPath ++ [0])
  let m := memset0 m offContent offDirectoryPath
  let m := memcpy m offDirectoryPath [0]
  storeWord m statesBase 4 occupiedValue

/-- `build_superblock`, on the bytes. -/
def buildBytes (m : Memory) (stamp : Stamp) : Memory :=
  buildRootDirectory (memset0 (memset0 m 0 statesBase) statesBase superblockSize) stamp

/-- The filedisk: no file, or the bytes of one. -/
abbrev Filedisk := Option (List Byte)

/-- `fread` of one superblock, and the number of superblocks it read. -/
def fread (m : Memory) (file : List Byte) : Memory × Nat :=
  (memcpy m 0 (file.take superblockSize), if superblockSize ≤ file.length then 1 else 0)

/-- `fisopfs_init`.  A file that is too short makes it return before `fclose`,
with what it read in `superblock`. -/
def fisopfsInit (m : Memory) (stamp : Stamp) : Filedisk → Memory
  | none => buildBytes m stamp
  | some file => (fread m file).1

/-- The filedisk while `fisopfs_destroy` runs: the file is opened and empty, then
it grows byte by byte. -/
inductive Destroying (m : Memory) : List Byte → Prop
  | opened : Destroying m []
  | wrote {file : List Byte} (h : Destroying m file) (more : file.length < superblockSize) :
      Destroying m (file ++ [m file.length])

/-- The filedisk after `fisopfs_destroy`, and after `fisopfs_flush`, which calls it. -/
def fisopfsDestroy (m : Memory) : List Byte := memread m 0 superblockSize

/-- The memory of a process that starts. -/
def startMemory : Memory := fun _ => 0

/-- Inode 0 is an occupied directory with path `/`. -/
structure Usable (m : Memory) : Prop where
  occupied : loadWord m statesBase 4 = occupiedValue
  type : loadWord m 0 4 = directoryValue
  path : strAt m offPath maxPathLength = rootPath

/-- The bytes of inode 0 and of its state that make it the root. -/
def rootBytes : List (Nat × Byte) :=
  [(0, 1), (1, 0), (2, 0), (3, 0), (offPath, slash), (offPath + 1, 0),
    (statesBase, 1), (statesBase + 1, 0), (statesBase + 2, 0), (statesBase + 3, 0)]

/-! ## Bytes that make the root -/

variable {m s : Memory} {p n k v : Nat} {file : List Byte} {stamp : Stamp}

theorem byte_eq_iff {b : Byte} {v : Nat} (hv : v < 256) :
    b.toNat = v ↔ b = BitVec.ofNat 8 v := by
  rw [BitVec.toNat_eq, BitVec.toNat_ofNat]
  omega

/-- A word is 1 when its lowest byte is and the others are 0. -/
theorem loadWord_eq_one : loadWord m p 4 = 1 ↔
    m p = 1#8 ∧ m (p + 1) = 0#8 ∧ m (p + 2) = 0#8 ∧ m (p + 3) = 0#8 := by
  rw [← byte_eq_iff (v := 1) (by decide), ← byte_eq_iff (v := 0) (by decide),
    ← byte_eq_iff (v := 0) (by decide), ← byte_eq_iff (v := 0) (by decide)]
  simp only [loadWord, Nat.add_assoc, Nat.reduceAdd]
  omega

theorem strAt_eq_rootPath : strAt m p maxPathLength = rootPath ↔
    m p = slash ∧ m (p + 1) = 0#8 := by
  have hlen : (1 : Nat) < maxPathLength := by decide
  constructor
  · intro h
    have hone : strlen m p maxPathLength = 1 := by
      have hl := congrArg List.length h
      rwa [strAt, length_memread] at hl
    have hread : memread m p 1 = rootPath := by
      rwa [strAt, hone] at h
    refine ⟨?_, ((strlen_eq_iff hlen).mp hone).1⟩
    simpa [memread, rootPath, List.range_succ] using hread
  · rintro ⟨hslash, hzero⟩
    have hone : strlen m p maxPathLength = 1 := by
      refine (strlen_eq_iff hlen).mpr ⟨hzero, fun i hi => ?_⟩
      obtain rfl : i = 0 := by omega
      rw [Nat.add_zero, hslash]
      decide
    rw [strAt, hone]
    simp [memread, rootPath, List.range_succ, hslash]

theorem usable_iff : Usable m ↔ ∀ b ∈ rootBytes, m b.1 = b.2 := by
  constructor
  · rintro ⟨hocc, htype, hpath⟩
    obtain ⟨h1, h2, h3, h4⟩ := loadWord_eq_one.mp hocc
    obtain ⟨h5, h6, h7, h8⟩ := loadWord_eq_one.mp htype
    obtain ⟨h9, h10⟩ := strAt_eq_rootPath.mp hpath
    simp only [rootBytes, List.forall_mem_cons]
    exact ⟨h5, h6, h7, h8, h9, h10, h1, h2, h3, h4, by simp⟩
  · intro h
    simp only [rootBytes, List.forall_mem_cons] at h
    obtain ⟨h5, h6, h7, h8, h9, h10, h1, h2, h3, h4, -⟩ := h
    exact ⟨loadWord_eq_one.mpr ⟨h1, h2, h3, h4⟩, loadWord_eq_one.mpr ⟨h5, h6, h7, h8⟩,
      strAt_eq_rootPath.mpr ⟨h9, h10⟩⟩

/-! ## What is written and what is read back -/

/-- An interrupted `fisopfs_destroy` leaves the first bytes of the superblock. -/
theorem destroying_iff : Destroying s file ↔ ∃ n, n ≤ superblockSize ∧ file = memread s 0 n := by
  constructor
  · intro h
    induction h with
    | opened => exact ⟨0, Nat.zero_le _, rfl⟩
    | wrote h more ih =>
      obtain ⟨n, -, rfl⟩ := ih
      rw [length_memread] at more ⊢
      refine ⟨n + 1, more, ?_⟩
      simp [memread, List.range_succ]
  · rintro ⟨n, hn, rfl⟩
    induction n with
    | zero => exact .opened
    | succ n ih =>
      have hfile := ih (by omega)
      have hgrow := hfile.wrote (by rw [length_memread]; omega)
      rw [length_memread] at hgrow
      have hsplit : memread s 0 (n + 1) = memread s 0 n ++ [s n] := by
        simp [memread, List.range_succ]
      rwa [hsplit]

/-- A file is read over the first bytes of the superblock. -/
theorem fisopfsInit_memread (hn : n ≤ superblockSize) :
    fisopfsInit m stamp (some (memread s 0 n)) k = if k < n then s k else m k := by
  have htake : (memread s 0 n).take superblockSize = memread s 0 n := by
    rw [List.take_of_length_le]
    rwa [length_memread]
  rw [fisopfsInit, fread, htake]
  by_cases hk : k < n
  · simp [memcpy, memread, hk]
  · simp [memcpy, memread, hk]

/-- What `fisopfs_destroy` wrote is loaded again, byte for byte. -/
theorem fisopfsInit_fisopfsDestroy (hk : k < superblockSize) :
    fisopfsInit m stamp (some (fisopfsDestroy s)) k = s k := by
  rw [fisopfsDestroy, fisopfsInit_memread (Nat.le_refl _), if_pos hk]

/-- The first bytes of a superblock make a root when they reach the state of inode 0
and are those of the root as far as they go. -/
theorem usable_prefix_iff (hn : n ≤ superblockSize) :
    Usable (fisopfsInit startMemory stamp (some (memread s 0 n))) ↔
      statesBase < n ∧ ∀ b ∈ rootBytes, b.1 < n → s b.1 = b.2 := by
  rw [usable_iff]
  simp only [fisopfsInit_memread hn]
  constructor
  · intro h
    refine ⟨Nat.lt_of_not_le fun hle => ?_, fun b hb hlt => ?_⟩
    · have hocc := h (statesBase, 1) (by simp [rootBytes])
      rw [if_neg (Nat.not_lt.mpr hle)] at hocc
      cases hocc
    · rw [← h b hb, if_pos hlt]
  · rintro ⟨hlong, hbytes⟩ b hb
    split
    · rename_i hlt
      exact hbytes b hb hlt
    · -- the bytes that are missing are the zeros of the word at `statesBase`
      rename_i hge
      have hzero : ∀ b ∈ rootBytes, statesBase < b.1 → b.2 = 0 := by decide
      exact (hzero b hb (by omega)).symm

/-! ## An empty file system -/

theorem length_wordBytes : (wordBytes n v).length = n := by
  induction n generalizing v with
  | zero => rfl
  | succ n ih => rw [wordBytes, List.length_cons, ih]

theorem storeWord_outside (h : k < p ∨ p + n ≤ k) : storeWord m p n v k = m k := by
  refine memcpy_outside ?_
  rwa [length_wordBytes]

theorem memcpy_zero (h : m k = 0) : memcpy m p [0] k = 0 := by
  by_cases hk : k = p
  · simp [memcpy, hk]
  · rw [memcpy_outside (by simp only [List.length_singleton]; omega), h]

/-- Beyond its path and its state the root has only zeros. -/
theorem buildBytes_zero (h : offPath + 2 ≤ k ∧ k < statesBase ∨
    statesBase + 4 ≤ k ∧ k < superblockSize) : buildBytes m stamp k = 0 := by
  have hclear : memset0 (memset0 m 0 statesBase) statesBase superblockSize k = 0 := by
    by_cases hk : k < statesBase
    · rw [memset0_outside (.inl hk)]
      simp [memset0, hk]
    · have hin : statesBase ≤ k ∧ k < superblockSize := by omega
      simp [memset0, hin]
  have hbase : statesBase = 1622016 := rfl
  have hpath : offPath = 48 := rfl
  rw [buildBytes, buildRootDirectory, storeWord_outside (by omega)]
  refine memcpy_zero (memset0_zero ?_)
  rw [memcpy_outside (by simp only [rootPath, List.cons_append, List.length_cons,
    List.length_nil, List.nil_append]; omega)]
  rw [storeWord_outside (by unfold offCreationTime; omega),
    storeWord_outside (by unfold offLastModification; omega),
    storeWord_outside (by unfold offLastAccess; omega),
    storeWord_outside (by unfold offGid; omega), storeWord_outside (by unfold offUid; omega),
    storeWord_outside (by unfold offSize; omega), storeWord_outside (by unfold offMode; omega),
    storeWord_outside (by omega)]
  exact hclear

/-- A byte in front of the owner's. -/
theorem buildBytes_head (h : k < offUid) : buildBytes m stamp k =
    memcpy (memcpy (memcpy (fun _ => 0) 0 (wordBytes 4 directoryValue)) offMode
      (wordBytes 4 0x41ed)) offSize (wordBytes 8 1024) k := by
  have hbase : statesBase = 1622016 := rfl
  have huid : offUid = 16 := rfl
  have hclear : memset0 (memset0 m 0 statesBase) statesBase superblockSize k = 0 := by
    rw [memset0_outside (.inl (by omega))]
    have hin : k < statesBase := by omega
    simp [memset0, hin]
  rw [buildBytes, buildRootDirectory, storeWord_outside (by omega),
    memcpy_outside (by unfold offDirectoryPath offContent offPath; omega),
    memset0_outside (by unfold offContent offPath; omega),
    memcpy_outside (by unfold offPath; omega),
    storeWord_outside (by unfold offCreationTime; omega),
    storeWord_outside (by unfold offLastModification; omega),
    storeWord_outside (by unfold offLastAccess; omega),
    storeWord_outside (by unfold offGid; omega), storeWord_outside (by omega)]
  simp only [storeWord, memcpy, hclear]

theorem buildBytes_path : buildBytes m stamp offPath = slash ∧
    buildBytes m stamp (offPath + 1) = 0 := by
  have hbase : statesBase = 1622016 := rfl
  have hpath : offPath = 48 := rfl
  constructor
  all_goals
    rw [buildBytes, buildRootDirectory, storeWord_outside (by omega),
      memcpy_outside (.inl (by unfold offDirectoryPath offContent maxPathLength; omega)),
      memset0_outside (.inl (by unfold offContent maxPathLength; omega))]
    simp [memcpy, rootPath]

theorem buildBytes_state : loadWord (buildBytes m stamp) statesBase 4 = occupiedValue := by
  refine loadWord_eq_one.mpr ?_
  simp [buildBytes, buildRootDirectory, storeWord, memcpy, wordBytes, occupiedValue]

/-- The empty file system has its root. -/
theorem usable_buildBytes : Usable (buildBytes m stamp) := by
  refine ⟨buildBytes_state, ?_, strAt_eq_rootPath.mpr buildBytes_path⟩
  refine loadWord_eq_one.mpr ?_
  rw [buildBytes_head (by decide), buildBytes_head (by decide), buildBytes_head (by decide),
    buildBytes_head (by decide)]
  decide

theorem loadWord_congr (m' : Memory) (h : ∀ k, k < n → m (p + k) = m' (p + k)) :
    loadWord m p n = loadWord m' p n := by
  induction n generalizing p with
  | zero => rfl
  | succ n ih =>
    have hrest : loadWord m (p + 1) n = loadWord m' (p + 1) n := ih fun k hk => by
      rw [Nat.add_assoc, Nat.add_comm 1]
      exact h (k + 1) (by omega)
    have hfirst : m p = m' p := h 0 (Nat.succ_pos n)
    rw [loadWord, loadWord, hrest, hfirst]

theorem loadWord_zero (h : ∀ k, k < n → m (p + k) = 0) : loadWord m p n = 0 := by
  rw [loadWord_congr startMemory h]
  clear h
  induction n generalizing p with
  | zero => rfl
  | succ n ih =>
    rw [loadWord, ih]
    rfl

/-- Zero bytes are an inode that is not in use. -/
theorem inodeAt_zero (h : ∀ k, k < inodeSize → m (p + k) = 0) : inodeAt m p = Inode.zero := by
  have hpath : offPath = 48 := rfl
  have hsize : inodeSize = 1584 := rfl
  have hcontent : offContent = 304 := rfl
  have hend : contentEnd = 1280 := rfl
  have htype : loadWord m p 4 = 0 := loadWord_zero fun k hk => h k (by omega)
  have hlen : loadWord m (p + offSize) 8 = 0 := by
    refine loadWord_zero fun k hk => ?_
    rw [Nat.add_assoc]
    exact h _ (by unfold offSize; omega)
  have hname : strAt m (p + offPath) maxPathLength = [] := strAt_eq_nil (h _ (by omega))
  have hbytes : (fun k => if k < contentEnd then m (p + offContent + k) else 0) = fun _ => 0 := by
    funext k
    split
    · rw [Nat.add_assoc]
      exact h _ (by omega)
    · rfl
  unfold inodeAt Inode.zero
  rw [htype, hlen, hname, hbytes]
  rfl

/-- The root of the empty file system. -/
theorem inodeAt_buildBytes : inodeAt (buildBytes m stamp) 0 = rootDirectory := by
  have htype : loadWord (buildBytes m stamp) 0 4 = directoryValue := usable_buildBytes.type
  have hpath : strAt (buildBytes m stamp) (0 + offPath) maxPathLength = rootPath := by
    rw [Nat.zero_add]
    exact usable_buildBytes.path
  have hsize : loadWord (buildBytes m stamp) (0 + offSize) 8 = 1024 := by
    have huid : 0 + offSize + 8 = offUid := rfl
    rw [loadWord_congr _ fun k hk => buildBytes_head (by omega)]
    decide
  have hbytes : (fun k => if k < contentEnd then buildBytes m stamp (0 + offContent + k) else 0) =
      fun _ => 0 := by
    funext k
    split
    · refine buildBytes_zero (.inl ?_)
      have hcontent : offContent = 304 := rfl
      have hoff : offPath = 48 := rfl
      have hbase : statesBase = 1622016 := rfl
      have hend : contentEnd = 1280 := rfl
      omega
    · rfl
  unfold inodeAt rootDirectory
  rw [htype, hpath, hsize, hbytes]
  rfl

/-- The bytes `build_superblock` leaves are those of the empty superblock. -/
theorem superblockOf_buildBytes : superblockOf (buildBytes m stamp) = buildSuperblock := by
  have hbase : statesBase = 1622016 := rfl
  have hsize : inodeSize = 1584 := rfl
  have hinodes : maxInodes = 1024 := rfl
  have hend : superblockSize = 1626112 := rfl
  have hpath : offPath = 48 := rfl
  rw [superblockOf, buildSuperblock]
  congr 1
  · funext i
    by_cases h0 : i = 0
    · rw [h0, Nat.zero_mul, if_pos (by decide), if_pos rfl]
      exact inodeAt_buildBytes
    · rw [if_neg h0]
      split
      · have hplace : 1584 ≤ i * inodeSize ∧ i * inodeSize + 1584 ≤ statesBase := by
          rw [hsize]
          omega
        exact inodeAt_zero fun k hk => buildBytes_zero (.inl (by omega))
      · rfl
  · funext i
    by_cases h0 : i = 0
    · rw [h0, if_pos ⟨by decide, buildBytes_state⟩, if_pos rfl]
    · rw [if_neg h0, if_neg]
      rintro ⟨hi, hocc⟩
      have hzero : loadWord (buildBytes m stamp) (statesBase + 4 * i) 4 = 0 :=
        loadWord_zero fun k hk => buildBytes_zero (.inr (by omega))
      rw [hzero] at hocc
      cases hocc

/-! ## Every way a program can start -/

/-- What `fisopfs_init` promises for the filedisks of the superblock `s`. -/
structure Restores (s : Memory) : Prop where
  complete : ∀ m stamp k, k < superblockSize →
    fisopfsInit m stamp (some (fisopfsDestroy s)) k = s k
  interrupted : ∀ stamp file, Destroying s file →
    Usable (fisopfsInit startMemory stamp (some file))

/-- A completed `fisopfs_destroy` is undone, a missing file gives an empty file
system, and what an interrupted `fisopfs_destroy` leaves gives a usable one exactly
when it reaches the state of inode 0 and the root is in what there is. -/
theorem fisopfsInit_spec (s : Memory) (stamp : Stamp) :
    (∀ m k, k < superblockSize → fisopfsInit m stamp (some (fisopfsDestroy s)) k = s k) ∧
    superblockOf (fisopfsInit startMemory stamp none) = buildSuperblock ∧
    Usable (fisopfsInit startMemory stamp none) ∧
    ∀ file, Destroying s file →
      (Usable (fisopfsInit startMemory stamp (some file)) ↔
        statesBase < file.length ∧ ∀ b ∈ rootBytes, b.1 < file.length → s b.1 = b.2) := by
  refine ⟨fun m k hk => fisopfsInit_fisopfsDestroy hk, superblockOf_buildBytes,
    usable_buildBytes, fun file hfile => ?_⟩
  obtain ⟨n, hn, rfl⟩ := destroying_iff.mp hfile
  rw [length_memread]
  exact usable_prefix_iff hn

/-- The bytes of a superblock with its root in place are usable. -/
theorem usable_of_rooted {v : Volume} (h : Rooted v) (hs : superblockOf s = v.sb) : Usable s := by
  have hocc := h.occupied
  have htype := h.type
  have hpath := h.path
  rw [← hs, superblockOf] at hocc htype hpath
  dsimp only at hocc htype hpath
  rw [if_pos (by decide), Nat.zero_mul] at htype hpath
  refine ⟨by_contra fun hno => ?_, by_contra fun hno => ?_, ?_⟩
  · rw [if_neg fun hand => hno hand.2] at hocc
    cases hocc
  · rw [inodeAt, if_neg hno] at htype
    cases htype
  · rwa [inodeAt, Nat.zero_add] at hpath

/-- For the bytes of a file system in use, an interrupted `fisopfs_destroy` does no
harm once it has reached the state of inode 0. -/
theorem usable_interrupted_iff {v : Volume} (hv : Reach volume FromVfs v)
    (hs : superblockOf s = v.sb) (hfile : Destroying s file) :
    Usable (fisopfsInit startMemory stamp (some file)) ↔ statesBase < file.length := by
  have hroot := usable_iff.mp (usable_of_rooted (rooted_of_reach hv) hs)
  obtain ⟨n, hn, rfl⟩ := destroying_iff.mp hfile
  rw [usable_prefix_iff hn, length_memread]
  exact ⟨And.left, fun hlong => ⟨hlong, fun b hb _ => hroot b hb⟩⟩

/-- An empty file, which an interrupted `fisopfs_destroy` of an empty file system can
leave, starts a file system without a root. -/
theorem empty_filedisk_unusable : ¬ Restores (buildBytes startMemory Stamp.zero) := by
  intro h
  have husable := h.interrupted Stamp.zero [] .opened
  have hempty : memread (buildBytes startMemory Stamp.zero) 0 0 = [] := rfl
  rw [← hempty, usable_prefix_iff (Nat.zero_le _)] at husable
  exact Nat.not_lt_zero _ husable.1

end Fisopfs
end Sisop

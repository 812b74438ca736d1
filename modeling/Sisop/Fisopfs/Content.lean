import Sisop.Fisopfs.PathCopies

/-!
# The content of a file

`fisopfs_write` takes the size of a file from its bytes: the size is the place of
the first zero.  So a file keeps what is written to it as long as no byte of it
is zero, and `strlen` stays inside `content` as long as some byte of `content` is.
Past the end of `content` it stops in `directory_path`, whose last byte is always
zero.
-/

namespace Sisop
namespace Fisopfs

open TransitionSystem CString

/-! ## Offsets -/

theorem toSize_add {offset : Int} {n : Nat} (ho : toSize offset ≤ contentEnd) (hn : n < 2 ^ 63) :
    toSize (offset + n) = toSize offset + n := by
  unfold toSize contentEnd maxDataSize maxPathLength at *
  omega

theorem toSize_natCast {n : Nat} (hn : n < 2 ^ 64) : toSize (n : Int) = n := by
  unfold toSize
  omega

/-! ## What is always so -/

variable {sb sb' : Superblock} {path : List Byte} {i : Nat}

theorem contentEnd_pos : 0 < contentEnd := by decide

/-- The size stays within `content` and `directory_path`, which end in a zero. -/
structure Stored (inode : Inode) : Prop where
  size_lt : inode.size < contentEnd
  last : inode.content (contentEnd - 1) = 0

namespace Stored

theorem zero : Stored Inode.zero := ⟨by decide, rfl⟩

theorem strlen_lt {c : Nat → Byte} (h : c (contentEnd - 1) = 0) :
    strlen c 0 contentEnd < contentEnd := by
  have hz : c (0 + (contentEnd - 1)) = 0 := by rwa [Nat.zero_add]
  exact strlen_lt_of_zero (by decide) hz

theorem write {inode : Inode} {d : List Byte} {o : Nat} (h : Stored inode)
    (hfits : o + d.length ≤ maxDataSize) : Stored (inode.write d o) := by
  have hend : o + d.length ≤ contentEnd - 1 := Nat.le_trans hfits (by decide)
  have hlast : memcpy inode.content o d (contentEnd - 1) = 0 := by
    rw [memcpy_above hend]
    exact h.last
  exact ⟨strlen_lt hlast, memset0_zero hlast⟩

theorem clear {inode : Inode} (h : Stored inode) : Stored inode.clear := by
  refine ⟨contentEnd_pos, ?_⟩
  rw [Inode.clear_content]
  exact memset0_zero h.last

theorem truncate {inode : Inode} {n : Nat} (h : Stored inode) (hn : n ≤ maxDataSize) :
    Stored (inode.truncate n) := by
  refine ⟨Nat.lt_of_le_of_lt hn (by decide), ?_⟩
  unfold Inode.truncate
  dsimp only
  split
  · exact memset0_zero (memset0_zero (memset0_zero h.last))
  · exact memset0_zero (memset0_zero h.last)

theorem new {type : InodeType} {name parent : List Byte} (h : parent.length < maxPathLength) :
    Stored (Inode.new type name parent) := by
  refine ⟨contentEnd_pos, ?_⟩
  have hend : maxDataSize + parent.length ≤ contentEnd - 1 := by
    unfold contentEnd
    omega
  rw [Inode.new_content, memcpy_above hend]

end Stored

/-- A property of inodes that an update of one slot keeps for all of them. -/
theorem forall_setInode {P : Inode → Prop} {inode : Inode} (h : ∀ k, P (sb.inodes k))
    (hi : P inode) : ∀ k, P ((sb.setInode i inode).inodes k) := by
  intro k
  by_cases hk : k = i
  · rw [hk, Superblock.setInode_self]
    exact hi
  · rw [Superblock.setInode_of_ne hk]
    exact h k

theorem stored_creation (h : ∀ k, Stored (sb.inodes k)) (hc : Creation sb path sb') :
    ∀ k, Stored (sb'.inodes k) := by
  cases hc with
  | same => exact h
  | new i type parent named next fits => exact forall_setInode h (Stored.new fits)

theorem stored_edit (h : ∀ k, Stored (sb.inodes k)) (he : Edit sb path sb') :
    ∀ k, Stored (sb'.inodes k) := by
  cases he with
  | same => exact h
  | write i data offset found regular fits within =>
    have ho : toSize offset ≤ contentEnd :=
      Nat.le_trans within (Nat.le_of_lt (h i).size_lt)
    rw [toSize_add ho data.property] at fits
    exact forall_setInode h ((h i).write fits)
  | clear i found regular => exact forall_setInode h (h i).clear
  | truncate i size found regular pos fits => exact forall_setInode h ((h i).truncate fits)

theorem stored_change (h : ∀ k, Stored (sb.inodes k)) (hc : Change sb path sb') :
    ∀ k, Stored (sb'.inodes k) := by
  cases hc with
  | edit create edit => exact stored_edit (stored_creation h create) edit
  | remove remove =>
    cases remove with
    | same => exact h
    | remove i found leaf => exact forall_setInode h Stored.zero

theorem stored_init (h : fisopfs.init sb) (k : Nat) : Stored (sb.inodes k) := by
  have hsb : sb = buildSuperblock := h
  by_cases hk : k = 0
  · simp only [hsb, buildSuperblock, hk, if_true]
    exact ⟨by decide, rfl⟩
  · simp only [hsb, buildSuperblock, hk, if_false]
    exact Stored.zero

theorem stored_of_reach {guard : Superblock → Op → Prop} (h : Reach fisopfs guard sb) :
    ∀ k, Stored (sb.inodes k) := by
  have hstep : ∀ sb op sb', (∀ k, Stored (sb.inodes k)) → guard sb op → fisopfs.step sb op sb' →
      ∀ k, Stored (sb'.inodes k) := by
    rintro sb op sb' hsb - ⟨r, hr, rfl⟩
    exact stored_change hsb (reply_change hr)
  exact h.invariant (fun _ => stored_init) hstep

/-! ## Staying inside `content` -/

/-- The file ends before `content` does, and so does a search for a zero. -/
structure Terminated (inode : Inode) : Prop where
  size_le : inode.size ≤ maxDataSize
  zero : ∃ j, j < maxDataSize ∧ inode.content j = 0

/-- A write that goes through leaves a zero in `content`, and a file is not
truncated to a negative size. -/
def LeavesZero (sb : Superblock) : Op → Prop
  | .write path data offset => ∀ sb' i, writeTarget sb path = some (sb', .ok i) →
      (sb'.inodes i).type = .regular → toSize (offset + data.val.length) ≤ maxDataSize →
      toSize offset ≤ (sb'.inodes i).size →
      ∃ j, j < maxDataSize ∧ memcpy (sb'.inodes i).content (toSize offset) data.val j = 0
  | .truncate path size => ∀ i, getInodeIndex sb path = some i →
      (sb.inodes i).type = .regular → 0 ≤ size
  | _ => True

namespace Terminated

theorem strlen_lt {c : Nat → Byte} (h : ∃ j, j < maxDataSize ∧ c j = 0) :
    strlen c 0 contentEnd < maxDataSize := by
  obtain ⟨j, hj, hz⟩ := h
  have hz' : c (0 + j) = 0 := by rwa [Nat.zero_add]
  exact Nat.lt_of_le_of_lt (strlen_le_of_zero hz') hj

theorem write {inode : Inode} {d : List Byte} {o : Nat}
    (h : ∃ j, j < maxDataSize ∧ memcpy inode.content o d j = 0) :
    (inode.write d o).size < maxDataSize ∧ Terminated (inode.write d o) := by
  have hlen := strlen_lt h
  obtain ⟨j, hj, hz⟩ := h
  exact ⟨hlen, Nat.le_of_lt hlen, j, hj, memset0_zero hz⟩

theorem clear {inode : Inode} : Terminated inode.clear :=
  ⟨Nat.zero_le _, 0, by decide, by simp [Inode.clear, memset0, maxDataSize]⟩

theorem truncate {inode : Inode} {n : Nat} (h : Terminated inode) (hn : n ≤ maxDataSize) :
    Terminated (inode.truncate n) := by
  obtain ⟨j, hj, hz⟩ := h.zero
  refine ⟨hn, j, hj, ?_⟩
  unfold Inode.truncate
  dsimp only
  split
  · exact memset0_zero (memset0_zero (memset0_zero hz))
  · exact memset0_zero (memset0_zero hz)

theorem new {type : InodeType} {name parent : List Byte} :
    Terminated (Inode.new type name parent) := by
  have h0 : 0 < maxDataSize := by decide
  refine ⟨Nat.zero_le _, 0, h0, ?_⟩
  rw [Inode.new_content, memcpy_below h0]

theorem zeroInode : Terminated Inode.zero := ⟨Nat.zero_le _, 0, by decide, rfl⟩

end Terminated

/-- Every file is terminated. -/
def AllTerminated (sb : Superblock) : Prop :=
  ∀ k, (sb.inodes k).type = .regular → Terminated (sb.inodes k)

namespace AllTerminated

theorem setInode (h : AllTerminated sb) {inode : Inode} (hi : Terminated inode) :
    AllTerminated (sb.setInode i inode) := by
  have hall : ∀ k, (sb.inodes k).type = .regular → Terminated (sb.inodes k) := h
  exact forall_setInode (P := fun inode => inode.type = .regular → Terminated inode) hall
    fun _ => hi

theorem removal (h : AllTerminated sb) (hr : Removal sb path sb') : AllTerminated sb' := by
  cases hr with
  | same => exact h
  | remove i found leaf => exact h.setInode Terminated.zeroInode

theorem creation (h : AllTerminated sb) (hc : Creation sb path sb') : AllTerminated sb' := by
  cases hc with
  | same => exact h
  | new i type parent named next fits => exact h.setInode Terminated.new

/-- One callback keeps every file terminated and stays inside `content`. -/
theorem reply (h : AllTerminated sb) (hs : ∀ k, Stored (sb.inodes k)) {op : Op}
    (hop : LeavesZero sb op) {r : Reply} (hr : op.reply sb = some r) :
    AllTerminated r.sb ∧ r.touched ≤ maxDataSize := by
  cases op with
  | create path =>
    have hnew : newInode sb path .regular = some r := hr
    obtain ⟨hcreate, htouched⟩ := newInode_creation hnew
    exact ⟨h.creation hcreate, by omega⟩
  | mkdir path =>
    have hnew : newInode sb path .directory = some r := hr
    obtain ⟨hcreate, htouched⟩ := newInode_creation hnew
    exact ⟨h.creation hcreate, by omega⟩
  | write path data offset =>
    rcases write_reply hr with ⟨hcreate, htouched⟩ | ⟨sb', i, htarget, htype, hfits, hwithin, rfl⟩
    · exact ⟨h.creation hcreate.creation, by omega⟩
    · have hcreate := (writeTarget_creation htarget).1
      have hsize := (stored_creation hs hcreate i).size_lt
      obtain ⟨hlen, hfile⟩ := Terminated.write (hop sb' i htarget htype hfits hwithin)
      rw [toSize_add (by omega) data.property] at hfits
      exact ⟨(h.creation hcreate).setInode hfile, Nat.max_le.mpr ⟨hfits, hlen⟩⟩
  | truncate path size =>
    rcases truncate_reply hr with ⟨hsb, htouched⟩ | ⟨i, hi, htype, ⟨-, rfl⟩ | ⟨hpos, hle, rfl⟩⟩
    · rw [hsb]
      exact ⟨h, by omega⟩
    · exact ⟨h.setInode Terminated.clear, Nat.le_refl _⟩
    · have hfile := h i htype
      have hlen := Terminated.strlen_lt hfile.zero
      have hsize : size.toNat ≤ maxDataSize := by omega
      exact ⟨h.setInode (hfile.truncate hsize), Nat.max_le.mpr ⟨hlen, hsize⟩⟩
  | unlink path =>
    obtain ⟨hremove, htouched⟩ := unlink_removal hr
    exact ⟨h.removal hremove, by omega⟩
  | rmdir path =>
    obtain ⟨hremove, htouched⟩ := rmdir_removal hr
    exact ⟨h.removal hremove, by omega⟩

end AllTerminated

/-- The content of the files, what callbacks do to it and what is read of it stay
inside the array. -/
structure Contained (sb : Superblock) : Prop where
  files : ∀ i, sb.Live i → (sb.inodes i).type = .regular →
    (sb.inodes i).size ≤ maxDataSize ∧ ∃ j, j < maxDataSize ∧ (sb.inodes i).content j = 0
  callbacks : ∀ op, LeavesZero sb op → ∀ r, op.reply sb = some r → r.touched ≤ maxDataSize
  replies : ∀ op, LeavesZero sb op → op.reply sb = none → newInode sb op.path .regular = none
  reads : ∀ path size offset, size < 2 ^ 63 → (fisopfsRead sb path size offset).2 ≤ maxDataSize

theorem throw_ne_none {e : Errno} : throw sb e ≠ none := Option.some_ne_none _

theorem writeTarget_none (h : writeTarget sb path = none) : newInode sb path .regular = none := by
  rw [writeTarget] at h
  split at h
  · cases h
  · cases hnew : fisopfsCreate sb path with
    | none => exact hnew
    | some r =>
      rw [hnew, Option.bind_eq_bind, Option.bind_some] at h
      split at h <;> cases h

theorem write_none {data : Buffer} {offset : Int} (h : fisopfsWrite sb path data offset = none) :
    newInode sb path .regular = none := by
  rw [fisopfsWrite] at h
  split at h
  · cases h
  · cases htarget : writeTarget sb path with
    | none => exact writeTarget_none htarget
    | some target =>
      obtain ⟨sb', target⟩ := target
      rw [htarget, Option.bind_eq_bind, Option.bind_some] at h
      cases target with
      | error e => cases h
      | ok i =>
        dsimp only at h
        split at h
        · cases h
        · split at h <;> cases h

/-- Only a negative size leaves `fisopfs_truncate` without a reply. -/
theorem truncate_none {size : Int} (h : fisopfsTruncate sb path size = none) :
    ∃ i, getInodeIndex sb path = some i ∧ (sb.inodes i).type = .regular ∧ size < 0 := by
  rw [fisopfsTruncate] at h
  split at h
  · cases h
  · split at h
    · cases h
    · rename_i i hi
      dsimp only at h
      split at h
      · cases h
      · rename_i htype
        split at h
        · cases h
        · split at h
          · rename_i hneg
            exact ⟨i, hi, not_not.mp htype, hneg⟩
          · cases h

theorem unlink_ne_none : fisopfsUnlink sb path ≠ none := by
  rw [fisopfsUnlink]
  split
  · exact throw_ne_none
  · split
    · exact throw_ne_none
    · exact Option.some_ne_none _

theorem rmdir_ne_none : fisopfsRmdir sb path ≠ none := by
  rw [fisopfsRmdir]
  split
  · exact throw_ne_none
  · split
    · exact throw_ne_none
    · split
      · exact throw_ne_none
      · exact Option.some_ne_none _

/-- A callback under the condition has a reply, unless the path of a new file
does not fit. -/
theorem newInode_of_reply_none {op : Op} (hop : LeavesZero sb op) (h : op.reply sb = none) :
    newInode sb op.path .regular = none := by
  cases op with
  | create path => exact h
  | mkdir path =>
    have hnone : newInode sb path .directory = none := h
    exact newInode_regular_none hnone
  | write path data offset => exact write_none h
  | truncate path size =>
    obtain ⟨i, hi, htype, hneg⟩ := truncate_none h
    have hpos : 0 ≤ size := hop i hi htype
    omega
  | unlink path =>
    have hnone : fisopfsUnlink sb path = none := h
    exact absurd hnone unlink_ne_none
  | rmdir path =>
    have hnone : fisopfsRmdir sb path = none := h
    exact absurd hnone rmdir_ne_none

/-- A read stays inside a terminated file. -/
theorem read_touched (h : AllTerminated sb) {size : Nat} {offset : Int} (hsize : size < 2 ^ 63) :
    (fisopfsRead sb path size offset).2 ≤ maxDataSize := by
  rw [fisopfsRead]
  split
  · exact Nat.zero_le _
  · split
    · exact Nat.zero_le _
    · rename_i i hi
      dsimp only
      split
      · exact Nat.zero_le _
      · rename_i htype
        split
        · exact Nat.zero_le _
        · rename_i hlt
          have hregular : (sb.inodes i).type = .regular := by
            cases ht : (sb.inodes i).type with
            | regular => rfl
            | directory => exact absurd ht htype
          have hle := (h i hregular).size_le
          have hend : maxDataSize ≤ contentEnd := by decide
          dsimp only
          split
          · omega
          · rename_i hfits
            rw [toSize_add (by omega) hsize] at hfits
            omega

theorem allTerminated_init (h : fisopfs.init sb) : AllTerminated sb := by
  have hsb : sb = buildSuperblock := h
  intro k hk
  by_cases h0 : k = 0
  · simp [hsb, buildSuperblock, rootDirectory, h0] at hk
  · simp only [hsb, buildSuperblock, h0, if_false]
    exact Terminated.zeroInode

theorem allTerminated_of_reach (h : Reach fisopfs LeavesZero sb) :
    AllTerminated sb ∧ ∀ k, Stored (sb.inodes k) := by
  refine h.invariant (P := fun sb => AllTerminated sb ∧ ∀ k, Stored (sb.inodes k))
    (fun _ hinit => ⟨allTerminated_init hinit, stored_init hinit⟩) ?_
  rintro sb op sb' ⟨hterm, hstored⟩ hop ⟨r, hr, rfl⟩
  exact ⟨(hterm.reply hstored hop hr).1, stored_change hstored (reply_change hr)⟩

/-- A write that fills the array and a truncation to a negative size are all that
can leave it. -/
theorem contained_of_reach (h : Reach fisopfs LeavesZero sb) : Contained sb := by
  obtain ⟨hterm, hstored⟩ := allTerminated_of_reach h
  exact {
    files := fun i _ htype => ⟨(hterm i htype).size_le, (hterm i htype).zero⟩
    callbacks := fun op hop r hr => (hterm.reply hstored hop hr).2
    replies := fun op hop hr => newInode_of_reply_none hop hr
    reads := fun path size offset hsize => read_touched hterm hsize }

/-! ## A file -/

/-- The path `/f`. -/
def slashF : List Byte := [slash, 102#8]

/-- The file system with the empty file `/f`. -/
def oneFile : Superblock :=
  (buildSuperblock.setInode 1 (Inode.new .regular [102#8] rootPath)).setState 1 .occupied

theorem getInodeIndex_oneFile : getInodeIndex oneFile slashF = some 1 := by decide +kernel

theorem create_oneFile : fisopfsCreate buildSuperblock slashF = some ⟨oneFile, .ok 0, 0⟩ := by
  have hlen : ¬ (slashF = [] ∨ slashF.length - 1 > maxDataSize) := by decide
  have hname : getFilenameFromPath slashF = some [102#8] := by decide
  have hnext : nextFreeInodeIndex buildSuperblock [102#8] = .ok 1 := by decide +kernel
  have hparent : parentPath slashF .regular = some rootPath := by decide
  simp only [fisopfsCreate, newInode, if_neg hlen, hname, hnext, hparent]
  rfl

theorem reach_oneFile {guard : Superblock → Op → Prop}
    (h : guard buildSuperblock (.create slashF)) : Reach fisopfs guard oneFile := by
  have hempty : Reach fisopfs guard buildSuperblock := .init rfl
  exact .step hempty h ⟨_, create_oneFile, rfl⟩

/-- A write to a file that fits edits the file. -/
theorem fisopfsWrite_found (hi : getInodeIndex sb path = some i)
    (htype : (sb.inodes i).type = .regular) {data : Buffer} {o : Nat}
    (ho : o ≤ (sb.inodes i).size) (hfits : o + data.val.length ≤ maxDataSize) :
    fisopfsWrite sb path data o = some ⟨sb.setInode i ((sb.inodes i).write data.val o),
      .ok data.val.length, max (o + data.val.length)
        (((sb.inodes i).write data.val o).size + 1)⟩ := by
  have hmax : maxDataSize < 2 ^ 63 := by decide
  have hoff : toSize (o : Int) = o := toSize_natCast (by omega)
  have hend : toSize ((o : Int) + (data.val.length : Int)) = o + data.val.length := by
    have hcast := toSize_natCast (n := o + data.val.length) (by omega)
    rwa [Int.natCast_add] at hcast
  have htarget : writeTarget sb path = some (sb, .ok i) := by
    rw [writeTarget, hi]
  rw [fisopfsWrite, hend, hoff, if_neg (by omega), htarget, Option.bind_eq_bind, Option.bind_some]
  dsimp only
  rw [if_neg (by omega), if_neg (by rw [htype]; decide)]

/-- Five bytes, none of them zero. -/
def hello : Buffer := ⟨[104#8, 101#8, 108#8, 108#8, 111#8], by decide⟩

/-- A file of five bytes. -/
theorem contained_hello : ∃ sb, Reach fisopfs LeavesZero sb ∧ (sb.inodes 1).size = 5 ∧
    Contained sb := by
  have hone : Reach fisopfs LeavesZero oneFile := reach_oneFile trivial
  have hwrite := @fisopfsWrite_found oneFile slashF 1 getInodeIndex_oneFile rfl hello 0
    (by decide) (by decide)
  have hguard : LeavesZero oneFile (.write slashF hello 0) := by
    intro sb i htarget htype hfits hwithin
    rw [writeTarget, getInodeIndex_oneFile] at htarget
    cases htarget
    exact ⟨5, by decide, by decide⟩
  have hreach := hone.step hguard ⟨_, hwrite, rfl⟩
  exact ⟨_, hreach, by decide +kernel, contained_of_reach hreach⟩

/-- As many bytes as `content` has, none of them zero. -/
def full : Buffer := ⟨List.replicate maxDataSize 1#8, by
  rw [List.length_replicate]
  decide⟩

theorem length_full : full.val.length = maxDataSize := List.length_replicate

theorem full_ne_zero {j : Nat} (hj : j < maxDataSize) :
    memcpy (oneFile.inodes 1).content 0 full.val j ≠ 0 := by
  have hlen := length_full
  intro hz
  have hmem : memcpy (oneFile.inodes 1).content 0 full.val j ∈ full.val :=
    memcpy_mem (Nat.zero_le j) (by omega)
  rw [hz] at hmem
  exact absurd (List.eq_of_mem_replicate hmem) (by decide)

/-- The size of a file that fills `content` is found in `directory_path`. -/
theorem size_write_full : ((oneFile.inodes 1).write full.val 0).size = 1025 := by
  have hlen := length_full
  have habove : ∀ j, maxDataSize ≤ j →
      memcpy (oneFile.inodes 1).content 0 full.val j = (oneFile.inodes 1).content j :=
    fun j hj => memcpy_above (by omega)
  have hend : 1025 < contentEnd := by decide
  have hsize : ((oneFile.inodes 1).write full.val 0).size =
      strlen (memcpy (oneFile.inodes 1).content 0 full.val) 0 contentEnd := rfl
  rw [hsize]
  refine (strlen_eq_iff hend).mpr ⟨?_, fun j hj => ?_⟩
  · rw [habove _ (by decide)]
    decide
  · rw [Nat.zero_add]
    rcases Nat.lt_or_ge j maxDataSize with hlt | hge
    · exact full_ne_zero hlt
    · have hj' : j = maxDataSize := by
        unfold maxDataSize at *
        omega
      rw [hj', habove _ (Nat.le_refl _)]
      decide

theorem write_full : fisopfsWrite oneFile slashF full (0 : Nat) =
    some ⟨oneFile.setInode 1 ((oneFile.inodes 1).write full.val 0), .ok full.val.length,
      max (0 + full.val.length) (((oneFile.inodes 1).write full.val 0).size + 1)⟩ := by
  have hlen := length_full
  exact fisopfsWrite_found getInodeIndex_oneFile rfl (by decide) (by omega)

/-- The cells in front of the new end are those of the copy. -/
theorem write_content {inode : Inode} {d : List Byte} {o k : Nat}
    (hk : k < (inode.write d o).size) :
    (inode.write d o).content k = memcpy inode.content o d k :=
  memset0_outside (.inl hk)

/-- A file that fills `content` has no terminator, and its size is found in
`directory_path`. -/
theorem write_fills_content : ∃ sb, Reach fisopfs anyEvent sb ∧ sb.Live 1 ∧
    (sb.inodes 1).type = .regular ∧ (sb.inodes 1).size = 1025 ∧
    ∀ j, j < maxDataSize → (sb.inodes 1).content j ≠ 0 := by
  have hone : Reach fisopfs anyEvent oneFile := reach_oneFile trivial
  have hstep : fisopfs.step oneFile (.write slashF full (0 : Nat))
      (oneFile.setInode 1 ((oneFile.inodes 1).write full.val 0)) := ⟨_, write_full, rfl⟩
  refine ⟨_, hone.step trivial hstep, ⟨by decide, rfl⟩, ?_⟩
  rw [Superblock.setInode_self]
  refine ⟨rfl, size_write_full, fun j hj => ?_⟩
  have hbelow : j < 1025 := Nat.lt_trans hj (by decide)
  rw [write_content (by rwa [size_write_full])]
  exact full_ne_zero hj

/-! ## Reading back what was written -/

/-- A write returns the number of bytes, they are read back, the file grows to
hold them, and its other bytes are read as before. -/
def WritesThrough (sb : Superblock) (path : List Byte) (i : Nat) (data : Buffer) (o : Nat) : Prop :=
  ∃ r, fisopfsWrite sb path data o = some r ∧ r.ret = .ok data.val.length ∧
    (fisopfsRead r.sb path data.val.length o).1 = .ok data.val ∧
    (r.sb.inodes i).size = max (sb.inodes i).size (o + data.val.length) ∧
    ∀ k, k < (sb.inodes i).size → (k < o ∨ o + data.val.length ≤ k) →
      (fisopfsRead r.sb path 1 k).1 = (fisopfsRead sb path 1 k).1

/-- No byte of the file is zero once `d` is written at `o`, and the byte behind it
is. -/
structure KeepsBytes (inode : Inode) (d : List Byte) (o : Nat) : Prop where
  data : 0 ∉ d
  file : ∀ k, k < inode.size → (k < o ∨ o + d.length ≤ k) → inode.content k ≠ 0
  behind : inode.content (max inode.size (o + d.length)) = 0

theorem getInodeIndex_setInode {inode : Inode} (h : inode.path = (sb.inodes i).path) :
    getInodeIndex (sb.setInode i inode) path = getInodeIndex sb path := by
  have hpath : ∀ k, ((sb.setInode i inode).inodes k).path = (sb.inodes k).path := by
    intro k
    by_cases hk : k = i
    · rw [hk, Superblock.setInode_self, h]
    · rw [Superblock.setInode_of_ne hk]
  simp only [getInodeIndex, hpath, Superblock.setInode_inodesStates]

theorem fisopfsRead_found (hi : getInodeIndex sb path = some i)
    (htype : (sb.inodes i).type = .regular) {n k : Nat} (hk : k + n < 2 ^ 63) :
    (fisopfsRead sb path n k).1 = .ok (if (sb.inodes i).size ≤ k then []
      else memread (sb.inodes i).content k
        (if (sb.inodes i).size < k + n then (sb.inodes i).size - k else n)) := by
  have hoff : toSize (k : Int) = k := toSize_natCast (by omega)
  have hend : toSize ((k : Int) + (n : Int)) = k + n := by
    have hcast := toSize_natCast (n := k + n) (by omega)
    rwa [Int.natCast_add] at hcast
  have hdir : ¬ (sb.inodes i).type = .directory := by
    rw [htype]
    decide
  rw [fisopfsRead, if_neg (by omega), hi]
  dsimp only
  rw [if_neg hdir, hoff, hend]
  split <;> rfl

/-- The size a write leaves is the right one exactly when every byte is kept. -/
theorem size_write_iff {inode : Inode} {d : List Byte} {o : Nat} (h : Stored inode)
    (ho : o ≤ inode.size) (hfits : o + d.length ≤ maxDataSize) :
    (inode.write d o).size = max inode.size (o + d.length) ↔ KeepsBytes inode d o := by
  have hmax : max inode.size (o + d.length) < contentEnd := by
    have hlt := h.size_lt
    have hend : maxDataSize < contentEnd := by decide
    omega
  have hbehind : memcpy inode.content o d (max inode.size (o + d.length)) =
      inode.content (max inode.size (o + d.length)) := memcpy_above (Nat.le_max_right _ _)
  have hsize : (inode.write d o).size = strlen (memcpy inode.content o d) 0 contentEnd := rfl
  rw [hsize, strlen_eq_iff hmax, Nat.zero_add, hbehind]
  simp only [Nat.zero_add]
  constructor
  · rintro ⟨hzero, hne⟩
    refine ⟨fun hmem => ?_, fun k hk hout => ?_, hzero⟩
    · obtain ⟨k, hk, hd⟩ := List.getElem_of_mem hmem
      refine hne (o + k) (by omega) ?_
      rw [memcpy_inside hk, hd]
    · have hkne := hne k (by omega)
      rwa [memcpy_outside hout] at hkne
  · intro hkeeps
    refine ⟨hkeeps.behind, fun k hk hz => ?_⟩
    by_cases hin : o ≤ k ∧ k < o + d.length
    · have hmem := memcpy_mem (m := inode.content) hin.1 hin.2
      rw [hz] at hmem
      exact hkeeps.data hmem
    · rw [memcpy_outside (by omega)] at hz
      exact hkeeps.file k (by omega) (by omega) hz

theorem writesThrough_iff (h : Reach fisopfs anyEvent sb) (hi : getInodeIndex sb path = some i)
    (htype : (sb.inodes i).type = .regular) {data : Buffer} {o : Nat}
    (ho : o ≤ (sb.inodes i).size) (hfits : o + data.val.length ≤ maxDataSize) :
    WritesThrough sb path i data o ↔ KeepsBytes (sb.inodes i) data.val o := by
  have hstored := stored_of_reach h i
  have hwrite := fisopfsWrite_found hi htype ho hfits
  have hiff := size_write_iff hstored ho hfits
  constructor
  · rintro ⟨r, hr, -, -, hsize, -⟩
    rw [hwrite] at hr
    cases hr
    rw [Superblock.setInode_self] at hsize
    exact hiff.mp hsize
  · intro hkeeps
    have hsize := hiff.mpr hkeeps
    have hfound : getInodeIndex (sb.setInode i ((sb.inodes i).write data.val o)) path = some i :=
      (getInodeIndex_setInode Inode.write_path).trans hi
    have hregular :
        ((sb.setInode i ((sb.inodes i).write data.val o)).inodes i).type = .regular := by
      rw [Superblock.setInode_self, Inode.write_type, htype]
    have hlt := hstored.size_lt
    have hend : contentEnd < 2 ^ 62 := by decide
    have hmax : maxDataSize < 2 ^ 62 := by decide
    refine ⟨_, hwrite, rfl, ?_, ?_, fun k hk hout => ?_⟩
    · rw [fisopfsRead_found hfound hregular (by omega), Superblock.setInode_self]
      congr 1
      split
      · have hnil : data.val = [] := List.eq_nil_of_length_eq_zero (by omega)
        exact hnil.symm
      · rw [if_neg (by omega)]
        have hcopy : memread ((sb.inodes i).write data.val o).content o data.val.length =
            memread (memcpy (sb.inodes i).content o data.val) o data.val.length :=
          memread_congr fun k hk => write_content (by omega)
        rw [hcopy, memread_memcpy]
    · rw [Superblock.setInode_self]
      exact hsize
    · rw [fisopfsRead_found hfound hregular (by omega), fisopfsRead_found hi htype (by omega),
        Superblock.setInode_self]
      rw [if_neg (by omega), if_neg (by omega), if_neg (by omega), if_neg (by omega)]
      refine congrArg Except.ok (memread_congr fun j hj => ?_)
      rw [write_content (by omega), memcpy_outside (by omega)]

/-- Five bytes appended to an empty file, none of them zero. -/
theorem writesThrough_hello : WritesThrough oneFile slashF 1 hello 0 ↔
    KeepsBytes (oneFile.inodes 1) hello.val 0 :=
  writesThrough_iff (reach_oneFile trivial) getInodeIndex_oneFile rfl (by decide) (by decide)

/-- A zero byte written to an empty file is lost. -/
theorem zero_not_written : ∃ sb, Reach fisopfs anyEvent sb ∧
    getInodeIndex sb slashF = some 1 ∧ (sb.inodes 1).type = .regular ∧ (sb.inodes 1).size = 0 ∧
    ¬ WritesThrough sb slashF 1 ⟨[0#8], by decide⟩ 0 := by
  refine ⟨oneFile, reach_oneFile trivial, getInodeIndex_oneFile, rfl, rfl, ?_⟩
  rintro ⟨r, hr, -, -, hsize, -⟩
  rw [fisopfsWrite_found getInodeIndex_oneFile rfl (by decide) (by decide)] at hr
  cases hr
  rw [Superblock.setInode_self] at hsize
  exact absurd hsize (by decide +kernel)

end Fisopfs
end Sisop

import Sisop.Fisopfs.Content
import Sisop.Fisopfs.Volume

/-!
# Truncation

`fisopfs_truncate` cuts and extends by the length of the string in `content`, not
by the size of the file.  No string is longer than its file, and what a file has
beyond its string is zeros, so the bytes come out right either way.  But a cut
zeroes everything up to the terminator, and when `content` has none that is the
first byte of `directory_path` too.
-/

namespace Sisop
namespace Fisopfs

open TransitionSystem CString

variable {sb sb' : Superblock} {v v' : Volume} {path : List Byte} {inode : Inode} {i n k : Nat}

/-! ## What a truncation leaves in the memory -/

/-- The bytes a cut zeroes, and those an extension does. -/
theorem truncate_content : (inode.truncate n).content k =
    if n ≤ k ∧ k ≤ inode.contentLen ∨ inode.contentLen < k ∧ k < n then 0
    else inode.content k := by
  unfold Inode.truncate memset0
  dsimp only
  by_cases hcut : n < inode.contentLen + 1
  · rw [if_pos hcut, Nat.min_eq_left (by omega)]
    split_ifs <;> first | rfl | omega
  · rw [if_neg hcut, Nat.min_eq_right (by omega)]
    split_ifs <;> first | rfl | omega

theorem truncate_zero (h : n ≤ k ∧ k ≤ inode.contentLen ∨ inode.contentLen < k ∧ k < n) :
    (inode.truncate n).content k = 0 := by
  rw [truncate_content, if_pos h]

theorem truncate_same (h : ¬ (n ≤ k ∧ k ≤ inode.contentLen ∨ inode.contentLen < k ∧ k < n)) :
    (inode.truncate n).content k = inode.content k := by
  rw [truncate_content, if_neg h]

/-- The string of the file ends at the end of the file or where it ended. -/
theorem truncate_contentLen (hn : n ≤ maxDataSize) :
    (inode.truncate n).contentLen = min n inode.contentLen := by
  have hend : maxDataSize < contentEnd := by decide
  refine (strlen_eq_iff (by omega)).mpr ⟨?_, fun j hj => ?_⟩
  · rw [Nat.zero_add]
    by_cases hcut : n ≤ inode.contentLen
    · rw [Nat.min_eq_left hcut]
      exact truncate_zero (by omega)
    · have hlen : inode.contentLen < contentEnd := by omega
      have hz : inode.content (0 + inode.contentLen) = 0 := zero_at_strlen hlen
      rw [Nat.zero_add] at hz
      rw [Nat.min_eq_right (by omega), truncate_same (by omega)]
      exact hz
  · have hlt : j < inode.contentLen := by omega
    have hne : inode.content (0 + j) ≠ 0 := ne_zero_of_lt_strlen hlt
    rwa [Nat.zero_add, truncate_same (by omega), ← Nat.zero_add j]

/-! ## The string and the size of a file -/

/-- A write sets the size to the length of the string. -/
theorem write_contentLen {d : List Byte} {o : Nat} (h : (inode.write d o).size < contentEnd) :
    (inode.write d o).contentLen = (inode.write d o).size := by
  refine (strlen_eq_iff h).mpr ⟨?_, fun j hj => ?_⟩
  · rw [Nat.zero_add]
    exact if_pos ⟨Nat.le_refl _, Nat.lt_succ_self _⟩
  · rw [Nat.zero_add, write_content hj, ← Nat.zero_add j]
    exact ne_zero_of_lt_strlen hj

/-- A file is as long as its string, or longer by zeros. -/
structure Padded (inode : Inode) : Prop where
  len_le : inode.contentLen ≤ inode.size
  zeros : ∀ k, inode.contentLen ≤ k → k < inode.size → inode.content k = 0

namespace Padded

theorem of_zeros (h : ∀ k, k < maxDataSize → inode.content k = 0)
    (hsize : inode.size ≤ maxDataSize) : Padded inode := by
  have hlen : inode.contentLen ≤ 0 := strlen_le_of_zero (h 0 (by decide))
  exact ⟨by omega, fun k _ hk => h k (by omega)⟩

theorem new {type : InodeType} {name parent : List Byte} : Padded (Inode.new type name parent) := by
  refine of_zeros (fun k hk => ?_) (Nat.zero_le _)
  rw [Inode.new_content, memcpy_below hk]

theorem clear : Padded inode.clear := by
  refine of_zeros (fun k hk => ?_) (Nat.zero_le _)
  rw [Inode.clear_content, memset0, if_pos ⟨Nat.zero_le k, hk⟩]

theorem write {d : List Byte} {o : Nat} (h : (inode.write d o).size < contentEnd) :
    Padded (inode.write d o) := by
  have hlen := write_contentLen h
  exact ⟨Nat.le_of_eq hlen, fun k hk hlt => by omega⟩

theorem truncate (hn : n ≤ maxDataSize) : Padded (inode.truncate n) := by
  have hlen : (inode.truncate n).contentLen = min n inode.contentLen := truncate_contentLen hn
  have hsize : (inode.truncate n).size = n := rfl
  refine ⟨by omega, fun k hk hlt => ?_⟩
  rw [hsize] at hlt
  by_cases hend : k = inode.contentLen
  · have hsmall : inode.contentLen < contentEnd := by
      have hmax : maxDataSize < contentEnd := by decide
      omega
    have hz : inode.content (0 + inode.contentLen) = 0 := zero_at_strlen hsmall
    rw [truncate_same (by omega), hend, ← hz, Nat.zero_add]
  · exact truncate_zero (by omega)

theorem change (h : ∀ k, Padded (sb.inodes k)) (hs : ∀ k, Stored (sb.inodes k))
    (hc : Change sb path sb') : ∀ k, Padded (sb'.inodes k) := by
  cases hc with
  | remove remove =>
    cases remove with
    | same => exact h
    | remove i found leaf =>
      exact forall_setInode h (of_zeros (fun _ _ => rfl) (Nat.zero_le _))
  | @edit mid _ create edit =>
    have hmid : ∀ k, Padded (mid.inodes k) := by
      cases create with
      | same => exact h
      | new i type parent named next fits => exact forall_setInode h new
    have hstored := stored_creation hs create
    have hafter := stored_edit hstored edit
    cases edit with
    | same => exact hmid
    | write i data offset found regular fits within =>
      have hi := hafter i
      rw [Superblock.setInode_self] at hi
      exact forall_setInode hmid (write hi.size_lt)
    | clear i found regular => exact forall_setInode hmid clear
    | truncate i size found regular pos fits =>
      exact forall_setInode hmid (truncate fits)

end Padded

theorem padded_buildSuperblock : ∀ k, Padded (buildSuperblock.inodes k) := by
  intro k
  by_cases hk : k = 0
  · simp only [buildSuperblock, hk, if_true]
    exact Padded.of_zeros (fun _ _ => rfl) (Nat.le_refl _)
  · simp only [buildSuperblock, hk, if_false]
    exact Padded.of_zeros (fun _ _ => rfl) (Nat.zero_le _)

/-- The inodes of a volume end in a zero and are padded by zeros. -/
theorem padded_of_reach {guard : Volume → Call → Prop} (h : Reach volume guard v) :
    (∀ k, Stored (v.sb.inodes k)) ∧ ∀ k, Padded (v.sb.inodes k) := by
  refine h.invariant
    (P := fun v => (∀ k, Stored (v.sb.inodes k)) ∧ ∀ k, Padded (v.sb.inodes k)) ?_ ?_
  · rintro v ⟨stamp, rfl⟩
    exact ⟨stored_init rfl, padded_buildSuperblock⟩
  · intro v call v' hv _ hstep
    cases call with
    | op op stamp =>
      obtain ⟨r, hr, rfl⟩ := hstep
      have hchange := reply_change hr
      exact ⟨stored_change hv.1 hchange, Padded.change hv.2 hv.1 hchange⟩
    | utimens path access modification =>
      have hv' : v' = (fisopfsUtimens v path access modification).1 := hstep
      rw [hv', utimens_sb]
      exact hv

/-! ## A file that is truncated -/

/-- What `fisopfs_truncate` leaves of the inode of a file. -/
def Inode.cut (inode : Inode) (n : Nat) : Inode :=
  if n = 0 then inode.clear else inode.truncate n

@[simp] theorem cut_size : (inode.cut n).size = n := by
  unfold Inode.cut
  split
  · rename_i hn
    exact hn.symm
  · rfl

@[simp] theorem cut_path : (inode.cut n).path = inode.path := by
  unfold Inode.cut
  split <;> rfl

@[simp] theorem cut_type : (inode.cut n).type = inode.type := by
  unfold Inode.cut
  split <;> rfl

theorem fisopfsTruncate_found (hi : getInodeIndex sb path = some i)
    (htype : (sb.inodes i).type = .regular) (hn : n ≤ maxDataSize) : ∃ touched,
    fisopfsTruncate sb path n = some ⟨sb.setInode i ((sb.inodes i).cut n), .ok 0, touched⟩ := by
  unfold Inode.cut
  rw [fisopfsTruncate, if_neg (by omega), hi]
  dsimp only
  rw [if_neg (by rw [htype]; decide)]
  by_cases h0 : n = 0
  · rw [if_pos (by omega), if_pos h0]
    exact ⟨_, rfl⟩
  · rw [if_neg (by omega), if_neg (by omega), if_neg h0]
    exact ⟨_, rfl⟩

/-- The bytes that stay in the file. -/
theorem cut_kept (h : Padded inode) (hsize : k < inode.size) (hk : k < n) :
    (inode.cut n).content k = inode.content k := by
  unfold Inode.cut
  rw [if_neg (by omega)]
  by_cases hlen : inode.contentLen < k
  · rw [truncate_zero (.inr ⟨hlen, hk⟩), h.zeros k (Nat.le_of_lt hlen) hsize]
  · exact truncate_same (by omega)

/-- The bytes the file grows by. -/
theorem cut_zeros (h : Padded inode) (hsize : inode.size ≤ k) (hk : k < n)
    (hn : n ≤ maxDataSize) : (inode.cut n).content k = 0 := by
  have hlen := h.len_le
  unfold Inode.cut
  rw [if_neg (by omega)]
  by_cases hend : k = inode.contentLen
  · have hz : inode.content (0 + inode.contentLen) = 0 := by
      refine zero_at_strlen (n := contentEnd) ?_
      have hmax : maxDataSize < contentEnd := by decide
      have hlt : inode.contentLen < contentEnd := by omega
      exact hlt
    rw [truncate_same (by omega), hend, ← hz, Nat.zero_add]
  · exact truncate_zero (.inr ⟨by omega, hk⟩)

/-- A zero in `content`, or `directory_path` empty: the string does not reach into
`directory_path`. -/
def StaysInside (inode : Inode) : Prop :=
  ∃ j, j ≤ maxDataSize ∧ inode.content j = 0

theorem contentLen_le_iff : inode.contentLen ≤ maxDataSize ↔ StaysInside inode := by
  have hend : maxDataSize < contentEnd := by decide
  constructor
  · intro hlen
    have hlt : inode.contentLen < contentEnd := by omega
    have hz : inode.content (0 + inode.contentLen) = 0 := zero_at_strlen hlt
    rw [Nat.zero_add] at hz
    exact ⟨_, hlen, hz⟩
  · rintro ⟨j, hj, hz⟩
    have hz' : inode.content (0 + j) = 0 := by rwa [Nat.zero_add]
    exact Nat.le_trans (strlen_le_of_zero hz') hj

/-- A truncation leaves `directory_path` alone unless the string reaches into it. -/
theorem cut_directory_iff (hn : n ≤ maxDataSize) :
    (∀ k, maxDataSize ≤ k → k < contentEnd → (inode.cut n).content k = inode.content k) ↔
      n = 0 ∨ StaysInside inode := by
  have hend : maxDataSize < contentEnd := by decide
  unfold Inode.cut
  by_cases h0 : n = 0
  · rw [if_pos h0]
    refine iff_of_true (fun k hk _ => ?_) (.inl h0)
    rw [Inode.clear_content, memset0_outside (.inr hk)]
  · rw [if_neg h0, ← contentLen_le_iff]
    constructor
    · intro hdir
      refine .inr (Nat.le_of_not_lt fun hlong => ?_)
      have hne : inode.content (0 + maxDataSize) ≠ 0 := ne_zero_of_lt_strlen hlong
      have hsame := hdir maxDataSize (Nat.le_refl _) hend
      rw [truncate_zero (.inl ⟨hn, Nat.le_of_lt hlong⟩)] at hsame
      rw [Nat.zero_add] at hne
      exact hne hsame.symm
    · rintro (hzero | hlen) k hk -
      · exact absurd hzero h0
      · by_cases hlast : k = inode.contentLen
        · have hlt : inode.contentLen < contentEnd := by omega
          have hz : inode.content (0 + inode.contentLen) = 0 := zero_at_strlen hlt
          rw [Nat.zero_add] at hz
          rw [truncate_zero (by omega), hlast, hz]
        · exact truncate_same (by omega)

/-! ## The contract -/

/-- The volume is the same but for the file in slot `i`, which is cut or extended
by zeros to `n` bytes, and the time of its last modification. -/
structure Truncated (v v' : Volume) (path : List Byte) (i n : Nat) : Prop where
  size : (v'.sb.inodes i).size = n
  kept : ∀ k, k < min (v.sb.inodes i).size n →
    (fisopfsRead v'.sb path 1 k).1 = (fisopfsRead v.sb path 1 k).1
  zeros : ∀ k, (v.sb.inodes i).size ≤ k → k < n → (fisopfsRead v'.sb path 1 k).1 = .ok [0]
  name : (v'.sb.inodes i).path = (v.sb.inodes i).path
  type : (v'.sb.inodes i).type = (v.sb.inodes i).type
  directory : ∀ k, maxDataSize ≤ k → k < contentEnd →
    (v'.sb.inodes i).content k = (v.sb.inodes i).content k
  stamp : v'.stamps i = { v.stamps i with lastModification := (v'.stamps i).lastModification }
  other : ∀ j, j ≠ i → v'.sb.inodes j = v.sb.inodes j ∧ v'.stamps j = v.stamps j
  states : v'.sb.inodesStates = v.sb.inodesStates

/-- `fisopfs_truncate` returns 0 and leaves the file truncated. -/
def TruncateContract (v : Volume) (path : List Byte) (i n : Nat) (stamp : Stamp) : Prop :=
  ∃ r, (Op.truncate path n).reply v.sb = some r ∧ r.ret = .ok 0 ∧
    Truncated v ⟨r.sb, (Op.truncate path n).stamped v.sb stamp v.stamps⟩ path i n

/-- The stamps a truncation that goes through leaves. -/
theorem stampTruncate_found (hi : getInodeIndex sb path = some i)
    (htype : (sb.inodes i).type = .regular) (hn : n ≤ maxDataSize) (stamp : Stamp)
    (stamps : Nat → Stamp) : stampTruncate sb path stamp stamps n =
      Function.update stamps i { stamps i with lastModification := stamp.lastModification } := by
  obtain ⟨touched, hr⟩ := fisopfsTruncate_found hi htype hn
  rw [stampTruncate, hr, hi]

/-- A byte of a file is read where it lies. -/
theorem fisopfsRead_one (hi : getInodeIndex sb path = some i)
    (htype : (sb.inodes i).type = .regular) (hk : k < maxDataSize)
    (hsize : k < (sb.inodes i).size) :
    (fisopfsRead sb path 1 k).1 = .ok [(sb.inodes i).content k] := by
  have hmax : maxDataSize < 2 ^ 62 := by decide
  rw [fisopfsRead_found hi htype (by omega), if_neg (by omega), if_neg (by omega)]
  rfl

/-- A truncation that keeps `directory_path` is one of a string that stays inside. -/
theorem TruncateContract.stays {stamp : Stamp} (hi : getInodeIndex v.sb path = some i)
    (htype : (v.sb.inodes i).type = .regular) (hn : n ≤ maxDataSize)
    (h : TruncateContract v path i n stamp) : n = 0 ∨ StaysInside (v.sb.inodes i) := by
  obtain ⟨r, hreply, -, htruncated⟩ := h
  obtain ⟨touched, hr⟩ := fisopfsTruncate_found hi htype hn
  have hsame : fisopfsTruncate v.sb path n = some r := hreply
  rw [hr] at hsame
  cases hsame
  have hdir := htruncated.directory
  simp only [Superblock.setInode_self] at hdir
  exact (cut_directory_iff hn).mp hdir

/-- Everything but `directory_path` comes out right in every state. -/
theorem truncateContract_iff (h : Reach volume anyEvent v) (hi : getInodeIndex v.sb path = some i)
    (htype : (v.sb.inodes i).type = .regular) (hn : n ≤ maxDataSize) (stamp : Stamp) :
    TruncateContract v path i n stamp ↔ n = 0 ∨ StaysInside (v.sb.inodes i) := by
  have hpadded := (padded_of_reach h).2 i
  obtain ⟨touched, hr⟩ := fisopfsTruncate_found hi htype hn
  constructor
  · exact fun hcontract => hcontract.stays hi htype hn
  · intro hcond
    refine ⟨_, hr, rfl, ?_⟩
    have hstamps : (Op.truncate path n).stamped v.sb stamp v.stamps = Function.update v.stamps i
        { v.stamps i with lastModification := stamp.lastModification } :=
      stampTruncate_found hi htype hn stamp v.stamps
    rw [hstamps]
    have hfound : getInodeIndex (v.sb.setInode i ((v.sb.inodes i).cut n)) path = some i :=
      (getInodeIndex_setInode cut_path).trans hi
    have hregular : ((v.sb.setInode i ((v.sb.inodes i).cut n)).inodes i).type = .regular := by
      rw [Superblock.setInode_self, cut_type, htype]
    have hread : ∀ k, k < n → (fisopfsRead (v.sb.setInode i ((v.sb.inodes i).cut n)) path 1 k).1 =
        .ok [((v.sb.inodes i).cut n).content k] := by
      intro k hk
      rw [fisopfsRead_one hfound hregular (by omega), Superblock.setInode_self]
      rw [Superblock.setInode_self, cut_size]
      exact hk
    exact {
      size := by rw [Superblock.setInode_self, cut_size]
      kept := fun k hk => by
        rw [hread k (by omega), fisopfsRead_one hi htype (by omega) (by omega),
          cut_kept hpadded (by omega) (by omega)]
      zeros := fun k hsize hk => by
        rw [hread k hk, cut_zeros hpadded hsize hk hn]
      name := by rw [Superblock.setInode_self, cut_path]
      type := by rw [Superblock.setInode_self, cut_type]
      directory := by
        rw [Superblock.setInode_self]
        exact (cut_directory_iff hn).mpr hcond
      stamp := by
        dsimp only
        rw [Function.update_self]
      other := fun j hj => ⟨Superblock.setInode_of_ne hj, Function.update_of_ne hj ..⟩
      states := rfl }

/-- The volume after `/f` is created and `data` is written to it. -/
theorem exists_written (data : Buffer) (hfits : 0 + data.val.length ≤ maxDataSize) :
    ∃ v, Reach volume anyEvent v ∧
      v.sb = oneFile.setInode 1 ((oneFile.inodes 1).write data.val 0) := by
  have hwrite := @fisopfsWrite_found oneFile slashF 1 getInodeIndex_oneFile rfl data 0
    (by decide) hfits
  have hempty : Reach volume anyEvent (buildVolume Stamp.zero) := .init ⟨Stamp.zero, rfl⟩
  let createF : Call := .op (.create slashF) Stamp.zero
  let writeF : Call := .op (.write slashF data (0 : Nat)) Stamp.zero
  obtain ⟨v, hcreated, hv⟩ : ∃ v, volume.step (buildVolume Stamp.zero) createF v ∧
      v.sb = oneFile := ⟨⟨oneFile, _⟩, ⟨_, create_oneFile, rfl⟩, rfl⟩
  rw [← hv] at hwrite
  have hone := hempty.step (e := createF) trivial hcreated
  obtain ⟨w, hwritten, hw⟩ : ∃ w, volume.step v writeF w ∧
      w.sb = v.sb.setInode 1 ((v.sb.inodes 1).write data.val 0) :=
    ⟨⟨_, _⟩, ⟨_, hwrite, rfl⟩, rfl⟩
  refine ⟨w, hone.step (e := writeF) trivial hwritten, ?_⟩
  rw [hw, hv]

theorem getInodeIndex_written {data : List Byte} :
    getInodeIndex (oneFile.setInode 1 ((oneFile.inodes 1).write data 0)) slashF = some 1 :=
  (getInodeIndex_setInode Inode.write_path).trans getInodeIndex_oneFile

/-- A file of five bytes is extended to eight. -/
theorem truncateContract_hello : ∃ v, Reach volume anyEvent v ∧
    TruncateContract v slashF 1 8 Stamp.zero := by
  obtain ⟨v, hreach, hsb⟩ := exists_written hello (by decide)
  have hi : getInodeIndex v.sb slashF = some 1 := by
    rw [hsb]
    exact getInodeIndex_written
  have htype : (v.sb.inodes 1).type = .regular := by
    rw [hsb, Superblock.setInode_self]
    rfl
  have hzero : StaysInside (v.sb.inodes 1) := by
    rw [hsb, Superblock.setInode_self]
    exact ⟨5, by decide, by decide +kernel⟩
  exact ⟨v, hreach, (truncateContract_iff hreach hi htype (by decide) Stamp.zero).mpr (.inr hzero)⟩

/-- A file that fills `content` loses its `directory_path` when it is cut. -/
theorem truncate_directory_path : ∃ v, Reach volume anyEvent v ∧
    getInodeIndex v.sb slashF = some 1 ∧ (v.sb.inodes 1).type = .regular ∧
    ¬ TruncateContract v slashF 1 1 Stamp.zero := by
  have hlen := length_full
  obtain ⟨v, hreach, hsb⟩ := exists_written full (by omega)
  have hi : getInodeIndex v.sb slashF = some 1 := by
    rw [hsb]
    exact getInodeIndex_written
  have htype : (v.sb.inodes 1).type = .regular := by
    rw [hsb, Superblock.setInode_self]
    rfl
  refine ⟨v, hreach, hi, htype, fun hcontract => ?_⟩
  rcases hcontract.stays hi htype (by decide) with h0 | hstays
  · exact absurd h0 (by decide)
  · rw [hsb, Superblock.setInode_self, ← contentLen_le_iff] at hstays
    rw [write_contentLen (by rw [size_write_full]; decide), size_write_full] at hstays
    exact absurd hstays (by decide)

end Fisopfs
end Sisop

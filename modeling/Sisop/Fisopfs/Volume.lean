import Sisop.Fisopfs.Lookup

/-!
# The whole inode

`Inode` leaves out the mode, the owner and the times, which decide nothing.  A
`Volume` adds them as one `Stamp` a slot, and each callback's part in them is a
definition of its own: which slot it stamps, and when.  What the process and the
clock give a callback is the stamp it is called with.

On a volume the root stays in its slot, no other inode takes its name, and a slot
that is not in use has only zero bytes.
-/

namespace Sisop
namespace Fisopfs

open TransitionSystem

/-- The fields of an inode that `Inode` leaves out. -/
structure Stamp where
  mode : BitVec 32
  uid : BitVec 32
  gid : BitVec 32
  lastAccess : BitVec 64
  lastModification : BitVec 64
  creationTime : BitVec 64
  deriving DecidableEq

/-- The stamp of an inode of zero bytes. -/
def Stamp.zero : Stamp := ⟨0, 0, 0, 0, 0, 0⟩

structure Volume where
  sb : Superblock
  stamps : Nat → Stamp

/-! ## The part of each callback -/

section Stamps

variable (sb : Superblock) (path : List Byte) (stamp : Stamp) (stamps : Nat → Stamp)

/-- `build_superblock`, where `__S_IFDIR | 0755` is the mode of the root. -/
def buildVolume (stamp : Stamp) : Volume :=
  { sb := buildSuperblock
    stamps := fun i =>
      if i = 0 then { stamp with mode := 0x41ed, uid := 1717 } else Stamp.zero }

/-- `new_inode` stamps the slot it fills. -/
def stampNew (type : InodeType) : Nat → Stamp :=
  match newInode sb path type, nextFreeInodeIndex sb (lastComponent path) with
  | some ⟨_, .ok _, _⟩, .ok i => Function.update stamps i stamp
  | _, _ => stamps

/-- `fisopfs_write` stamps the file it creates, and the file it writes to. -/
def stampWrite (data : Buffer) (offset : Int) : Nat → Stamp :=
  if toSize (offset + data.val.length) > maxDataSize then stamps
  else
    let stamps := match getInodeIndex sb path with
      | some _ => stamps
      | none => stampNew sb path { stamp with mode := 33204 } stamps .regular
    match writeTarget sb path, fisopfsWrite sb path data offset with
    | some (_, .ok i), some ⟨_, .ok _, _⟩ => Function.update stamps i
        { stamps i with
          lastAccess := stamp.lastAccess, lastModification := stamp.lastModification }
    | _, _ => stamps

/-- `fisopfs_truncate` stamps the file it cuts. -/
def stampTruncate (size : Int) : Nat → Stamp :=
  match fisopfsTruncate sb path size, getInodeIndex sb path with
  | some ⟨_, .ok _, _⟩, some i =>
      Function.update stamps i { stamps i with lastModification := stamp.lastModification }
  | _, _ => stamps

/-- `memset(inode, 0, sizeof(Inode))` of a removal that goes through. -/
def stampRemoval (r : Option Reply) : Nat → Stamp :=
  match r, getInodeIndex sb path with
  | some ⟨_, .ok _, _⟩, some i => Function.update stamps i Stamp.zero
  | _, _ => stamps

def Op.stamped : Op → Nat → Stamp
  | .create path => stampNew sb path stamp stamps .regular
  | .mkdir path => stampNew sb path stamp stamps .directory
  | .write path data offset => stampWrite sb path stamp stamps data offset
  | .truncate path size => stampTruncate sb path stamp stamps size
  | .unlink path => stampRemoval sb path stamps (fisopfsUnlink sb path)
  | .rmdir path => stampRemoval sb path stamps (fisopfsRmdir sb path)

end Stamps

def fisopfsUtimens (v : Volume) (path : List Byte) (access modification : BitVec 64) :
    Volume × Except Errno Nat :=
  match getInodeIndex v.sb path with
  | none => (v, .error .enoent)
  | some i =>
    let stamp := { v.stamps i with lastAccess := access, lastModification := modification }
    ({ v with stamps := Function.update v.stamps i stamp }, .ok 0)

inductive Call
  | op (op : Op) (stamp : Stamp)
  | utimens (path : List Byte) (access modification : BitVec 64)

/-- The volume from an empty one on. -/
def volume : TransitionSystem Volume Call where
  init v := ∃ stamp, v = buildVolume stamp
  step v call v' := match call with
    | .op op stamp => ∃ r, op.reply v.sb = some r ∧ v' = ⟨r.sb, op.stamped v.sb stamp v.stamps⟩
    | .utimens path access modification => v' = (fisopfsUtimens v path access modification).1

/-- What the kernel passes on: absolute paths that fit in an inode, and sizes and
offsets that are not negative. -/
def FromVfs (_ : Volume) : Call → Prop
  | .op op _ => AbsolutePath op.path ∧ op.path.length < maxPathLength ∧ match op with
    | .write _ _ offset => 0 ≤ offset
    | .truncate _ size => 0 ≤ size
    | _ => True
  | .utimens path _ _ => AbsolutePath path ∧ path.length < maxPathLength

/-- The root in its slot, no second root, and zeros in the slots that are free. -/
structure Rooted (v : Volume) : Prop where
  occupied : v.sb.inodesStates 0 = .occupied
  type : (v.sb.inodes 0).type = .directory
  path : (v.sb.inodes 0).path = rootPath
  parent : (v.sb.inodes 0).directoryPath = []
  other : ∀ i, i ≠ 0 → v.sb.inodesStates i = .occupied →
    (v.sb.inodes i).path ≠ rootPath ∧ (v.sb.inodes i).path ≠ []
  free : ∀ i, v.sb.inodesStates i = .free → v.sb.inodes i = Inode.zero ∧ v.stamps i = Stamp.zero

/-! ## Slots that are free -/

variable {sb sb' : Superblock} {g : Created} {path : List Byte} {stamp : Stamp}
  {stamps stamps' : Nat → Stamp} {i j : Nat}

/-- The slots of `sb` that are free have zero bytes. -/
def ZeroFree (sb : Superblock) : Prop :=
  ∀ i, sb.inodesStates i = .free → sb.inodes i = Inode.zero

/-- The stamps of the slots of `sb` that are free are zero. -/
def ZeroStamps (sb : Superblock) (stamps : Nat → Stamp) : Prop :=
  ∀ i, sb.inodesStates i = .free → stamps i = Stamp.zero

/-- A slot and its state are replaced together. -/
theorem ZeroFree.setSlot (h : ZeroFree sb) {inode : Inode} {st : InodeState}
    (hi : st = .free → inode = Inode.zero) : ZeroFree ((sb.setInode i inode).setState i st) := by
  intro k hk
  rw [Superblock.setState_inodes]
  by_cases hki : k = i
  · rw [hki, Superblock.setState_self] at hk
    rw [hki, Superblock.setInode_self]
    exact hi hk
  · rw [Superblock.setState_of_ne hki] at hk
    rw [Superblock.setInode_of_ne hki]
    exact h k hk

/-- The inode in a slot in use is no concern of the free ones. -/
theorem ZeroFree.setInode (h : ZeroFree sb) {inode : Inode} (hi : sb.inodesStates i = .occupied) :
    ZeroFree (sb.setInode i inode) := by
  intro k hk
  have hne : k ≠ i := by
    rintro rfl
    rw [Superblock.setInode_inodesStates, hi] at hk
    cases hk
  rw [Superblock.setInode_of_ne hne]
  exact h k hk

/-- A lookup finds a slot in use. -/
theorem Named.occupied_of_found (h : Named sb g) (hi : getInodeIndex sb path = some i) :
    sb.inodesStates i = .occupied := by
  by_cases hroot : path = rootPath
  · rw [hroot, getInodeIndex_rootPath] at hi
    cases hi
    exact h.occupied h.root
  · exact (getInodeIndex_bears hroot hi).2.1

theorem ZeroFree.change (h : ZeroFree sb) (hn : Named sb g) (hc : Change sb path sb') :
    ZeroFree sb' := by
  cases hc with
  | @edit sb₁ _ create edit =>
    have hn₁ := hn.creation create
    have h₁ : ZeroFree sb₁ := by
      cases create with
      | same => exact h
      | new i type parent named next fits => exact h.setSlot fun hst => by cases hst
    cases edit with
    | same => exact h₁
    | write i data offset found => exact h₁.setInode (hn₁.occupied_of_found found)
    | clear i found => exact h₁.setInode (hn₁.occupied_of_found found)
    | truncate i size found => exact h₁.setInode (hn₁.occupied_of_found found)
  | remove remove =>
    cases remove with
    | same => exact h
    | remove i found leaf => exact h.setSlot fun _ => rfl

namespace ZeroStamps

/-- A stamp goes to a slot in use. -/
theorem update (h : ZeroStamps sb stamps) (hi : sb.inodesStates i = .occupied) :
    ZeroStamps sb (Function.update stamps i stamp) := by
  intro k hk
  have hne : k ≠ i := by
    rintro rfl
    rw [hi] at hk
    cases hk
  rw [Function.update_of_ne hne]
  exact h k hk

/-- The stamp of a slot and its state are replaced together. -/
theorem setSlot (h : ZeroStamps sb stamps) {inode : Inode} {st : InodeState}
    (hi : st = .free → stamp = Stamp.zero) :
    ZeroStamps ((sb.setInode i inode).setState i st) (Function.update stamps i stamp) := by
  intro k hk
  by_cases hki : k = i
  · rw [hki, Superblock.setState_self] at hk
    rw [hki, Function.update_self]
    exact hi hk
  · rw [Superblock.setState_of_ne hki] at hk
    rw [Function.update_of_ne hki]
    exact h k hk

theorem new {type : InodeType} (h : ZeroStamps sb stamps) {r : Reply}
    (hr : newInode sb path type = some r) :
    ZeroStamps r.sb (stampNew sb path stamp stamps type) := by
  unfold stampNew
  rcases newInode_reply hr with ⟨e, rfl⟩ | ⟨i, parent, -, hnext, -, rfl⟩
  · rw [hr]
    exact h
  · rw [hr, hnext]
    exact h.setSlot fun hst => by cases hst

/-- A removal that fails stamps nothing, and one that goes through clears the stamp
of its slot. -/
theorem removal (h : ZeroStamps sb stamps) {r : Option Reply} {reply : Reply} (hr : r = some reply)
    (hcase : (∃ e, reply = ⟨sb, .error e, 0⟩) ∨ ∃ i, getInodeIndex sb path = some i ∧
      reply = ⟨(sb.setInode i Inode.zero).setState i .free, .ok 0, 0⟩) :
    ZeroStamps reply.sb (stampRemoval sb path stamps r) := by
  unfold stampRemoval
  rcases hcase with ⟨e, rfl⟩ | ⟨i, hi, rfl⟩
  · rw [hr]
    exact h
  · rw [hr, hi]
    exact h.setSlot fun _ => rfl

theorem truncate (h : ZeroStamps sb stamps) (hn : Named sb g) {size : Int} {r : Reply}
    (hr : fisopfsTruncate sb path size = some r) :
    ZeroStamps r.sb (stampTruncate sb path stamp stamps size) := by
  have hstates : r.sb.inodesStates = sb.inodesStates := by
    rcases truncate_reply hr with ⟨hsb, -⟩ | ⟨i, -, -, ⟨-, rfl⟩ | ⟨-, -, rfl⟩⟩
    · rw [hsb]
    · rfl
    · rfl
  have h' : ZeroStamps r.sb stamps := by
    intro k hk
    rw [hstates] at hk
    exact h k hk
  unfold stampTruncate
  split
  · rename_i hi
    refine h'.update ?_
    rw [hstates]
    exact hn.occupied_of_found hi
  · exact h'

/-- The slots a write looks for its file in, and their stamps. -/
theorem target (h : ZeroStamps sb stamps) {target : Except Errno Nat}
    (ht : writeTarget sb path = some (sb', target)) :
    ZeroStamps sb' (match getInodeIndex sb path with
      | some _ => stamps
      | none => stampNew sb path stamp stamps .regular) := by
  rw [writeTarget] at ht
  cases hi : getInodeIndex sb path with
  | some i =>
    rw [hi] at ht
    cases Option.some.inj ht
    exact h
  | none =>
    rw [hi] at ht
    obtain ⟨r, hr, ht⟩ := Option.bind_eq_some_iff.mp ht
    have hsb : sb' = r.sb := by
      split at ht
      all_goals
        cases Option.some.inj ht
        rfl
    rw [hsb]
    exact h.new hr

theorem write (h : ZeroStamps sb stamps) (hn : Named sb g) {data : Buffer} {offset : Int}
    {r : Reply} (hr : fisopfsWrite sb path data offset = some r) :
    ZeroStamps r.sb (stampWrite sb path stamp stamps data offset) := by
  have hwrite := hr
  rw [fisopfsWrite] at hr
  unfold stampWrite
  split at hr
  · rename_i hbig
    rw [if_pos hbig]
    cases throw_eq hr
    exact h
  · rename_i hfits
    obtain ⟨⟨sb', target⟩, htarget, -⟩ := Option.bind_eq_some_iff.mp hr
    have hstates := (write_frame hfits htarget hwrite).1
    obtain ⟨hcreate, hfound⟩ := writeTarget_creation htarget
    have hz : ZeroStamps sb' (match getInodeIndex sb path with
        | some _ => stamps
        | none => stampNew sb path { stamp with mode := 33204 } stamps .regular) :=
      h.target htarget
    have hz' : ZeroStamps r.sb _ := fun k hk => hz k (by rwa [← hstates])
    rw [if_neg hfits, htarget, hwrite]
    obtain ⟨sb₂, ret, touched⟩ := r
    cases target with
    | error e => exact hz'
    | ok i =>
      cases ret with
      | error e => exact hz'
      | ok n =>
        refine hz'.update ?_
        rw [hstates]
        exact (hn.creation hcreate).occupied_of_found (hfound i rfl)

theorem reply (h : ZeroStamps sb stamps) (hn : Named sb g) {op : Op} {r : Reply}
    (hr : op.reply sb = some r) : ZeroStamps r.sb (op.stamped sb stamp stamps) := by
  cases op with
  | create path => exact h.new hr
  | mkdir path => exact h.new hr
  | write path data offset => exact h.write hn hr
  | truncate path size => exact h.truncate hn hr
  | unlink path =>
    refine h.removal hr ((unlink_reply hr).imp_right ?_)
    rintro ⟨i, hi, -, hr⟩
    exact ⟨i, hi, hr⟩
  | rmdir path =>
    refine h.removal hr ((rmdir_reply hr).imp_right ?_)
    rintro ⟨i, hi, -, -, -, hr⟩
    exact ⟨i, hi, hr⟩

/-- `fisopfs_utimens` stamps the slot its path leads to. -/
theorem utimens {v : Volume} (h : ZeroStamps v.sb v.stamps) (hn : Named v.sb g)
    {access modification : BitVec 64} :
    ZeroStamps (fisopfsUtimens v path access modification).1.sb
      (fisopfsUtimens v path access modification).1.stamps := by
  unfold fisopfsUtimens
  split
  · exact h
  · rename_i i hi
    exact h.update (hn.occupied_of_found hi)

end ZeroStamps

/-! ## The root -/

theorem utimens_sb {v : Volume} {access modification : BitVec 64} :
    (fisopfsUtimens v path access modification).1.sb = v.sb := by
  unfold fisopfsUtimens
  split <;> rfl

theorem zeroFree_buildSuperblock : ZeroFree buildSuperblock := by
  intro i hi
  by_cases h0 : i = 0
  · simp [buildSuperblock, h0] at hi
  · simp [buildSuperblock, h0]

theorem zeroStamps_buildVolume : ZeroStamps (buildVolume stamp).sb (buildVolume stamp).stamps := by
  intro i hi
  by_cases h0 : i = 0
  · simp [buildVolume, buildSuperblock, h0] at hi
  · simp [buildVolume, h0]

/-- A volume whose names agree with some record, and whose free slots are zero. -/
structure Kept (v : Volume) : Prop where
  named : ∃ g, Named v.sb g
  zeroFree : ZeroFree v.sb
  zeroStamps : ZeroStamps v.sb v.stamps

theorem kept_of_reach {guard : Volume → Call → Prop} {v : Volume} (h : Reach volume guard v) :
    Kept v := by
  have hinit : ∀ v, volume.init v → Kept v := by
    rintro v ⟨stamp, rfl⟩
    exact ⟨⟨createdRoot, Named.init⟩, zeroFree_buildSuperblock, zeroStamps_buildVolume⟩
  have hstep : ∀ v call v', Kept v → guard v call → volume.step v call v' → Kept v' := by
    rintro v call v' ⟨⟨g, hn⟩, hfree, hstamps⟩ - hstep
    cases call with
    | op op stamp =>
      obtain ⟨r, hr, rfl⟩ := hstep
      have hchange := reply_change hr
      exact ⟨⟨_, hn.change hchange⟩, hfree.change hn hchange, hstamps.reply hn hr⟩
    | utimens path access modification =>
      have hv : v' = (fisopfsUtimens v path access modification).1 := hstep
      rw [hv]
      refine ⟨⟨g, ?_⟩, ?_, hstamps.utimens hn⟩
      · rw [utimens_sb]
        exact hn
      · rw [utimens_sb]
        exact hfree
  exact h.invariant hinit hstep

/-- The root stays, whatever the callbacks are. -/
theorem rooted_of_reach {v : Volume} (h : Reach volume FromVfs v) : Rooted v := by
  obtain ⟨⟨g, hn⟩, hfree, hstamps⟩ := kept_of_reach h
  exact {
    occupied := hn.occupied hn.root
    type := hn.rootType
    path := hn.rootName
    parent := hn.rootParent
    other := fun i hi hocc => by
      obtain ⟨q, hq⟩ := hn.created hocc
      obtain ⟨-, hname, hne⟩ := hn.name i q hi hq
      rw [hname]
      exact ⟨lastComponent_ne_rootPath q, hne⟩
    free := fun i hi => ⟨hfree i hi, hstamps i hi⟩ }

/-- The volume after `mkdir /a` and `utimens /a`. -/
theorem rooted_slashA : ∃ v, Reach volume FromVfs v ∧ Rooted v ∧ v.sb.Live 1 := by
  have hmkdir : (fisopfsMkdir buildSuperblock [slash, 97#8]).any (fun r => r.sb.Live 1) = true := by
    decide +kernel
  obtain ⟨r, hr, hlive⟩ := (Option.any_eq_true _ _).mp hmkdir
  have hpath : AbsolutePath [slash, 97#8] := ⟨rfl, by decide⟩
  have hshort : [slash, 97#8].length < maxPathLength := by decide
  have hempty : Reach volume FromVfs (buildVolume Stamp.zero) := .init ⟨Stamp.zero, rfl⟩
  let mkdirA : Call := .op (.mkdir [slash, 97#8]) Stamp.zero
  let utimensA : Call := .utimens [slash, 97#8] 5 7
  obtain ⟨v, hmade, hv⟩ : ∃ v, volume.step (buildVolume Stamp.zero) mkdirA v ∧ v.sb = r.sb :=
    ⟨⟨r.sb, _⟩, ⟨r, hr, rfl⟩, rfl⟩
  have hone := hempty.step (e := mkdirA) ⟨hpath, hshort, trivial⟩ hmade
  have htwo := hone.step (e := utimensA) ⟨hpath, hshort⟩ rfl
  refine ⟨_, htwo, rooted_of_reach htwo, ?_⟩
  rw [utimens_sb, hv]
  exact of_decide_eq_true hlive

end Fisopfs
end Sisop

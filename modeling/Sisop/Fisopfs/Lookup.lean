import Sisop.Lib.Monitor
import Sisop.Fisopfs.Steps

/-!
# Looking up a path

`getInodeIndex` compares the last component of a path with the names of the
inodes in use, and the directories in front of it take no part.  The record of a
run says at which path the object in each slot was created.  An object at
another path with the same last component shadows a path when it stands in front
of the path's own object, or when the path has none: then the lookup finds the
other object.  Nothing else goes wrong with it.
-/

namespace Sisop
namespace Fisopfs

open TransitionSystem

/-- At which path the object in each slot in use was created. -/
abbrev Created := Nat → Option (List Byte)

/-- The record of an empty superblock. -/
def createdRoot : Created := fun i => if i = 0 then some rootPath else none

/-- The record after a callback on `path`: what it freed is gone, and what it
took into use was created at `path`. -/
def recordSlots (sb : Superblock) (path : List Byte) (sb' : Superblock) (g : Created) : Created :=
  fun i =>
    if sb'.inodesStates i = .free then none
    else if sb.inodesStates i = .free then some path
    else g i

/-- The file system with the record of what was created where. -/
def recorded : TransitionSystem (Superblock × Created) Op :=
  fisopfs.monitored createdRoot fun sb op sb' => recordSlots sb op.path sb'

/-- What is done to `path` is done to the object created at `path`. -/
structure OwnObject (sb : Superblock) (g : Created) (path : List Byte) : Prop where
  found : ∀ i, getInodeIndex sb path = some i → g i = some path
  missing : getInodeIndex sb path = none → ∀ i, g i ≠ some path
  reads : ∀ size offset d, (fisopfsRead sb path size offset).1 = .ok d → d ≠ [] →
    ∃ i p n, g i = some path ∧ d = CString.memread (sb.inodes i).content p n
  leaves : ∀ (op : Op) r, op.path = path → op.reply sb = some r →
    ∀ i q, g i = some q → q ≠ path →
      r.sb.inodes i = sb.inodes i ∧ r.sb.inodesStates i = sb.inodesStates i

/-- An object at another path with the last component of `path` stands in front
of the object of `path`, if there is one. -/
def Shadowed (g : Created) (path : List Byte) : Prop :=
  ∃ j q, g j = some q ∧ q ≠ rootPath ∧ q ≠ path ∧ lastComponent q = lastComponent path ∧
    ∀ i, i < j → g i ≠ some path

/-- Every run has a record. -/
theorem exists_record {sb : Superblock} (h : Reach fisopfs anyEvent sb) :
    ∃ g, Reach recorded anyEvent (sb, g) := h.monitor

/-! ## The two searches -/

variable {sb sb' : Superblock} {g : Created} {path q : List Byte} {i j : Nat}

/-- Slot `i` is in use under the last component of `path`. -/
def Bears (sb : Superblock) (path : List Byte) (i : Nat) : Prop :=
  sb.inodesStates i = .occupied ∧ lastComponent path = (sb.inodes i).path

instance : Decidable (Bears sb path i) := inferInstanceAs (Decidable (_ ∧ _))

theorem getInodeIndex_rootPath : getInodeIndex sb rootPath = some 0 := by
  simp [getInodeIndex, rootPath]

theorem getInodeIndex_eq (hne : path ≠ []) (hroot : path ≠ rootPath) :
    getInodeIndex sb path = (List.range maxInodes).find? fun i => Bears sb path i := by
  simp only [getInodeIndex, getFilenameFromPath, if_neg hne, if_neg hroot]
  rfl

theorem ne_nil_of_getInodeIndex (h : getInodeIndex sb path = some i) : path ≠ [] := by
  rintro rfl
  simp [getInodeIndex] at h

/-- The slot found is in use and bears the name. -/
theorem getInodeIndex_bears (hroot : path ≠ rootPath) (h : getInodeIndex sb path = some i) :
    i < maxInodes ∧ Bears sb path i := by
  rw [getInodeIndex_eq (ne_nil_of_getInodeIndex h) hroot, List.find?_range_eq_some] at h
  obtain ⟨hi, hmem, -⟩ := h
  exact ⟨List.mem_range.mp hmem, of_decide_eq_true hi⟩

/-- No slot in front of the one found bears the name. -/
theorem getInodeIndex_first (hroot : path ≠ rootPath) (h : getInodeIndex sb path = some i)
    (hj : j < i) : ¬ Bears sb path j := by
  rw [getInodeIndex_eq (ne_nil_of_getInodeIndex h) hroot, List.find?_range_eq_some] at h
  intro hbears
  have hno := h.2.2 j hj
  rw [decide_eq_true hbears] at hno
  cases hno

/-- A slot in use that bears the name is found, or one in front of it. -/
theorem getInodeIndex_of_bears (hne : path ≠ []) (hroot : path ≠ rootPath) (hi : i < maxInodes)
    (h : Bears sb path i) : ∃ j, j ≤ i ∧ getInodeIndex sb path = some j := by
  cases hfind : getInodeIndex sb path with
  | none =>
    rw [getInodeIndex_eq hne hroot, List.find?_range_eq_none] at hfind
    have hno := hfind i hi
    rw [decide_eq_true h] at hno
    cases hno
  | some j =>
    refine ⟨j, Nat.le_of_not_lt fun hlt => ?_, rfl⟩
    exact getInodeIndex_first hroot hfind hlt h

theorem nextFreeInodeIndex_ok {name : List Byte} (h : nextFreeInodeIndex sb name = .ok i) :
    i < maxInodes ∧ sb.inodesStates i = .free ∧ (sb.inodes i).path ≠ name := by
  delta nextFreeInodeIndex at h
  generalize hfind : List.find? _ (List.range maxInodes) = next at h
  cases next with
  | none => cases h
  | some k =>
    dsimp only at h
    split at h
    · cases h
    · rename_i hname
      cases h
      obtain ⟨hor, hmem, -⟩ := List.find?_range_eq_some.mp hfind
      exact ⟨List.mem_range.mp hmem, (of_decide_eq_true hor).resolve_left hname, hname⟩

/-! ## Names and the record -/

/-- The names of the inodes agree with the record. -/
structure Named (sb : Superblock) (g : Created) : Prop where
  live : ∀ i, sb.inodesStates i = .free ↔ g i = none
  bound : ∀ i, sb.inodesStates i = .occupied → i < maxInodes
  root : g 0 = some rootPath
  rootType : (sb.inodes 0).type = .directory
  rootName : (sb.inodes 0).path = rootPath
  rootParent : (sb.inodes 0).directoryPath = []
  name : ∀ i q, i ≠ 0 → g i = some q →
    q ≠ rootPath ∧ (sb.inodes i).path = lastComponent q ∧ lastComponent q ≠ []
  blank : ∀ i, sb.inodesStates i = .free → (sb.inodes i).path = []

namespace Named

theorem occupied (h : Named sb g) (hi : g i = some q) : sb.inodesStates i = .occupied := by
  cases hstate : sb.inodesStates i with
  | free =>
    rw [(h.live i).mp hstate] at hi
    cases hi
  | occupied => rfl

theorem created (h : Named sb g) (hi : sb.inodesStates i = .occupied) : ∃ q, g i = some q := by
  cases hg : g i with
  | none =>
    rw [(h.live i).mpr hg] at hi
    cases hi
  | some q => exact ⟨q, rfl⟩

/-- No path but the root's leads to slot 0. -/
theorem not_bears_zero (h : Named sb g) : ¬ Bears sb path 0 := by
  rintro ⟨-, hname⟩
  rw [h.rootName] at hname
  exact lastComponent_ne_rootPath path hname

theorem bears_of_created (h : Named sb g) (hi : i ≠ 0) (hg : g i = some q)
    (hlast : lastComponent q = lastComponent path) : Bears sb path i := by
  refine ⟨h.occupied hg, ?_⟩
  rw [(h.name i q hi hg).2.1, hlast]

theorem ne_zero_of_created (h : Named sb g) (hg : g i = some q) (hq : q ≠ rootPath) : i ≠ 0 := by
  rintro rfl
  rw [h.root] at hg
  exact hq (Option.some.inj hg).symm

theorem init : Named buildSuperblock createdRoot := by
  constructor
  case live =>
    intro i
    by_cases hi : i = 0 <;> simp [buildSuperblock, createdRoot, hi]
  case bound =>
    intro i hi
    by_cases h0 : i = 0
    · rw [h0]; decide
    · simp [buildSuperblock, h0] at hi
  case root => rfl
  case rootType => rfl
  case rootName => rfl
  case rootParent => exact CString.strAt_eq_nil rfl
  case name =>
    intro i q hi hq
    simp [createdRoot, hi] at hq
  case blank =>
    intro i hi
    by_cases h0 : i = 0
    · simp [buildSuperblock, h0] at hi
    · simp [buildSuperblock, h0, Inode.zero]

/-- The content of a file takes no part in the names. -/
theorem setInode (h : Named sb g) {inode : Inode} (hregular : (sb.inodes i).type = .regular)
    (hpath : inode.path = (sb.inodes i).path) : Named (sb.setInode i inode) g := by
  have hi : i ≠ 0 := by
    rintro rfl
    rw [h.rootType] at hregular
    cases hregular
  have h0 : (sb.setInode i inode).inodes 0 = sb.inodes 0 := Superblock.setInode_of_ne hi.symm
  have hname : ∀ k, ((sb.setInode i inode).inodes k).path = (sb.inodes k).path := by
    intro k
    by_cases hk : k = i
    · rw [hk, Superblock.setInode_self, hpath]
    · rw [Superblock.setInode_of_ne hk]
  exact {
    live := h.live
    bound := h.bound
    root := h.root
    rootType := by rw [h0]; exact h.rootType
    rootName := by rw [h0]; exact h.rootName
    rootParent := by rw [h0]; exact h.rootParent
    name := fun k q hk hq => by rw [hname]; exact h.name k q hk hq
    blank := fun k hk => by rw [hname]; exact h.blank k hk }

theorem edit (h : Named sb g) (he : Edit sb path sb') :
    Named sb' g ∧ sb'.inodesStates = sb.inodesStates := by
  cases he with
  | same => exact ⟨h, rfl⟩
  | write i data offset found regular => exact ⟨h.setInode regular rfl, rfl⟩
  | clear i found regular => exact ⟨h.setInode regular rfl, rfl⟩
  | truncate i size found regular => exact ⟨h.setInode regular rfl, rfl⟩

theorem recordSlots_self (h : Named sb g) (path : List Byte) :
    recordSlots sb path sb g = g := by
  funext i
  unfold recordSlots
  split
  · rename_i hfree
    exact ((h.live i).mp hfree).symm
  · rfl

/-- The slot of a new inode gets the path, and the other slots keep theirs. -/
theorem recordSlots_occupy (h : Named sb g) {inode : Inode} (hi : sb.inodesStates i = .free) :
    recordSlots sb path ((sb.setInode i inode).setState i .occupied) g =
      Function.update g i (some path) := by
  funext k
  by_cases hk : k = i
  · subst hk
    simp [recordSlots, hi]
  · rw [Function.update_of_ne hk, recordSlots, Superblock.setState_of_ne hk,
      Superblock.setInode_inodesStates]
    exact congrFun (h.recordSlots_self path) k

/-- The slot that is freed loses its path, and the other slots keep theirs. -/
theorem recordSlots_free (h : Named sb g) {inode : Inode} :
    recordSlots sb path ((sb.setInode i inode).setState i .free) g =
      Function.update g i none := by
  funext k
  by_cases hk : k = i
  · subst hk
    simp [recordSlots]
  · rw [Function.update_of_ne hk, recordSlots, Superblock.setState_of_ne hk,
      Superblock.setInode_inodesStates]
    exact congrFun (h.recordSlots_self path) k

/-- A slot other than the root's, its state and its record are replaced together. -/
theorem setSlot (h : Named sb g) {inode : Inode} {st : InodeState} {o : Option (List Byte)}
    (hi : i ≠ 0) (hlive : st = .free ↔ o = none) (hbound : st = .occupied → i < maxInodes)
    (hname : ∀ q, o = some q → q ≠ rootPath ∧ inode.path = lastComponent q ∧ lastComponent q ≠ [])
    (hblank : st = .free → inode.path = []) :
    Named ((sb.setInode i inode).setState i st) (Function.update g i o) := by
  have h0 : ((sb.setInode i inode).setState i st).inodes 0 = sb.inodes 0 :=
    Superblock.setInode_of_ne hi.symm
  refine ⟨fun k => ?_, fun k hk => ?_, ?_, ?_, ?_, ?_, fun k q hk hq => ?_, fun k hk => ?_⟩
  · by_cases hki : k = i
    · subst hki
      rw [Superblock.setState_self, Function.update_self]
      exact hlive
    · rw [Superblock.setState_of_ne hki, Function.update_of_ne hki]
      exact h.live k
  · by_cases hki : k = i
    · subst hki
      rw [Superblock.setState_self] at hk
      exact hbound hk
    · rw [Superblock.setState_of_ne hki] at hk
      exact h.bound k hk
  · rw [Function.update_of_ne hi.symm]
    exact h.root
  · rw [h0]
    exact h.rootType
  · rw [h0]
    exact h.rootName
  · rw [h0]
    exact h.rootParent
  · rw [Superblock.setState_inodes]
    by_cases hki : k = i
    · subst hki
      rw [Function.update_self] at hq
      rw [Superblock.setInode_self]
      exact hname q hq
    · rw [Function.update_of_ne hki] at hq
      rw [Superblock.setInode_of_ne hki]
      exact h.name k q hk hq
  · rw [Superblock.setState_inodes]
    by_cases hki : k = i
    · subst hki
      rw [Superblock.setState_self] at hk
      rw [Superblock.setInode_self]
      exact hblank hk
    · rw [Superblock.setState_of_ne hki] at hk
      rw [Superblock.setInode_of_ne hki]
      exact h.blank k hk

theorem ne_zero_of_free (h : Named sb g) (hi : sb.inodesStates i = .free) : i ≠ 0 := by
  rintro rfl
  have hroot := h.root
  rw [(h.live 0).mp hi] at hroot
  cases hroot

/-- The file of a lookup that found none gets a slot of its own. -/
theorem creation (h : Named sb g) (hc : Creation sb path sb') :
    Named sb' (recordSlots sb path sb' g) := by
  cases hc with
  | same => rwa [h.recordSlots_self]
  | new i type parent named next fits =>
    obtain ⟨hbound, hfree, hname⟩ := nextFreeInodeIndex_ok next
    rw [h.blank i hfree] at hname
    rw [h.recordSlots_occupy hfree]
    refine h.setSlot (h.ne_zero_of_free hfree) (by simp) (fun _ => hbound) (fun q hq => ?_)
      (fun hst => by cases hst)
    cases hq
    refine ⟨?_, rfl, hname.symm⟩
    rintro rfl
    exact hname rfl

/-- The root is never removed: it is a directory, and its own `directory_path`
is the empty name that `fisopfs_rmdir` looks for. -/
theorem remove_ne_zero (h : Named sb g) (found : getInodeIndex sb path = some i)
    (leaf : (sb.inodes i).type = .regular ∨
      path ≠ [] ∧ ∀ j, j < maxInodes → (sb.inodes j).directoryPath ≠ lastComponent path) :
    i ≠ 0 := by
  rintro rfl
  rcases leaf with hregular | ⟨-, hempty⟩
  · rw [h.rootType] at hregular
    cases hregular
  · by_cases hroot : path = rootPath
    · have hdir := hempty 0 (by decide)
      rw [h.rootParent, hroot] at hdir
      exact hdir rfl
    · exact h.not_bears_zero (getInodeIndex_bears hroot found).2

theorem change (h : Named sb g) (hc : Change sb path sb') :
    Named sb' (recordSlots sb path sb' g) := by
  cases hc with
  | @edit sb₁ _ create edit =>
    obtain ⟨hedit, hstates⟩ := (h.creation create).edit edit
    have hrecord : recordSlots sb path sb' g = recordSlots sb path sb₁ g := by
      unfold recordSlots
      rw [hstates]
    rwa [hrecord]
  | remove remove =>
    cases remove with
    | same => rwa [h.recordSlots_self]
    | remove i found leaf =>
      rw [h.recordSlots_free]
      exact h.setSlot (h.remove_ne_zero found leaf) (by simp) (fun hst => by cases hst)
        (fun q hq => by cases hq) (fun _ => rfl)

end Named

theorem named_of_reach {x : Superblock × Created} (h : Reach recorded anyEvent x) :
    Named x.1 x.2 := by
  have hinit : ∀ x, recorded.init x → Named x.1 x.2 := by
    rintro x ⟨hsb, hg⟩
    rw [hsb, hg]
    exact Named.init
  have hstep : ∀ x op y, Named x.1 x.2 → anyEvent x op → recorded.step x op y →
      Named y.1 y.2 := by
    rintro x op y hx - ⟨⟨r, hr, hsb⟩, hg⟩
    rw [hg, ← hsb]
    exact hx.change (reply_change hr)
  exact h.invariant hinit hstep

/-! ## Shadows -/

namespace Named

/-- A path no other object shadows leads to its own object. -/
theorem found (h : Named sb g) (hs : ¬ Shadowed g path) (hi : getInodeIndex sb path = some i) :
    g i = some path := by
  by_cases hroot : path = rootPath
  · subst hroot
    rw [getInodeIndex_rootPath] at hi
    cases hi
    exact h.root
  · have hbears := (getInodeIndex_bears hroot hi).2
    have hi0 : i ≠ 0 := by
      rintro rfl
      exact h.not_bears_zero hbears
    obtain ⟨q, hq⟩ := h.created hbears.1
    obtain ⟨hqroot, hname, -⟩ := h.name i q hi0 hq
    refine by_contra fun hne => hs ⟨i, q, hq, hqroot, ?_, ?_, fun k hk hgk => ?_⟩
    · rintro rfl
      exact hne hq
    · rw [← hname, ← hbears.2]
    · -- an earlier object of the same path would have been found first
      have hk0 := h.ne_zero_of_created hgk hroot
      exact getInodeIndex_first hroot hi hk (h.bears_of_created hk0 hgk rfl)

/-- An object is found at its path, itself or another with its last component. -/
theorem getInodeIndex_ne_none (h : Named sb g) (hg : g i = some q) (hq : q ≠ rootPath)
    (hlast : lastComponent q = lastComponent path) (hroot : path ≠ rootPath) :
    ∃ k, k ≤ i ∧ getInodeIndex sb path = some k := by
  have hi := h.ne_zero_of_created hg hq
  have hne : path ≠ [] := by
    rintro rfl
    exact (h.name i q hi hg).2.2 hlast
  exact getInodeIndex_of_bears hne hroot (h.bound i (h.occupied hg))
    (h.bears_of_created hi hg hlast)

theorem missing (h : Named sb g) (hnone : getInodeIndex sb path = none) : g i ≠ some path := by
  intro hg
  by_cases hroot : path = rootPath
  · rw [hroot, getInodeIndex_rootPath] at hnone
    cases hnone
  · obtain ⟨k, -, hk⟩ := h.getInodeIndex_ne_none hg hroot rfl hroot
    rw [hnone] at hk
    cases hk

/-- A new object at `path` throws no shadow on `path`. -/
theorem not_shadowed_creation (h : Named sb g) (hs : ¬ Shadowed g path)
    (hc : Creation sb path sb') : ¬ Shadowed (recordSlots sb path sb' g) path := by
  cases hc with
  | same => rwa [h.recordSlots_self]
  | new i type parent named next fits =>
    have hfree := (nextFreeInodeIndex_ok next).2.1
    rw [h.recordSlots_occupy hfree]
    rintro ⟨j, q, hj, hroot, hne, hlast, hfirst⟩
    have hji : j ≠ i := by
      rintro rfl
      rw [Function.update_self] at hj
      exact hne (Option.some.inj hj).symm
    rw [Function.update_of_ne hji] at hj
    refine hs ⟨j, q, hj, hroot, hne, hlast, fun k hk hgk => hfirst k hk ?_⟩
    by_cases hki : k = i
    · rw [hki, Function.update_self]
    · rwa [Function.update_of_ne hki]

/-- An edit reaches the object of its path only. -/
theorem edit_leaves (h : Named sb g) (hs : ¬ Shadowed g path) (he : Edit sb path sb')
    (hg : g i = some q) (hq : q ≠ path) : sb'.inodes i = sb.inodes i := by
  have hne : ∀ k, getInodeIndex sb path = some k → i ≠ k := by
    rintro k hk rfl
    rw [h.found hs hk] at hg
    exact hq (Option.some.inj hg).symm
  cases he with
  | same => rfl
  | write k data offset found => exact Superblock.setInode_of_ne (hne k found)
  | clear k found => exact Superblock.setInode_of_ne (hne k found)
  | truncate k size found => exact Superblock.setInode_of_ne (hne k found)

/-- A callback leaves the objects of the other paths as they are. -/
theorem leaves (h : Named sb g) (hs : ¬ Shadowed g path) (hc : Change sb path sb')
    (hg : g i = some q) (hq : q ≠ path) :
    sb'.inodes i = sb.inodes i ∧ sb'.inodesStates i = sb.inodesStates i := by
  have hlive := h.occupied hg
  cases hc with
  | @edit sb₁ _ create edit =>
    have hnamed := h.creation create
    have hshadow := h.not_shadowed_creation hs create
    have hedit := (hnamed.edit edit).2
    have hcreate : sb₁.inodes i = sb.inodes i ∧ sb₁.inodesStates i = sb.inodesStates i := by
      cases create with
      | same => exact ⟨rfl, rfl⟩
      | new k type parent named next fits =>
        have hik : i ≠ k := by
          rintro rfl
          rw [(nextFreeInodeIndex_ok next).2.1] at hlive
          cases hlive
        exact ⟨Superblock.setInode_of_ne hik, Superblock.setState_of_ne hik⟩
    have hrecord : recordSlots sb path sb₁ g i = some q := by
      simp [recordSlots, hcreate.2, hlive, hg]
    rw [hnamed.edit_leaves hshadow edit hrecord hq, hedit]
    exact hcreate
  | remove remove =>
    cases remove with
    | same => exact ⟨rfl, rfl⟩
    | remove k found leaf =>
      have hik : i ≠ k := by
        rintro rfl
        rw [h.found hs found] at hg
        exact hq (Option.some.inj hg).symm
      exact ⟨Superblock.setInode_of_ne hik, Superblock.setState_of_ne hik⟩

/-- What is read at a path is content of the slot the path leads to. -/
theorem reads (h : Named sb g) (hs : ¬ Shadowed g path) {size : Nat} {offset : Int}
    {d : List Byte} (hd : (fisopfsRead sb path size offset).1 = .ok d) (hne : d ≠ []) :
    ∃ i p n, g i = some path ∧ d = CString.memread (sb.inodes i).content p n := by
  rw [fisopfsRead] at hd
  split at hd
  · cases hd
  · split at hd
    · cases hd
    · rename_i i hi
      dsimp only at hd
      split at hd
      · cases hd
      · split at hd
        · cases hd
          exact absurd rfl hne
        · cases hd
          exact ⟨i, _, _, h.found hs hi, rfl⟩

end Named

/-! ## The law, and a shadow -/

/-- One callback on a superblock with its record. -/
def recordedNext (x : Superblock × Created) (op : Op) : Option (Superblock × Created) :=
  (next x.1 op).map fun sb => (sb, recordSlots x.1 op.path sb x.2)

theorem step_of_recordedNext (x : Superblock × Created) (op : Op) (y : Superblock × Created)
    (h : recordedNext x op = some y) : recorded.step x op y := by
  obtain ⟨sb, hsb, rfl⟩ := Option.map_eq_some_iff.mp h
  exact ⟨step_of_next hsb, rfl⟩

theorem reach_empty {guard : Superblock × Created → Op → Prop} :
    Reach recorded guard (buildSuperblock, createdRoot) := by
  refine .init ?_
  exact ⟨rfl, rfl⟩

/-- A list of callbacks on the empty file system that leads to a state with a
property leads to a reachable one. -/
theorem exists_recorded {guard : Superblock × Created → Op → Prop} {ops : List Op}
    {p : Superblock × Created → Bool} (hguard : ∀ x, ∀ op ∈ ops, guard x op)
    (h : (ops.foldlM recordedNext (buildSuperblock, createdRoot)).any p = true) :
    ∃ x, Reach recorded guard x ∧ p x = true :=
  reach_empty.exists_of_foldlM
    (fun y op hop z hn => ⟨hguard y op hop, step_of_recordedNext y op z hn⟩) h

/-- `/a`, `/b` and `/a/x`. -/
def aSlashX : List Op :=
  [.mkdir [slash, 97#8], .mkdir [slash, 98#8], .create [slash, 97#8, slash, 120#8]]

/-- A lookup is right exactly when no object shadows the path. -/
theorem ownObject_iff {x : Superblock × Created} (h : Reach recorded anyEvent x)
    (path : List Byte) : OwnObject x.1 x.2 path ↔ ¬ Shadowed x.2 path := by
  have hnamed := named_of_reach h
  constructor
  · rintro hown ⟨j, q, hj, hqroot, hne, hlast, hfirst⟩
    have hroot : path ≠ rootPath := by
      rintro rfl
      exact (hnamed.name j q (hnamed.ne_zero_of_created hj hqroot) hj).2.2 hlast
    obtain ⟨k, hk, hfind⟩ := hnamed.getInodeIndex_ne_none hj hqroot hlast hroot
    have hgk := hown.found k hfind
    rcases Nat.lt_or_eq_of_le hk with hlt | rfl
    · exact hfirst k hlt hgk
    · rw [hj] at hgk
      exact hne (Option.some.inj hgk)
  · intro hs
    exact {
      found := fun i hi => hnamed.found hs hi
      missing := fun hnone i => hnamed.missing hnone
      reads := fun size offset d hd hne => hnamed.reads hs hd hne
      leaves := fun op r hpath hr i q hg hq => by
        subst hpath
        exact hnamed.leaves hs (reply_change hr) hg hq }

/-- The law at a path no object shadows and at a path one shadows. -/
theorem ownObject_aSlashX : ∃ x, Reach recorded anyEvent x ∧
    (OwnObject x.1 x.2 [slash, 97#8, slash, 120#8] ↔
      ¬ Shadowed x.2 [slash, 97#8, slash, 120#8]) ∧
    (OwnObject x.1 x.2 [slash, 98#8, slash, 120#8] ↔
      ¬ Shadowed x.2 [slash, 98#8, slash, 120#8]) := by
  have hrun : (aSlashX.foldlM recordedNext (buildSuperblock, createdRoot)).any
      (fun x => x.2 3 = some [slash, 97#8, slash, 120#8]) = true := by decide +kernel
  obtain ⟨x, hr, -⟩ := exists_recorded (fun _ _ _ => trivial) hrun
  exact ⟨x, hr, ownObject_iff hr _, ownObject_iff hr _⟩

/-- A lookup of `/b/x`, where nothing was created, finds `/a/x`, and removing it
removes `/a/x`. -/
theorem unlink_removes_other : ∃ x, Reach recorded anyEvent x ∧
    x.2 3 = some [slash, 97#8, slash, 120#8] ∧ ¬ OwnObject x.1 x.2 [slash, 98#8, slash, 120#8] ∧
    ∃ r, fisopfsUnlink x.1 [slash, 98#8, slash, 120#8] = some r ∧ r.ret = .ok 0 ∧
      r.sb.inodesStates 3 = .free := by
  have hrun : (aSlashX.foldlM recordedNext (buildSuperblock, createdRoot)).any
      (fun x => x.2 3 = some [slash, 97#8, slash, 120#8] ∧
        getInodeIndex x.1 [slash, 98#8, slash, 120#8] = some 3 ∧
        (x.1.inodes 3).type = .regular) = true := by decide +kernel
  obtain ⟨x, hr, hx⟩ := exists_recorded (fun _ _ _ => trivial) hrun
  obtain ⟨hcreated, hfound, htype⟩ := of_decide_eq_true hx
  refine ⟨x, hr, hcreated, fun hown => ?_, ?_⟩
  · rw [hown.found 3 hfound] at hcreated
    exact absurd hcreated (by decide)
  · refine ⟨_, by rw [fisopfsUnlink, hfound]; simp only [htype]; rfl, rfl, ?_⟩
    exact Superblock.setState_self

end Fisopfs
end Sisop

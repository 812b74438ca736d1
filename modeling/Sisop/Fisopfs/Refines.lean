import Sisop.Fisopfs.Clean
import Sisop.Fisopfs.Naming

/-!
# The callbacks keep to the store

As long as the program is proper, each callback does to the store that the superblock stands for
what it says, and returns what it says.
-/

namespace Sisop
namespace Fisopfs

open TransitionSystem CString

/-! ## Slots -/

/-- What every proper run keeps. -/
structure StoreInv (sb : Superblock) : Prop where
  distinct : SlotMap.Distinct maxInodes (slotsOf sb)
  zeroFree : ZeroFree sb
  root : sb.Live 0 ∧ (sb.inodes 0).path = rootPath ∧ (sb.inodes 0).type = .directory ∧
    (sb.inodes 0).directoryPath = []
  named : ∀ i, sb.Live i → (sb.inodes i).path ≠ []
  files : ∀ i, Clean (sb.inodes i) ∧ Stored (sb.inodes i)

section

variable {sb : Superblock} {path name : List Byte} {inode : Inode} {nd : Node} {i o : Nat}
  {type : InodeType}

theorem slotsOf_eq_some : slotsOf sb i = some (name, nd) ↔
    sb.inodesStates i = .occupied ∧ (sb.inodes i).path = name ∧ (sb.inodes i).node = nd := by
  unfold slotsOf
  split
  · rename_i hocc
    rw [Option.some_inj, Prod.mk.injEq]
    exact (and_iff_right hocc).symm
  · rename_i hfree
    exact iff_of_false (fun h => by cases h) fun h => hfree h.1

theorem slotsOf_occupy (sb : Superblock) (i : Nat) (inode : Inode) :
    slotsOf ((sb.setInode i inode).setState i .occupied) =
      Function.update (slotsOf sb) i (some (inode.path, inode.node)) := by
  funext j
  unfold slotsOf
  by_cases hj : j = i
  · rw [hj, Function.update_self, Superblock.setState_self, if_pos rfl, Superblock.setState_inodes,
      Superblock.setInode_self]
  · rw [Function.update_of_ne hj, Superblock.setState_of_ne hj, Superblock.setState_inodes,
      Superblock.setInode_of_ne hj, Superblock.setInode_inodesStates]

theorem slotsOf_free (sb : Superblock) (i : Nat) (inode : Inode) :
    slotsOf ((sb.setInode i inode).setState i .free) = Function.update (slotsOf sb) i none := by
  funext j
  unfold slotsOf
  by_cases hj : j = i
  · rw [hj, Function.update_self, Superblock.setState_self, if_neg InodeState.noConfusion]
  · rw [Function.update_of_ne hj, Superblock.setState_of_ne hj, Superblock.setState_inodes,
      Superblock.setInode_of_ne hj, Superblock.setInode_inodesStates]

/-- An inode in use is put in its slot again. -/
theorem setState_occupied (hi : sb.inodesStates i = .occupied) :
    (sb.setInode i inode).setState i .occupied = sb.setInode i inode := by
  unfold Superblock.setState
  rw [Superblock.setInode_inodesStates, ← hi, Function.update_eq_self]
  rfl

/-- What a path leads to is the node of its name. -/
theorem StoreInv.found (h : StoreInv sb) (hi : getInodeIndex sb path = some i) :
    i < maxInodes ∧ slotsOf sb i = some (dirName path, (sb.inodes i).node) ∧
      (storeOf sb).find path = some (sb.inodes i).node := by
  have hslot : i < maxInodes ∧ slotsOf sb i = some (dirName path, (sb.inodes i).node) := by
    unfold dirName
    by_cases hroot : path = rootPath
    · rw [hroot, getInodeIndex_rootPath] at hi
      cases hi
      rw [if_pos hroot]
      exact ⟨h.root.1.1, slotsOf_eq_some.mpr ⟨h.root.1.2, h.root.2.1, rfl⟩⟩
    · obtain ⟨hlt, hocc, hname⟩ := getInodeIndex_bears hroot hi
      rw [if_neg hroot]
      exact ⟨hlt, slotsOf_eq_some.mpr ⟨hocc, hname.symm, rfl⟩⟩
  refine ⟨hslot.1, hslot.2, ?_⟩
  show SlotMap.find maxInodes (slotsOf sb) (dirName path) = _
  exact h.distinct.find_eq_some.mpr ⟨i, hslot⟩

theorem find_of_missing (hne : path ≠ []) (hi : getInodeIndex sb path = none) :
    path ≠ rootPath ∧ (storeOf sb).find path = none ∧ dirName path = lastComponent path := by
  have hroot : path ≠ rootPath := by
    rintro rfl
    rw [getInodeIndex_rootPath] at hi
    cases hi
  have hname : dirName path = lastComponent path := if_neg hroot
  refine ⟨hroot, SlotMap.find_eq_none.mpr fun j hj nd hs => ?_, hname⟩
  rw [hname] at hs
  obtain ⟨hocc, hpath, -⟩ := slotsOf_eq_some.mp hs
  obtain ⟨k, -, hk⟩ := getInodeIndex_of_bears hne hroot hj ⟨hocc, hpath.symm⟩
  rw [hi] at hk
  cases hk

/-- A slot takes an inode for a name that no other slot has. -/
theorem StoreInv.occupy (h : StoreInv sb) (inode : Inode) (hi : i < maxInodes)
    (hold : slotsOf sb i = none ∧ storeOf sb inode.path = none ∨
      ∃ nd, slotsOf sb i = some (inode.path, nd))
    (hroot : i = 0 → inode.type = .directory ∧ inode.directoryPath = []) (hname : inode.path ≠ [])
    (hclean : Clean inode) (hstored : Stored inode) :
    StoreInv ((sb.setInode i inode).setState i .occupied) ∧
      storeOf ((sb.setInode i inode).setState i .occupied) =
        Function.update (storeOf sb) inode.path (some inode.node) := by
  refine ⟨⟨?_, h.zeroFree.setSlot (fun hx => by cases hx), ⟨?_, ?_⟩, fun j hj => ?_, fun j => ?_⟩, ?_⟩
  · rw [slotsOf_occupy]
    exact h.distinct.update hold
  · refine ⟨h.root.1.1, ?_⟩
    by_cases h0 : (0 : Nat) = i
    · rw [h0, Superblock.setState_self]
    · rw [Superblock.setState_of_ne h0]
      exact h.root.1.2
  · rw [Superblock.setState_inodes]
    by_cases h0 : (0 : Nat) = i
    · have hpath : inode.path = rootPath := by
        rcases hold with ⟨hnone, -⟩ | ⟨nd, hs⟩
        · rw [← h0, slotsOf, if_pos h.root.1.2] at hnone
          cases hnone
        · obtain ⟨-, hpath, -⟩ := slotsOf_eq_some.mp hs
          rw [← hpath, ← h0, h.root.2.1]
      rw [h0, Superblock.setInode_self]
      exact ⟨hpath, hroot h0.symm⟩
    · rw [Superblock.setInode_of_ne h0]
      exact h.root.2
  · rw [Superblock.setState_inodes]
    by_cases hji : j = i
    · rw [hji, Superblock.setInode_self]
      exact hname
    · rw [Superblock.setInode_of_ne hji]
      have hocc := hj.2
      rw [Superblock.setState_of_ne hji] at hocc
      exact h.named j ⟨hj.1, hocc⟩
  · rw [Superblock.setState_inodes]
    by_cases hji : j = i
    · rw [hji, Superblock.setInode_self]
      exact ⟨hclean, hstored⟩
    · rw [Superblock.setInode_of_ne hji]
      exact h.files j
  · unfold storeOf
    rw [slotsOf_occupy]
    exact h.distinct.find_update hi hold

/-- The inode of a path is replaced by one of its name and type. -/
theorem StoreInv.edit (h : StoreInv sb) (hi : getInodeIndex sb path = some i)
    (hpath : inode.path = (sb.inodes i).path) (htype : inode.type = (sb.inodes i).type)
    (hparent : inode.directoryPath = (sb.inodes i).directoryPath)
    (hclean : Clean inode) (hstored : Stored inode) : StoreInv (sb.setInode i inode) ∧
      storeOf (sb.setInode i inode) =
        Function.update (storeOf sb) (dirName path) (some inode.node) := by
  obtain ⟨hlt, hslot, -⟩ := h.found hi
  obtain ⟨hocc, hname, -⟩ := slotsOf_eq_some.mp hslot
  have hput := h.occupy inode hlt (.inr ⟨_, by rw [hpath, hname]; exact hslot⟩)
    (fun h0 => by
      rw [htype, hparent, h0]
      exact h.root.2.2)
    (by
      rw [hpath]
      exact h.named i ⟨hlt, hocc⟩) hclean hstored
  rw [setState_occupied hocc, hpath, hname] at hput
  exact hput

/-- The inode of a path that is not the root goes. -/
theorem StoreInv.remove (h : StoreInv sb) (hi : getInodeIndex sb path = some i) (h0 : i ≠ 0) :
    StoreInv ((sb.setInode i Inode.zero).setState i .free) ∧
      storeOf ((sb.setInode i Inode.zero).setState i .free) =
        Function.update (storeOf sb) (dirName path) none := by
  obtain ⟨hlt, hslot, -⟩ := h.found hi
  refine ⟨⟨?_, h.zeroFree.setSlot (fun _ => rfl), ⟨?_, ?_⟩, fun j hj => ?_, fun j => ?_⟩, ?_⟩
  · rw [slotsOf_free]
    exact h.distinct.erase
  · refine ⟨h.root.1.1, ?_⟩
    rw [Superblock.setState_of_ne h0.symm]
    exact h.root.1.2
  · rw [Superblock.setState_inodes, Superblock.setInode_of_ne h0.symm]
    exact h.root.2
  · have hji : j ≠ i := by
      rintro rfl
      have hocc := hj.2
      rw [Superblock.setState_self] at hocc
      cases hocc
    have hocc := hj.2
    rw [Superblock.setState_of_ne hji] at hocc
    rw [Superblock.setState_inodes, Superblock.setInode_of_ne hji]
    exact h.named j ⟨hj.1, hocc⟩
  · rw [Superblock.setState_inodes]
    by_cases hji : j = i
    · rw [hji, Superblock.setInode_self]
      exact ⟨Clean.zero, Stored.zero⟩
    · rw [Superblock.setInode_of_ne hji]
      exact h.files j
  · unfold storeOf
    rw [slotsOf_free]
    exact h.distinct.find_erase hlt hslot

/-! ## Callbacks -/

/-- A reply is what the store does. -/
structure Does (r : Reply) (result : Store × Except Errno Nat) : Prop where
  inv : StoreInv r.sb
  store : storeOf r.sb = result.1
  ret : r.ret = result.2

theorem StoreInv.throw (h : StoreInv sb) (e : Errno) :
    Does ⟨sb, .error e, 0⟩ (storeOf sb, .error e) := ⟨h, rfl, rfl⟩

theorem StoreInv.full_iff (h : StoreInv sb) :
    (storeOf sb).Full ↔ ∀ i, i < maxInodes → sb.inodesStates i = .occupied := by
  refine h.distinct.ncard_eq_iff.trans (forall₂_congr fun i _ => ?_)
  unfold slotsOf
  split
  · rename_i hocc
    exact iff_of_true (Option.some_ne_none _) hocc
  · rename_i hfree
    exact iff_of_false (fun hx => hx rfl) hfree

theorem Store.ValidPath.ne_nil (hp : Store.ValidPath path) : path ≠ [] := by
  rintro rfl
  cases hp.absolute.absolute

theorem recordedParent_eq (hp : Store.ValidPath path) (type : InodeType) :
    parentPath path type = some (recordedParent path type) := by
  have hshort := hp.short
  cases type with
  | directory => rfl
  | regular => exact if_pos (by omega)

theorem StoreInv.make (h : StoreInv sb) (hp : Store.ValidPath path)
    (hi : getInodeIndex sb path = none) (type : InodeType) :
    ∃ r, newInode sb path type = some r ∧ Does r ((storeOf sb).make path type) := by
  have hne := hp.ne_nil
  obtain ⟨hroot, hnone, hname⟩ := find_of_missing hne hi
  have hnamed : lastComponent path ≠ [] := hp.named.resolve_left hroot
  have hfree : storeOf sb (lastComponent path) = none := hname ▸ hnone
  have hparent := recordedParent_eq hp type
  have hshort := hp.short
  have hlen : ¬ (path = [] ∨ path.length - 1 > maxDataSize) := by
    have hmax : maxPathLength ≤ maxDataSize := by decide
    exact not_or.mpr ⟨hne, by omega⟩
  have hfile : getFilenameFromPath path = some (lastComponent path) := if_neg hne
  unfold newInode Store.make
  rw [if_neg hlen, hfile]
  dsimp only
  rcases nextFreeInodeIndex_cases sb (lastComponent path) with ⟨hnext, hall⟩ | ⟨i, hlt, -, hat⟩
  · rw [hnext, if_pos (h.full_iff.mpr fun i hi => (hall i hi).2)]
    exact ⟨_, rfl, h.throw _⟩
  rcases hat with ⟨hpath, -⟩ | ⟨-, hstate, hnext⟩
  · -- A free slot has no name, and one in use would have been found.
    rcases state_cases sb i with hstate | hocc
    · rw [h.zeroFree i hstate] at hpath
      exact absurd hpath.symm hnamed
    · exact absurd (slotsOf_eq_some.mpr ⟨hocc, hpath, rfl⟩) (SlotMap.find_eq_none.mp hfree i hlt _)
  · have hnot : ¬ (storeOf sb).Full := fun hfull => by
      rw [h.full_iff.mp hfull i hlt] at hstate
      cases hstate
    obtain ⟨hclean, hnode⟩ := Clean.new type (lastComponent path)
      (length_parentPath hparent) (zero_notMem_parentPath hp.absolute hparent)
    have h0 : i ≠ 0 := by
      rintro rfl
      rw [h.root.1.2] at hstate
      cases hstate
    have hempty : slotsOf sb i = none := if_neg (by rw [hstate]; exact InodeState.noConfusion)
    obtain ⟨hinv, hstore⟩ := h.occupy (Inode.new type (lastComponent path)
      (recordedParent path type)) hlt (.inl ⟨hempty, hfree⟩) (fun hx => absurd hx h0) hnamed hclean
      (Stored.new (length_parentPath hparent))
    have hshortName : (lastComponent path).length < maxPathLength :=
      Nat.lt_of_le_of_lt (List.rtakeWhile_suffix _ path).length_le hshort
    rw [hnext, hparent, if_neg hnot]
    refine ⟨_, if_pos hshortName, hinv, ?_, rfl⟩
    rw [hstore, hnode]
    rfl

/-- The end of `fisopfs_write`, on the inode of a path. -/
theorem StoreInv.writeNode (h : StoreInv sb) (hi : getInodeIndex sb path = some i) {data : Buffer}
    (hd : 0#8 ∉ data.val) (hfits : o + data.val.length < maxDataSize)
    (ho : o ≤ (sb.inodes i).contentLen ∨ (sb.inodes i).size < o) :
    ∃ r, (if (sb.inodes i).size < o then Fisopfs.throw sb .einval
      else if (sb.inodes i).type ≠ .regular then Fisopfs.throw sb .eacces
      else some ⟨sb.setInode i ((sb.inodes i).write data.val o), .ok data.val.length,
        max (o + data.val.length) (((sb.inodes i).write data.val o).size + 1)⟩) = some r ∧
      Does r ((storeOf sb).writeNode (dirName path) (sb.inodes i).node data.val o) := by
  unfold Store.writeNode
  rw [show (sb.inodes i).node.size = (sb.inodes i).size from rfl,
    show (sb.inodes i).node.type = (sb.inodes i).type from rfl]
  by_cases hoff : (sb.inodes i).size < o
  · rw [if_pos hoff, if_pos hoff]
    exact ⟨_, rfl, h.throw _⟩
  rw [if_neg hoff, if_neg hoff]
  by_cases htype : (sb.inodes i).type ≠ .regular
  · rw [if_pos htype, if_pos htype]
    exact ⟨_, rfl, h.throw _⟩
  rw [if_neg htype, if_neg htype]
  obtain ⟨hclean, hstored⟩ := h.files i
  obtain ⟨hclean', hnode⟩ := hclean.write hstored hd (ho.resolve_right hoff) hfits
  obtain ⟨hinv, hstore⟩ := h.edit hi Inode.write_path Inode.write_type
    (directoryPath_write hstored (Nat.le_of_lt hfits)) hclean'
    (hstored.write (Nat.le_of_lt hfits))
  refine ⟨_, rfl, hinv, ?_, rfl⟩
  rw [hstore, hnode]

theorem StoreInv.write (h : StoreInv sb) (hp : Store.ValidPath path) {data : Buffer}
    (ho : o < 2 ^ 63) (hd : 0#8 ∉ data.val) (hfits : o + data.val.length ≠ maxDataSize)
    (hat : ∀ nd, (storeOf sb).find path = some nd → o ≤ nd.text.length ∨ nd.size < o) :
    ∃ r, fisopfsWrite sb path data o = some r ∧ Does r ((storeOf sb).write path data.val o) := by
  have hlen := data.property
  have hoff : toSize (o : Int) = o := toSize_natCast (by omega)
  have hend : toSize ((o : Int) + (data.val.length : Int)) = o + data.val.length := by
    have hcast := toSize_natCast (n := o + data.val.length) (by omega)
    rwa [Int.natCast_add] at hcast
  unfold fisopfsWrite Store.write
  rw [hend, hoff]
  by_cases hbig : maxDataSize < o + data.val.length
  · rw [if_pos hbig, if_pos hbig]
    exact ⟨_, rfl, h.throw _⟩
  rw [if_neg hbig, if_neg hbig]
  unfold writeTarget
  cases hi : getInodeIndex sb path with
  | some i =>
      obtain ⟨-, -, hfind⟩ := h.found hi
      have hat' := hat _ hfind
      rw [length_text] at hat'
      rw [hfind]
      exact h.writeNode hi hd (by omega) hat'
  | none =>
      have hne := hp.ne_nil
      obtain ⟨hroot, hnone, hname⟩ := find_of_missing hne hi
      obtain ⟨r, hr, hinv, hstore, hret⟩ := h.make hp hi .regular
      rw [hnone, show fisopfsCreate sb path = some r from hr]
      dsimp only [Option.bind_eq_bind, Option.bind_some]
      unfold Store.make at hstore hret ⊢
      by_cases hfull : (storeOf sb).Full
      · rw [if_pos hfull] at hstore hret ⊢
        rw [hret]
        refine ⟨_, rfl, hinv, hstore, rfl⟩
      rw [if_neg hfull] at hstore hret ⊢
      rw [hret]
      have hnew : (storeOf r.sb).find path =
          some (Node.new .regular (recordedParent path .regular)) := by
        unfold Store.find
        rw [hstore, hname]
        exact Function.update_self _ _ _
      cases hj : getInodeIndex r.sb path with
      | none =>
          obtain ⟨-, hnone', -⟩ := find_of_missing hne hj
          rw [hnew] at hnone'
          cases hnone'
      | some j =>
          obtain ⟨-, -, hfind⟩ := hinv.found hj
          have hnode : (r.sb.inodes j).node = Node.new .regular (recordedParent path .regular) :=
            Option.some_inj.mp (hfind.symm.trans hnew)
          have hempty : (r.sb.inodes j).contentLen = 0 := by
            rw [← length_text, hnode]
            rfl
          have hsize : (r.sb.inodes j).size = 0 := congrArg Node.size hnode
          obtain ⟨r', hr', hdoes⟩ := hinv.writeNode (o := o) hj hd (by omega) (by omega)
          rw [hnode, hstore] at hdoes
          exact ⟨r', hr', hdoes⟩

theorem StoreInv.truncate {n : Nat} (h : StoreInv sb) (hp : Store.ValidPath path) :
    ∃ r, fisopfsTruncate sb path n = some r ∧ Does r ((storeOf sb).truncate path n) := by
  unfold Store.truncate
  by_cases hbig : maxDataSize < n
  · rw [fisopfsTruncate, if_pos (by omega), if_pos hbig]
    exact ⟨_, rfl, h.throw _⟩
  rw [if_neg hbig]
  cases hi : getInodeIndex sb path with
  | none =>
      obtain ⟨-, hnone, -⟩ := find_of_missing hp.ne_nil hi
      rw [fisopfsTruncate, if_neg (by omega), hi, hnone]
      exact ⟨_, rfl, h.throw _⟩
  | some i =>
      obtain ⟨-, -, hfind⟩ := h.found hi
      rw [hfind]
      dsimp only
      rw [show (sb.inodes i).node.type = (sb.inodes i).type from rfl]
      by_cases htype : (sb.inodes i).type ≠ .regular
      · rw [fisopfsTruncate, if_neg (by omega), hi, if_pos htype]
        dsimp only
        rw [if_pos htype]
        exact ⟨_, rfl, h.throw _⟩
      · obtain ⟨touched, hr⟩ := fisopfsTruncate_found hi (not_not.mp htype) (Nat.le_of_not_lt hbig)
        obtain ⟨hclean, hstored⟩ := h.files i
        obtain ⟨hclean', hnode, hstored'⟩ := hclean.cut hstored (Nat.le_of_not_lt hbig)
        obtain ⟨hinv, hstore⟩ := h.edit hi cut_path cut_type (congrArg Node.parent hnode) hclean'
          hstored'
        rw [if_neg htype]
        refine ⟨_, hr, hinv, ?_, rfl⟩
        rw [hstore, hnode]

theorem StoreInv.unlink (h : StoreInv sb) (hp : Store.ValidPath path) :
    ∃ r, fisopfsUnlink sb path = some r ∧ Does r ((storeOf sb).unlink path) := by
  unfold fisopfsUnlink Store.unlink
  cases hi : getInodeIndex sb path with
  | none =>
      obtain ⟨-, hnone, -⟩ := find_of_missing hp.ne_nil hi
      rw [hnone]
      exact ⟨_, rfl, h.throw _⟩
  | some i =>
      obtain ⟨-, -, hfind⟩ := h.found hi
      rw [hfind]
      dsimp only
      rw [show (sb.inodes i).node.type = (sb.inodes i).type from rfl]
      by_cases htype : (sb.inodes i).type ≠ .regular
      · rw [if_pos htype, if_pos htype]
        exact ⟨_, rfl, h.throw _⟩
      · rw [if_neg htype, if_neg htype]
        have h0 : i ≠ 0 := by
          rintro rfl
          rw [h.root.2.2.1] at htype
          exact htype InodeType.noConfusion
        obtain ⟨hinv, hstore⟩ := h.remove hi h0
        exact ⟨_, rfl, hinv, hstore, rfl⟩

/-- Some inode has the name of the directory for its own directory. -/
theorem StoreInv.files_iff (h : StoreInv sb) (hp : Store.ValidPath path) :
    0 < (getFilesInDirectory sb path).length ↔
      ∃ name nd, storeOf sb name = some nd ∧ nd.parent = lastComponent path := by
  have hfiles : ∀ j, j ∈ getFilesInDirectory sb path ↔
      j < maxInodes ∧ (sb.inodes j).directoryPath = lastComponent path := fun j => by
    rw [getFilesInDirectory, List.mem_filter, List.mem_range, getFilenameFromPath,
      if_neg hp.ne_nil, decide_eq_true_eq, Option.some_inj]
  rw [List.length_pos_iff_exists_mem]
  constructor
  · rintro ⟨j, hj⟩
    obtain ⟨hlt, hdir⟩ := (hfiles j).mp hj
    rcases state_cases sb j with hfree | hocc
    · -- A free slot has no directory, which is that of the root.
      have hnil : lastComponent path = [] := by
        rw [← hdir, h.zeroFree j hfree]
        exact strAt_eq_nil rfl
      obtain ⟨hlive, hroot, -, hparent⟩ := h.root
      exact ⟨rootPath, (sb.inodes 0).node,
        h.distinct.find_eq_some.mpr ⟨0, hlive.1, slotsOf_eq_some.mpr ⟨hlive.2, hroot, rfl⟩⟩,
        hparent.trans hnil.symm⟩
    · exact ⟨_, _, h.distinct.find_eq_some.mpr ⟨j, hlt, slotsOf_eq_some.mpr ⟨hocc, rfl, rfl⟩⟩, hdir⟩
  · rintro ⟨name, nd, hfind, hparent⟩
    obtain ⟨j, hlt, hs⟩ := h.distinct.find_eq_some.mp hfind
    obtain ⟨-, -, hnode⟩ := slotsOf_eq_some.mp hs
    refine ⟨j, (hfiles j).mpr ⟨hlt, ?_⟩⟩
    rw [← hparent, ← hnode]
    rfl

theorem StoreInv.rmdir (h : StoreInv sb) (hp : Store.ValidPath path) :
    ∃ r, fisopfsRmdir sb path = some r ∧ Does r ((storeOf sb).rmdir path) := by
  unfold fisopfsRmdir Store.rmdir
  cases hi : getInodeIndex sb path with
  | none =>
      obtain ⟨-, hnone, -⟩ := find_of_missing hp.ne_nil hi
      rw [hnone]
      exact ⟨_, rfl, h.throw _⟩
  | some i =>
      obtain ⟨-, hslot, hfind⟩ := h.found hi
      rw [hfind]
      dsimp only
      rw [show (sb.inodes i).node.type = (sb.inodes i).type from rfl]
      by_cases htype : (sb.inodes i).type ≠ .directory
      · rw [if_pos htype, if_pos htype]
        exact ⟨_, rfl, h.throw _⟩
      rw [if_neg htype, if_neg htype]
      by_cases hchild : ∃ name nd, storeOf sb name = some nd ∧ nd.parent = lastComponent path
      · rw [if_pos ((h.files_iff hp).mpr hchild), if_pos hchild]
        exact ⟨_, rfl, h.throw _⟩
      · rw [if_neg fun hpos => hchild ((h.files_iff hp).mp hpos), if_neg hchild]
        -- The root has the root's name for its directory, and is never empty.
        have h0 : i ≠ 0 := by
          rintro rfl
          obtain ⟨-, hroot, -, hparent⟩ := h.root
          obtain ⟨-, hname, -⟩ := slotsOf_eq_some.mp hslot
          have hpath : path = rootPath := dirName_eq_rootPath.mp (hname.symm.trans hroot)
          refine hchild ⟨rootPath, (sb.inodes 0).node, ?_, ?_⟩
          · rw [← hfind, hpath]
            rfl
          · rw [hpath]
            exact hparent
        obtain ⟨hinv, hstore⟩ := h.remove hi h0
        exact ⟨_, rfl, hinv, hstore, rfl⟩

/-! ## Reading and listing -/

theorem StoreInv.read {n : Nat} (h : StoreInv sb) (hne : path ≠ []) (hend : o + n < 2 ^ 63) :
    (fisopfsRead sb path n o).1 = (storeOf sb).read path n o := by
  unfold Store.read
  cases hi : getInodeIndex sb path with
  | none =>
      obtain ⟨-, hnone, -⟩ := find_of_missing hne hi
      rw [fisopfsRead, if_neg (by omega), hi, hnone]
  | some i =>
      obtain ⟨-, -, hfind⟩ := h.found hi
      rw [hfind]
      dsimp only
      rw [show (sb.inodes i).node.type = (sb.inodes i).type from rfl]
      cases htype : (sb.inodes i).type with
      | directory =>
          rw [fisopfsRead, if_neg (by omega), hi]
          dsimp only
          rw [if_pos htype, if_pos rfl]
      | regular =>
          have hdir : ¬ InodeType.regular = .directory := InodeType.noConfusion
          rw [fisopfsRead_found hi htype hend, if_neg hdir, (h.files i).1.bytes, take_drop_memread]
          congr 1
          split
          · rw [show min n ((sb.inodes i).size - o) = 0 by omega]
            rfl
          · congr 1
            split <;> omega

theorem StoreInv.readdir (h : StoreInv sb) (hne : path ≠ []) :
    (storeOf sb).Listed path (fisopfsReaddir sb path) := by
  unfold Store.Listed
  cases hi : getInodeIndex sb path with
  | none =>
      obtain ⟨-, hnone, -⟩ := find_of_missing hne hi
      rw [hnone, fisopfsReaddir, hi]
      exact ⟨rfl, rfl⟩
  | some i =>
      obtain ⟨-, hslot, hfind⟩ := h.found hi
      obtain ⟨-, hname, -⟩ := slotsOf_eq_some.mp hslot
      rw [hfind]
      dsimp only
      rw [show (sb.inodes i).node.type = (sb.inodes i).type from rfl]
      by_cases htype : (sb.inodes i).type ≠ .directory
      · rw [if_pos htype, fisopfsReaddir, hi]
        dsimp only
        rw [if_pos htype]
        exact ⟨rfl, rfl⟩
      rw [if_neg htype]
      have heq := fisopfsReaddir_eq hi (not_not.mp htype)
      have hmem : ∀ j, j ∈ (fisopfsReaddir sb path).slots ↔ (1 ≤ j ∧ j < maxInodes) ∧
          sb.inodesStates j = .occupied ∧ (sb.inodes j).directoryPath = dirName path := fun j => by
        simp only [fisopfsReaddir, hi, htype, if_false, List.mem_filter, List.mem_range'_1,
          decide_eq_true_eq, isChildInode, hname]
        rw [show 1 + (maxInodes - 1) = maxInodes from rfl]
      refine ⟨(fisopfsReaddir sb path).slots.map fun j => (sb.inodes j).path, ?_, ?_, ?_,
        fun name => ?_⟩
      · rw [heq]
      · refine (nodup_slots hi (not_not.mp htype)).map_on fun j hj k hk hjk => ?_
        obtain ⟨⟨-, hjlt⟩, hjocc, -⟩ := (hmem j).mp hj
        obtain ⟨⟨-, hklt⟩, hkocc, -⟩ := (hmem k).mp hk
        exact h.distinct j k _ _ _ hjlt hklt (slotsOf_eq_some.mpr ⟨hjocc, rfl, rfl⟩)
          (slotsOf_eq_some.mpr ⟨hkocc, hjk.symm, rfl⟩)
      · rw [heq]
      rw [List.mem_map]
      obtain ⟨hlive, hroot, -⟩ := h.root
      have hzero : slotsOf sb 0 = some (rootPath, (sb.inodes 0).node) :=
        slotsOf_eq_some.mpr ⟨hlive.2, hroot, rfl⟩
      constructor
      · rintro ⟨j, hj, rfl⟩
        obtain ⟨⟨hpos, hlt⟩, hocc, hdir⟩ := (hmem j).mp hj
        have hs : slotsOf sb j = some ((sb.inodes j).path, (sb.inodes j).node) :=
          slotsOf_eq_some.mpr ⟨hocc, rfl, rfl⟩
        refine ⟨fun hx => ?_, _, h.distinct.find_eq_some.mpr ⟨j, hlt, hs⟩, hdir⟩
        rw [hx] at hs
        have h0 : j = 0 := h.distinct j 0 _ _ _ hlt hlive.1 hs hzero
        omega
      · rintro ⟨hnot, child, hchild, hparent⟩
        obtain ⟨j, hlt, hs⟩ := h.distinct.find_eq_some.mp hchild
        obtain ⟨hocc, hpath, hnode⟩ := slotsOf_eq_some.mp hs
        have hpos : j ≠ 0 := by
          rintro rfl
          exact hnot (hpath.symm.trans hroot)
        refine ⟨j, (hmem j).mpr ⟨⟨by omega, hlt⟩, hocc, ?_⟩, hpath⟩
        rw [← hparent, ← hnode]
        rfl

/-! ## Runs -/

theorem StoreInv.init : StoreInv buildSuperblock ∧ storeOf buildSuperblock = emptyStore := by
  have honly : ∀ i, buildSuperblock.inodesStates i = .occupied ↔ i = 0 := fun i => by
    unfold buildSuperblock
    dsimp only
    split
    · rename_i h0
      exact iff_of_true rfl h0
    · rename_i h0
      exact iff_of_false InodeState.noConfusion h0
  have hrest : ∀ i, i ≠ 0 → buildSuperblock.inodes i = Inode.zero := fun _ h0 => if_neg h0
  have hslots : ∀ i name nd, slotsOf buildSuperblock i = some (name, nd) ↔
      i = 0 ∧ name = rootPath ∧ nd = rootDirectory.node := fun i name nd => by
    rw [slotsOf_eq_some, honly]
    refine and_congr_right fun h0 => ?_
    rw [h0]
    exact and_congr eq_comm eq_comm
  obtain ⟨hclean, hlen⟩ := Clean.of_zeros rootDirectory (fun _ _ => rfl) (Nat.le_refl _)
  have hnil : rootDirectory.directoryPath = [] := strAt_eq_nil rfl
  have hinv : StoreInv buildSuperblock := by
    refine ⟨fun i j k v w _ _ hi hj => ?_, fun i hi => hrest i fun h0 => ?_, ⟨?_, rfl, rfl, hnil⟩,
      fun i hi => ?_, fun i => ?_⟩
    · rw [((hslots i k v).mp hi).1, ((hslots j k w).mp hj).1]
    · rw [(honly i).mpr h0] at hi
      cases hi
    · exact ⟨by decide, (honly 0).mpr rfl⟩
    · rw [(honly i).mp hi.2]
      exact List.cons_ne_nil _ _
    · by_cases h0 : i = 0
      · rw [h0]
        exact ⟨hclean, by decide, rfl⟩
      · rw [hrest i h0]
        exact ⟨Clean.zero, Stored.zero⟩
  refine ⟨hinv, funext fun name => Option.ext fun nd => ?_⟩
  have hnode : rootDirectory.node = ⟨.directory, [], [], 1024⟩ := by
    show Node.mk _ _ _ _ = Node.mk _ _ _ _
    rw [Node.mk.injEq]
    exact ⟨rfl, hnil, List.length_eq_zero_iff.mp (length_memread.trans hlen), rfl⟩
  refine hinv.distinct.find_eq_some.trans ?_
  unfold emptyStore
  constructor
  · rintro ⟨i, -, hs⟩
    obtain ⟨-, hname, hnd⟩ := (hslots i name nd).mp hs
    rw [if_pos hname, hnd, hnode]
  · intro hs
    split at hs
    · rename_i hname
      cases hs
      exact ⟨0, by decide, (hslots 0 _ _).mpr ⟨rfl, hname, hnode.symm⟩⟩
    · cases hs

theorem StoreInv.reply (h : StoreInv sb) {op : Op} (hop : (storeOf sb).Proper op) :
    ∃ r, op.reply sb = some r ∧ Does r ((storeOf sb).step op) := by
  have hmissing : ∀ {path : List Byte}, (storeOf sb).find path = none →
      getInodeIndex sb path = none := fun {path} hnone => by
    cases hi : getInodeIndex sb path with
    | none => rfl
    | some i =>
        obtain ⟨-, -, hfind⟩ := h.found hi
        rw [hnone] at hfind
        cases hfind
  cases op with
  | create path =>
      obtain ⟨hp, -, hnone⟩ := hop
      exact h.make hp (hmissing hnone) .regular
  | mkdir path =>
      obtain ⟨hp, -, hnone⟩ := hop
      exact h.make hp (hmissing hnone) .directory
  | write path d o =>
      obtain ⟨hp, ho, hlt, hd, hfits, hat⟩ := hop
      obtain ⟨n, rfl⟩ := Int.eq_ofNat_of_zero_le ho
      exact h.write hp (by omega) hd hfits hat
  | truncate path n =>
      obtain ⟨hp, hn⟩ := hop
      obtain ⟨n, rfl⟩ := Int.eq_ofNat_of_zero_le hn
      exact h.truncate hp
  | unlink path => exact h.unlink hop
  | rmdir path => exact h.rmdir hop

/-- A proper program on the superblock. -/
def ProperOn (sb : Superblock) (op : Op) : Prop := (storeOf sb).Proper op

theorem storeInv_of_reach (h : Reach fisopfs ProperOn sb) :
    StoreInv sb ∧ Reach stores Store.Proper (storeOf sb) := by
  induction h with
  | init h0 =>
      cases h0
      exact ⟨StoreInv.init.1, .init StoreInv.init.2⟩
  | step run hop hstep ih =>
      obtain ⟨r, hr, rfl⟩ := hstep
      obtain ⟨r', hr', hdoes⟩ := ih.1.reply hop
      rw [hr] at hr'
      cases hr'
      exact ⟨hdoes.inv, .step ih.2 hop hdoes.store.symm⟩

theorem exists_reach {st : Store} (h : Reach stores Store.Proper st) :
    ∃ sb, Reach fisopfs ProperOn sb ∧ storeOf sb = st := by
  induction h with
  | init h0 => exact ⟨buildSuperblock, .init rfl, StoreInv.init.2.trans h0.symm⟩
  | step run hop hstep ih =>
      obtain ⟨sb, hsb, rfl⟩ := ih
      obtain ⟨r, hr, hdoes⟩ := (storeInv_of_reach hsb).1.reply hop
      exact ⟨r.sb, .step hsb hop ⟨r, hr, rfl⟩, hdoes.store.trans hstep⟩

/-- The stores of proper programs are those that the superblocks stand for, and on each of these
the callbacks change, return and list what the store says. -/
theorem fisopfs_refines :
    (∀ st, Reach stores Store.Proper st ↔ ∃ sb, Reach fisopfs ProperOn sb ∧ storeOf sb = st) ∧
    ∀ sb, Reach fisopfs ProperOn sb →
      (∀ op, (storeOf sb).Proper op → ∃ r, op.reply sb = some r ∧
        (storeOf r.sb, r.ret) = (storeOf sb).step op) ∧
      (∀ path n o, path ≠ [] → o + n < 2 ^ 63 →
        (fisopfsRead sb path n (o : Nat)).1 = (storeOf sb).read path n o) ∧
      ∀ path, path ≠ [] → (storeOf sb).Listed path (fisopfsReaddir sb path) := by
  refine ⟨fun st => ⟨exists_reach, ?_⟩, fun sb hsb => ?_⟩
  · rintro ⟨sb, hsb, rfl⟩
    exact (storeInv_of_reach hsb).2
  · have hinv := (storeInv_of_reach hsb).1
    refine ⟨fun op hop => ?_, fun path n o hne hend => hinv.read hne hend,
      fun path hne => hinv.readdir hne⟩
    obtain ⟨r, hr, hdoes⟩ := hinv.reply hop
    exact ⟨r, hr, Prod.ext hdoes.store hdoes.ret⟩

end

/-- `/f` is made in the empty file system and written. -/
theorem fisopfs_refines_hello : ∃ r, (Op.write slashF hello 0).reply oneFile = some r ∧
    (storeOf r.sb, r.ret) = (storeOf oneFile).step (.write slashF hello 0) := by
  have hp : Store.ValidPath slashF := ⟨⟨rfl, by decide⟩, by decide, .inr (by decide)⟩
  have hcreate : ProperOn buildSuperblock (.create slashF) := by
    refine ⟨hp, by decide, ?_⟩
    have hname : dirName slashF ≠ rootPath := by decide
    rw [StoreInv.init.2, Store.find, emptyStore, if_neg hname]
  have hwrite : (storeOf oneFile).Proper (.write slashF hello 0) :=
    ⟨hp, by decide, by decide, by decide, by decide, fun _ _ => .inl (Nat.zero_le _)⟩
  exact (fisopfs_refines.2 oneFile (reach_oneFile hcreate)).1 _ hwrite

end Fisopfs
end Sisop

import Mathlib.Order.Bounds.Defs
import Sisop.Fisopfs.Lookup

/-!
# New names

`next_free_inode_index` looks for the name and for a free slot in one loop, and stops at
whichever comes first.  A free slot in front of the inode with the name hides it, and
`new_inode` then makes a second one of that name.
-/

namespace Sisop
namespace Fisopfs

open TransitionSystem

/-- The search for a new name and a slot for it, as its two errors name the outcomes. -/
structure NextFreeContract (sb : Superblock) (name : List Byte) : Prop where
  eexist : nextFreeInodeIndex sb name = .error .eexist ↔
    ∃ i, sb.Live i ∧ (sb.inodes i).path = name
  enospc : nextFreeInodeIndex sb name = .error .enospc ↔
    (∀ i, sb.Live i → (sb.inodes i).path ≠ name) ∧
      ∀ i, i < maxInodes → sb.inodesStates i = .occupied
  ok : ∀ i, nextFreeInodeIndex sb name = .ok i ↔
    (∀ j, sb.Live j → (sb.inodes j).path ≠ name) ∧
      IsLeast {k | k < maxInodes ∧ sb.inodesStates k = .free} i

/-- If an inode in use has the name, one has that no free slot stands in front of. -/
def Unhidden (sb : Superblock) (name : List Byte) : Prop :=
  (∃ i, sb.Live i ∧ (sb.inodes i).path = name) →
    ∃ i, sb.Live i ∧ (sb.inodes i).path = name ∧ ∀ j, j < i → sb.inodesStates j = .occupied

/-- No two inodes in use have one name. -/
def DistinctNames (sb : Superblock) : Prop :=
  ∀ i j, sb.Live i → sb.Live j → (sb.inodes i).path = (sb.inodes j).path → i = j

/-- A file or directory is made only at a path whose name is not hidden. -/
def MakesUnhidden (sb : Superblock) : Op → Prop
  | .create path | .mkdir path => Unhidden sb (lastComponent path)
  | _ => True

section

variable {sb sb' : Superblock} {path name : List Byte} {i : Nat}

/-! ## The search -/

theorem state_cases (sb : Superblock) (i : Nat) :
    sb.inodesStates i = .free ∨ sb.inodesStates i = .occupied := by
  cases sb.inodesStates i with
  | free => exact .inl rfl
  | occupied => exact .inr rfl

/-- The slot where the loop stops, or that it does not. -/
theorem nextFreeInodeIndex_cases (sb : Superblock) (name : List Byte) :
    (nextFreeInodeIndex sb name = .error .enospc ∧
      ∀ i, i < maxInodes → (sb.inodes i).path ≠ name ∧ sb.inodesStates i = .occupied) ∨
    ∃ i, i < maxInodes ∧
      (∀ j, j < i → (sb.inodes j).path ≠ name ∧ sb.inodesStates j = .occupied) ∧
      ((sb.inodes i).path = name ∧ nextFreeInodeIndex sb name = .error .eexist ∨
        (sb.inodes i).path ≠ name ∧ sb.inodesStates i = .free ∧
          nextFreeInodeIndex sb name = .ok i) := by
  have hpast (j : Nat)
      (h : decide ((sb.inodes j).path = name ∨ sb.inodesStates j = .free) = false) :
      (sb.inodes j).path ≠ name ∧ sb.inodesStates j = .occupied := by
    obtain ⟨hname, hfree⟩ := not_or.mp (of_decide_eq_false h)
    exact ⟨hname, (state_cases sb j).resolve_left hfree⟩
  unfold nextFreeInodeIndex
  cases hfind : (List.range maxInodes).find? fun i =>
      (sb.inodes i).path = name ∨ sb.inodesStates i = .free with
  | none =>
      refine .inl ⟨rfl, fun i hi => hpast i ?_⟩
      exact Bool.not_eq_true'  _ ▸ List.find?_range_eq_none.mp hfind i hi
  | some i =>
      obtain ⟨hor, hmem, hfirst⟩ := List.find?_range_eq_some.mp hfind
      refine .inr ⟨i, List.mem_range.mp hmem, fun j hj => hpast j ?_, ?_⟩
      · exact Bool.not_eq_true' _ ▸ hfirst j hj
      · dsimp only
        by_cases hname : (sb.inodes i).path = name
        · exact .inl ⟨hname, if_pos hname⟩
        · exact .inr ⟨hname, (of_decide_eq_true hor).resolve_left hname, if_neg hname⟩

/-- The search keeps to its contract exactly when the name is not hidden; a free slot has
no name. -/
theorem nextFreeContract_iff (hblank : ∀ i, sb.inodesStates i = .free → (sb.inodes i).path = [])
    (hname : name ≠ []) : NextFreeContract sb name ↔ Unhidden sb name := by
  rcases nextFreeInodeIndex_cases sb name with ⟨hnext, hall⟩ | ⟨i, hi, hbefore, hat⟩
  · have hnone (j : Nat) (hj : sb.Live j) : (sb.inodes j).path ≠ name := (hall j hj.1).1
    refine iff_of_true ⟨?_, ?_, fun k => ?_⟩ fun ⟨j, hj, hnamed⟩ => absurd hnamed (hnone j hj)
    · rw [hnext]
      refine iff_of_false (fun heq => by cases heq) fun ⟨j, hj, hnamed⟩ => hnone j hj hnamed
    · rw [hnext]
      exact iff_of_true rfl ⟨hnone, fun j hj => (hall j hj).2⟩
    · rw [hnext]
      refine iff_of_false (fun heq => by cases heq) fun ⟨_, hleast⟩ => ?_
      obtain ⟨hk, hfree⟩ := hleast.1
      rw [(hall k hk).2] at hfree
      cases hfree
  · rcases hat with ⟨hnamed, hnext⟩ | ⟨hother, hfree, hnext⟩
    · have hoccupied : sb.inodesStates i = .occupied := by
        refine (state_cases sb i).resolve_left fun hfree => hname ?_
        rw [← hnamed, hblank i hfree]
      have hlive : sb.Live i := ⟨hi, hoccupied⟩
      refine iff_of_true ⟨?_, ?_, fun k => ?_⟩
        fun _ => ⟨i, hlive, hnamed, fun j hj => (hbefore j hj).2⟩
      · rw [hnext]
        exact iff_of_true rfl ⟨i, hlive, hnamed⟩
      · rw [hnext]
        refine iff_of_false (fun heq => by cases heq) fun hfull => hfull.1 i hlive hnamed
      · rw [hnext]
        refine iff_of_false (fun heq => by cases heq) fun hleast => hleast.1 i hlive hnamed
    · have hleast : IsLeast {k | k < maxInodes ∧ sb.inodesStates k = .free} i := by
        refine ⟨⟨hi, hfree⟩, fun k hk => Nat.le_of_not_lt fun hlt => ?_⟩
        have hstate := hk.2
        rw [(hbefore k hlt).2] at hstate
        cases hstate
      constructor
      · rintro hc ⟨j, hj, hnamed⟩
        exact absurd hnamed (((hc.ok i).mp hnext).1 j hj)
      · intro hun
        have hnone (j : Nat) (hj : sb.Live j) : (sb.inodes j).path ≠ name := by
          intro hnamed
          obtain ⟨k, -, hk, hocc⟩ := hun ⟨j, hj, hnamed⟩
          rcases Nat.lt_trichotomy k i with hlt | rfl | hgt
          · exact (hbefore k hlt).1 hk
          · exact hother hk
          · rw [hocc i hgt] at hfree
            cases hfree
        refine ⟨?_, ?_, fun k => ?_⟩
        · rw [hnext]
          refine iff_of_false (fun heq => by cases heq) fun ⟨j, hj, hnamed⟩ => hnone j hj hnamed
        · rw [hnext]
          refine iff_of_false (fun heq => by cases heq) fun hfull => ?_
          rw [hfull.2 i hi] at hfree
          cases hfree
        · rw [hnext]
          constructor
          · intro heq
            cases heq
            exact ⟨hnone, hleast⟩
          · rintro ⟨-, hk⟩
            rw [Nat.le_antisymm (hleast.2 hk.1) (hk.2 hleast.1)]

/-- A slot that the search returns is for a name that no inode in use has, unless one is
hidden. -/
theorem Unhidden.fresh (h : Unhidden sb name) (hnext : nextFreeInodeIndex sb name = .ok i)
    {j : Nat} (hj : sb.Live j) : (sb.inodes j).path ≠ name := by
  intro hnamed
  obtain ⟨hi, hfree, hother⟩ := nextFreeInodeIndex_ok hnext
  obtain ⟨k, hk, hkname, hocc⟩ := h ⟨j, hj, hnamed⟩
  rcases nextFreeInodeIndex_cases sb name with ⟨hno, -⟩ | ⟨m, hm, hbefore, hat⟩
  · rw [hnext] at hno
    cases hno
  · rcases hat with ⟨-, hno⟩ | ⟨hmname, hmfree, hm'⟩
    · rw [hnext] at hno
      cases hno
    · rcases Nat.lt_trichotomy k m with hlt | rfl | hgt
      · exact (hbefore k hlt).1 hkname
      · exact hmname hkname
      · rw [hocc m hgt] at hmfree
        cases hmfree

/-! ## Every run -/

theorem DistinctNames.of_kept (h : DistinctNames sb)
    (hkept : ∀ k, sb'.Live k → sb.Live k ∧ (sb'.inodes k).path = (sb.inodes k).path) :
    DistinctNames sb' := by
  intro a b ha hb heq
  obtain ⟨ha', hpa⟩ := hkept a ha
  obtain ⟨hb', hpb⟩ := hkept b hb
  rw [hpa, hpb] at heq
  exact h a b ha' hb' heq

/-- A new inode whose name no inode in use has. -/
theorem DistinctNames.new (h : DistinctNames sb) {type : InodeType} {parent : List Byte}
    (hfresh : ∀ j, sb.Live j → (sb.inodes j).path ≠ name) :
    DistinctNames ((sb.setInode i (Inode.new type name parent)).setState i .occupied) := by
  have hat : (((sb.setInode i (Inode.new type name parent)).setState i .occupied).inodes i).path =
      name := by
    rw [Superblock.setState_inodes, Superblock.setInode_self]
    rfl
  have hold (k : Nat) (hk : k ≠ i)
      (hl : ((sb.setInode i (Inode.new type name parent)).setState i .occupied).Live k) :
      sb.Live k ∧ (((sb.setInode i (Inode.new type name parent)).setState i .occupied).inodes
        k).path = (sb.inodes k).path := by
    obtain ⟨hlt, hocc⟩ := hl
    rw [Superblock.setState_of_ne hk, Superblock.setInode_inodesStates] at hocc
    rw [Superblock.setState_inodes, Superblock.setInode_of_ne hk]
    exact ⟨⟨hlt, hocc⟩, rfl⟩
  intro a b ha hb heq
  by_cases hai : a = i
  · by_cases hbi : b = i
    · rw [hai, hbi]
    · obtain ⟨hb', hpb⟩ := hold b hbi hb
      rw [hai, hat, hpb] at heq
      exact absurd heq.symm (hfresh b hb')
  · obtain ⟨ha', hpa⟩ := hold a hai ha
    by_cases hbi : b = i
    · rw [hbi, hat, hpa] at heq
      exact absurd heq (hfresh a ha')
    · obtain ⟨hb', hpb⟩ := hold b hbi hb
      rw [hpa, hpb] at heq
      exact h a b ha' hb' heq

theorem DistinctNames.created (h : DistinctNames sb) {type : InodeType} {r : Reply}
    (hr : newInode sb path type = some r)
    (hfresh : ∀ i, path ≠ [] → nextFreeInodeIndex sb (lastComponent path) = .ok i →
      ∀ j, sb.Live j → (sb.inodes j).path ≠ lastComponent path) : DistinctNames r.sb := by
  rcases newInode_reply hr with ⟨e, rfl⟩ | ⟨i, parent, hne, hnext, -, rfl⟩
  · exact h
  · exact h.new (hfresh i hne hnext)

/-- An edit changes no name. -/
theorem DistinctNames.edit (h : DistinctNames sb) (he : Edit sb path sb') : DistinctNames sb' := by
  have hset (i : Nat) (inode : Inode) (hpath : inode.path = (sb.inodes i).path) :
      DistinctNames (sb.setInode i inode) := by
    refine h.of_kept fun k hk => ⟨hk, ?_⟩
    by_cases hki : k = i
    · rw [hki, Superblock.setInode_self, hpath]
    · rw [Superblock.setInode_of_ne hki]
  cases he with
  | same => exact h
  | write i data offset => exact hset i _ rfl
  | clear i => exact hset i _ rfl
  | truncate i size => exact hset i _ rfl

theorem DistinctNames.removal (h : DistinctNames sb) (hr : Removal sb path sb') :
    DistinctNames sb' := by
  cases hr with
  | same => exact h
  | remove i found leaf =>
      refine h.of_kept fun k hk => ?_
      by_cases hki : k = i
      · have hocc := hk.2
        rw [hki, Superblock.setState_self] at hocc
        cases hocc
      · obtain ⟨hlt, hocc⟩ := hk
        rw [Superblock.setState_of_ne hki, Superblock.setInode_inodesStates] at hocc
        rw [Superblock.setState_inodes, Superblock.setInode_of_ne hki]
        exact ⟨⟨hlt, hocc⟩, rfl⟩

/-- A path that leads nowhere has a name that no inode in use has. -/
theorem fresh_of_missing (hne : path ≠ []) (hnone : getInodeIndex sb path = none) {j : Nat}
    (hj : sb.Live j) : (sb.inodes j).path ≠ lastComponent path := by
  intro hnamed
  have hroot : path ≠ rootPath := by
    rintro rfl
    rw [getInodeIndex_rootPath] at hnone
    cases hnone
  obtain ⟨k, -, hk⟩ := getInodeIndex_of_bears hne hroot hj.1 ⟨hj.2, hnamed.symm⟩
  rw [hnone] at hk
  cases hk

/-- A write finds its file, or makes one because there is none. -/
theorem writeTarget_cases {target : Except Errno Nat}
    (h : writeTarget sb path = some (sb', target)) :
    (∃ i, getInodeIndex sb path = some i ∧ sb' = sb ∧ target = .ok i) ∨
      getInodeIndex sb path = none ∧ ∃ r, newInode sb path .regular = some r ∧ sb' = r.sb ∧
        ((∃ e, r.ret = .error e ∧ target = .error e) ∨
          ∃ n, r.ret = .ok n ∧ target = match getInodeIndex r.sb path with
            | none => .error .enoent
            | some i => .ok i) := by
  rw [writeTarget] at h
  cases hfind : getInodeIndex sb path with
  | some i =>
      rw [hfind] at h
      cases h
      exact .inl ⟨i, rfl, rfl, rfl⟩
  | none =>
      rw [hfind] at h
      obtain ⟨r, hr, h⟩ := Option.bind_eq_some_iff.mp h
      refine .inr ⟨rfl, r, hr, ?_⟩
      cases hret : r.ret with
      | error e =>
          rw [hret] at h
          cases h
          exact ⟨rfl, .inl ⟨e, rfl, rfl⟩⟩
      | ok n =>
          rw [hret] at h
          cases hfound : getInodeIndex r.sb path with
          | none =>
              rw [hfound] at h
              cases h
              exact ⟨rfl, .inr ⟨n, rfl, rfl⟩⟩
          | some i =>
              rw [hfound] at h
              cases h
              exact ⟨rfl, .inr ⟨n, rfl, rfl⟩⟩

/-- A write makes a file only where there is none of the name. -/
theorem DistinctNames.write (h : DistinctNames sb) {data : Buffer} {offset : Int} {r : Reply}
    (hr : fisopfsWrite sb path data offset = some r) : DistinctNames r.sb := by
  rw [fisopfsWrite] at hr
  by_cases hbig : toSize (offset + data.val.length) > maxDataSize
  · rw [if_pos hbig] at hr
    rw [throw_eq hr]
    exact h
  · rw [if_neg hbig] at hr
    obtain ⟨⟨sb', target⟩, htarget, hr⟩ := Option.bind_eq_some_iff.mp hr
    have hd : DistinctNames sb' := by
      rcases writeTarget_cases htarget with ⟨i, -, hsb, -⟩ | ⟨hnone, r', hr', hsb, -⟩
      · rw [hsb]
        exact h
      · rw [hsb]
        exact h.created hr' fun i hne _ j hj => fresh_of_missing hne hnone hj
    cases target with
    | error e =>
        rw [throw_eq hr]
        exact hd
    | ok i =>
        dsimp only at hr
        by_cases hoff : (sb'.inodes i).size < toSize offset
        · rw [if_pos hoff] at hr
          rw [throw_eq hr]
          exact hd
        · rw [if_neg hoff] at hr
          by_cases htype : (sb'.inodes i).type ≠ .regular
          · rw [if_pos htype] at hr
            rw [throw_eq hr]
            exact hd
          · rw [if_neg htype] at hr
            rw [← Option.some.inj hr]
            refine hd.of_kept fun k hk => ⟨hk, ?_⟩
            by_cases hki : k = i
            · rw [hki, Superblock.setInode_self, Inode.write_path]
            · rw [Superblock.setInode_of_ne hki]

theorem DistinctNames.step (h : DistinctNames sb) {op : Op} (hok : MakesUnhidden sb op)
    {r : Reply} (hr : op.reply sb = some r) : DistinctNames r.sb := by
  cases op with
  | create path =>
      have hnew : newInode sb path .regular = some r := hr
      exact h.created hnew fun i _ hnext j hj => Unhidden.fresh hok hnext hj
  | mkdir path =>
      have hnew : newInode sb path .directory = some r := hr
      exact h.created hnew fun i _ hnext j hj => Unhidden.fresh hok hnext hj
  | write path data offset => exact h.write hr
  | truncate path size =>
      rcases truncate_reply hr with ⟨hsb, -⟩ | ⟨i, hi, htype, ⟨-, rfl⟩ | ⟨hpos, hle, rfl⟩⟩
      · rw [hsb]
        exact h
      · exact h.edit (.clear i hi htype)
      · exact h.edit (.truncate i size.toNat hi htype (by omega) (by omega))
  | unlink path => exact h.removal (unlink_removal hr).1
  | rmdir path => exact h.removal (rmdir_removal hr).1

theorem distinctNames_of_reach (h : Reach fisopfs MakesUnhidden sb) : DistinctNames sb := by
  refine h.invariant (fun sb hsb => ?_) fun sb op sb' hd hok hstep => ?_
  · have honly (k : Nat) (hk : sb.Live k) : k = 0 := by
      by_contra hne
      have hocc := hk.2
      rw [hsb, buildSuperblock] at hocc
      dsimp only at hocc
      rw [if_neg hne] at hocc
      cases hocc
    intro a b ha hb _
    rw [honly a ha, honly b hb]
  · obtain ⟨r, hr, rfl⟩ := hstep
    exact hd.step hok hr

/-- In every state reached the search keeps to its contract exactly when the name is not
hidden.  In every run that makes nothing under a hidden name, no two inodes in use have one
name. -/
theorem nextFreeInodeIndex_exact (sb : Superblock) :
    (Reach fisopfs anyEvent sb → ∀ name, name ≠ [] →
      (NextFreeContract sb name ↔ Unhidden sb name)) ∧
    (Reach fisopfs MakesUnhidden sb → DistinctNames sb) := by
  refine ⟨fun h name hname => ?_, distinctNames_of_reach⟩
  obtain ⟨g, hg⟩ := exists_record h
  exact nextFreeContract_iff (named_of_reach hg).blank hname

end

/-- No inode in use has the name of what is made. -/
def makesFresh (sb : Superblock) : Op → Bool
  | .create path | .mkdir path => (List.range maxInodes).all fun i =>
      sb.inodesStates i = .free ∨ (sb.inodes i).path ≠ lastComponent path
  | _ => true

theorem makesUnhidden_of_makesFresh {sb : Superblock} {op : Op} (h : makesFresh sb op = true) :
    MakesUnhidden sb op := by
  have hnew : ∀ path, (List.range maxInodes).all (fun i =>
      sb.inodesStates i = .free ∨ (sb.inodes i).path ≠ lastComponent path) = true →
        Unhidden sb (lastComponent path) := by
    rintro path hall ⟨i, hi, hname⟩
    rw [List.all_eq_true] at hall
    rcases of_decide_eq_true (hall i (List.mem_range.mpr hi.1)) with hfree | hne
    · rw [hi.2] at hfree
      cases hfree
    · exact absurd hname hne
  cases op with
  | create path => exact hnew path h
  | mkdir path => exact hnew path h
  | write path data offset => trivial
  | truncate path size => trivial
  | unlink path => trivial
  | rmdir path => trivial

/-- Callbacks on the empty file system, none of which makes a name anew, that lead to a state
with a property. -/
theorem exists_state {ops : List Op} {p : Superblock → Bool}
    (h : (ops.foldlM (fun sb op => if makesFresh sb op then next sb op else none)
      buildSuperblock).any p = true) :
    ∃ sb, Reach fisopfs MakesUnhidden sb ∧ p sb = true := by
  have hempty : Reach fisopfs MakesUnhidden buildSuperblock := .init rfl
  refine hempty.exists_of_foldlM (fun sb op _ sb' hnext => ?_) h
  split at hnext
  · rename_i hfresh
    exact ⟨makesUnhidden_of_makesFresh hfresh, step_of_next hnext⟩
  · cases hnext

/-- `/a` and `/b` are made and `/a` is removed. -/
def holeBefore : List Op :=
  [.create [slash, 97#8], .create [slash, 98#8], .unlink [slash, 97#8]]

/-- A new name gets the slot of `/a`, and `b`, which is taken, is not found to be. -/
theorem nextFreeInodeIndex_exact_hole : ∃ sb, sb.Live 2 ∧ (sb.inodes 2).path = [98#8] ∧
    nextFreeInodeIndex sb [99#8] = .ok 1 ∧ NextFreeContract sb [99#8] ∧
    ¬ NextFreeContract sb [98#8] ∧ DistinctNames sb := by
  have hrun : (holeBefore.foldlM (fun sb op => if makesFresh sb op then next sb op else none)
      buildSuperblock).any (fun sb =>
        sb.inodesStates 1 = .free ∧ sb.inodesStates 2 = .occupied ∧
          (sb.inodes 2).path = [98#8] ∧ nextFreeInodeIndex sb [99#8] = .ok 1 ∧
          makesFresh sb (.create [99#8]) ∧ nextFreeInodeIndex sb [98#8] = .ok 1) = true := by
    decide +kernel
  obtain ⟨sb, hreach, hsb⟩ := exists_state hrun
  obtain ⟨hfree, hocc, hname, hnext, hfresh, hagain⟩ := of_decide_eq_true hsb
  have hlive : sb.Live 2 := ⟨by decide, hocc⟩
  have hany : Reach fisopfs anyEvent sb := hreach.mono fun _ _ _ => trivial
  refine ⟨sb, hlive, hname, hnext, ?_, fun hc => ?_, (nextFreeInodeIndex_exact sb).2 hreach⟩
  · exact ((nextFreeInodeIndex_exact sb).1 hany _ (by decide)).mpr
      (makesUnhidden_of_makesFresh hfresh)
  · exact ((hc.ok 1).mp hagain).1 2 hlive hname

/-- The free slot of `/a` hides `/b`, and a second `b` is made. -/
theorem second_name : ¬ ((∀ sb, Reach fisopfs anyEvent sb → ∀ name, name ≠ [] →
      NextFreeContract sb name) ∧ ∀ sb, Reach fisopfs anyEvent sb → DistinctNames sb) := by
  rintro ⟨hcontract, -⟩
  have hrun : (holeBefore.foldlM (fun sb op => if makesFresh sb op then next sb op else none)
      buildSuperblock).any (fun sb =>
        sb.inodesStates 2 = .occupied ∧ (sb.inodes 2).path = [98#8] ∧
          nextFreeInodeIndex sb [98#8] = .ok 1) = true := by
    decide +kernel
  obtain ⟨sb, hreach, hsb⟩ := exists_state hrun
  obtain ⟨hocc, hname, hnext⟩ := of_decide_eq_true hsb
  have hany : Reach fisopfs anyEvent sb := hreach.mono fun _ _ _ => trivial
  exact ((hcontract sb hany [98#8] (by decide)).ok 1).mp hnext |>.1 2 ⟨by decide, hocc⟩ hname

end Fisopfs
end Sisop

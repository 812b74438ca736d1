import Sisop.Fisopfs.Naming

/-!
# Callbacks that fail

Every error leaves the superblock as it was, but for one: `fisopfs_write` creates a missing
file before it compares the offset with its size, which is 0.
-/

namespace Sisop
namespace Fisopfs

open TransitionSystem

/-- An error means that nothing has changed. -/
def FailsClean (sb : Superblock) (r : Reply) : Prop :=
  (∃ e, r.ret = .error e) → r.sb = sb

/-- A write that does not start at the beginning of a file that has to be made, and can be. -/
def LeavesFile (sb : Superblock) : Op → Prop
  | .write path data offset =>
      0 < offset ∧ offset + data.val.length ≤ maxDataSize ∧ getInodeIndex sb path = none ∧
        path ≠ [] ∧ path.length - 1 ≤ maxDataSize ∧
        ∃ i, nextFreeInodeIndex sb (lastComponent path) = .ok i
  | _ => False

/-- The offset of a write is an `off_t` that is not negative. -/
def OffsetOk : Op → Prop
  | .write _ _ offset => 0 ≤ offset ∧ offset < 2 ^ 63
  | _ => True

section

variable {sb sb' : Superblock} {path : List Byte} {i : Nat} {r : Reply}

theorem toSize_eq {x : Int} (hlow : 0 ≤ x) (hhigh : x < 2 ^ 64) : (toSize x : Int) = x := by
  unfold toSize
  omega

/-- A path that passes the tests gets its inode, if its name and its parent have a place. -/
theorem newInode_accepted {type : InodeType} (hne : path ≠ [])
    (hlen : path.length - 1 ≤ maxDataSize)
    (hnext : nextFreeInodeIndex sb (lastComponent path) = .ok i)
    (hnew : newInode sb path type = some r) : r.ret = .ok 0 := by
  have htests : ¬ (path = [] ∨ path.length - 1 > maxDataSize) :=
    not_or.mpr ⟨hne, Nat.not_lt_of_le hlen⟩
  have hname : getFilenameFromPath path = some (lastComponent path) := if_neg hne
  rw [newInode, if_neg htests, hname] at hnew
  dsimp only at hnew
  rw [hnext] at hnew
  dsimp only at hnew
  split at hnew
  · obtain ⟨parent, -, hr⟩ := Option.bind_eq_some_iff.mp hnew
    rw [← Option.some.inj hr]
  · cases hnew

theorem failsClean_of_newInode {type : InodeType} (h : newInode sb path type = some r) :
    FailsClean sb r := by
  rintro ⟨e, he⟩
  rcases newInode_reply h with ⟨e', rfl⟩ | ⟨i, parent, -, -, -, rfl⟩
  · rfl
  · cases he

/-- A new inode is found at its path, if nothing was before. -/
theorem getInodeIndex_created {type : InodeType} {parent : List Byte} (hne : path ≠ [])
    (hnone : getInodeIndex sb path = none)
    (hnext : nextFreeInodeIndex sb (lastComponent path) = .ok i) :
    getInodeIndex
      ((sb.setInode i (Inode.new type (lastComponent path) parent)).setState i .occupied)
      path = some i := by
  have hroot : path ≠ rootPath := by
    rintro rfl
    rw [getInodeIndex_rootPath] at hnone
    cases hnone
  obtain ⟨hi, hfree, -⟩ := nextFreeInodeIndex_ok hnext
  have hbears : Bears ((sb.setInode i (Inode.new type (lastComponent path) parent)).setState i
      .occupied) path i := by
    refine ⟨Superblock.setState_self, ?_⟩
    rw [Superblock.setState_inodes, Superblock.setInode_self]
    rfl
  obtain ⟨j, hj, hfound⟩ := getInodeIndex_of_bears hne hroot hi hbears
  rcases Nat.lt_or_eq_of_le hj with hlt | rfl
  · obtain ⟨hocc, hname⟩ := (getInodeIndex_bears hroot hfound).2
    have hji : j ≠ i := Nat.ne_of_lt hlt
    rw [Superblock.setState_of_ne hji, Superblock.setInode_inodesStates] at hocc
    rw [Superblock.setState_inodes, Superblock.setInode_of_ne hji] at hname
    obtain ⟨k, -, hk⟩ := getInodeIndex_of_bears hne hroot (Nat.lt_trans hlt hi) ⟨hocc, hname⟩
    rw [hnone] at hk
    cases hk
  · exact hfound

/-- A write to a file that is there fails before it changes anything. -/
theorem cleanWrite_found {data : Buffer} {offset : Int} (hfound : getInodeIndex sb path = some i)
    (hr : fisopfsWrite sb path data offset = some r) : FailsClean sb r := by
  rintro ⟨e, he⟩
  have htarget : writeTarget sb path = some (sb, .ok i) := by
    rw [writeTarget, hfound]
  rw [fisopfsWrite] at hr
  by_cases hbig : toSize (offset + data.val.length) > maxDataSize
  · rw [if_pos hbig] at hr
    rw [throw_eq hr]
  · rw [if_neg hbig, htarget, Option.bind_eq_bind, Option.bind_some] at hr
    dsimp only at hr
    by_cases hoff : (sb.inodes i).size < toSize offset
    · rw [if_pos hoff] at hr
      rw [throw_eq hr]
    · rw [if_neg hoff] at hr
      by_cases htype : (sb.inodes i).type ≠ .regular
      · rw [if_pos htype] at hr
        rw [throw_eq hr]
      · rw [if_neg htype] at hr
        cases hr
        cases he

/-- What a write does when there is no file and `new_inode` fails. -/
theorem fisopfsWrite_missing_error {data : Buffer} {offset : Int} {e : Errno}
    (hnone : getInodeIndex sb path = none)
    (hnew : newInode sb path .regular = some ⟨sb, .error e, 0⟩)
    (hr : fisopfsWrite sb path data offset = some r) : FailsClean sb r := by
  rintro -
  have htarget : writeTarget sb path = some (sb, .error e) := by
    rw [writeTarget, hnone, fisopfsCreate, hnew]
    rfl
  rw [fisopfsWrite] at hr
  by_cases hbig : toSize (offset + data.val.length) > maxDataSize
  · rw [if_pos hbig] at hr
    rw [throw_eq hr]
  · rw [if_neg hbig, htarget, Option.bind_eq_bind, Option.bind_some] at hr
    rw [throw_eq hr]

/-- What a write does when there is no file and `new_inode` makes one. -/
theorem fisopfsWrite_missing {data : Buffer} {offset : Int} {parent : List Byte} (hne : path ≠ [])
    (hnone : getInodeIndex sb path = none)
    (hnext : nextFreeInodeIndex sb (lastComponent path) = .ok i)
    (hnew : newInode sb path .regular =
      some ⟨(sb.setInode i (Inode.new .regular (lastComponent path) parent)).setState i .occupied,
        .ok 0, 0⟩)
    (hfits : ¬ toSize (offset + data.val.length) > maxDataSize)
    (hr : fisopfsWrite sb path data offset = some r) :
    if 0 < toSize offset then
      r = ⟨(sb.setInode i (Inode.new .regular (lastComponent path) parent)).setState i .occupied,
        .error .einval, 0⟩
    else ∃ n, r.ret = .ok n := by
  have htarget : writeTarget sb path = some ((sb.setInode i
      (Inode.new .regular (lastComponent path) parent)).setState i .occupied, .ok i) := by
    rw [writeTarget, hnone, fisopfsCreate, hnew]
    simp only [Option.bind_eq_bind, Option.bind_some, getInodeIndex_created hne hnone hnext]
  have hinode : ((sb.setInode i (Inode.new .regular (lastComponent path) parent)).setState i
      .occupied).inodes i = Inode.new .regular (lastComponent path) parent := by
    rw [Superblock.setState_inodes, Superblock.setInode_self]
  rw [fisopfsWrite, if_neg hfits, htarget, Option.bind_eq_bind, Option.bind_some] at hr
  dsimp only at hr
  rw [hinode] at hr
  by_cases hoff : 0 < toSize offset
  · rw [if_pos hoff]
    rw [if_pos
      (show (Inode.new .regular (lastComponent path) parent).size < toSize offset from hoff)] at hr
    exact throw_eq hr
  · rw [if_neg hoff]
    have htype : ¬ (Inode.new .regular (lastComponent path) parent).type ≠ .regular :=
      not_not.mpr rfl
    rw [if_neg (show ¬ (Inode.new .regular (lastComponent path) parent).size < toSize offset
      from hoff), if_neg htype] at hr
    cases hr
    exact ⟨_, rfl⟩

/-- A callback that fails changes nothing, exactly when it is not a write that leaves a new
file behind. -/
theorem reply_failsClean_iff {op : Op} (hoff : OffsetOk op) (hr : op.reply sb = some r) :
    FailsClean sb r ↔ ¬ LeavesFile sb op := by
  cases op with
  | create path =>
      have hnew : newInode sb path .regular = some r := hr
      exact iff_of_true (failsClean_of_newInode hnew) id
  | mkdir path =>
      have hnew : newInode sb path .directory = some r := hr
      exact iff_of_true (failsClean_of_newInode hnew) id
  | truncate path size =>
      refine iff_of_true (fun ⟨e, he⟩ => ?_) id
      rcases truncate_reply hr with ⟨hsb, -⟩ | ⟨i, -, -, ⟨-, rfl⟩ | ⟨-, -, rfl⟩⟩
      · exact hsb
      · cases he
      · cases he
  | unlink path =>
      refine iff_of_true (fun ⟨e, he⟩ => ?_) id
      rcases unlink_reply hr with ⟨e', rfl⟩ | ⟨i, -, -, rfl⟩
      · rfl
      · cases he
  | rmdir path =>
      refine iff_of_true (fun ⟨e, he⟩ => ?_) id
      rcases rmdir_reply hr with ⟨e', rfl⟩ | ⟨i, -, -, -, -, rfl⟩
      · rfl
      · cases he
  | write path data offset =>
      obtain ⟨hlow, hhigh⟩ := hoff
      have hlen := data.property
      have hsum := toSize_eq (x := offset + data.val.length) (by omega) (by omega)
      have hoffset := toSize_eq hlow (by omega)
      cases hfind : getInodeIndex sb path with
      | some i =>
          refine iff_of_true (cleanWrite_found hfind hr) fun hleaves => ?_
          rw [LeavesFile, hfind] at hleaves
          cases hleaves.2.2.1
      | none =>
          have hleaves : LeavesFile sb (.write path data offset) ↔
              0 < offset ∧ offset + data.val.length ≤ maxDataSize ∧ path ≠ [] ∧
                path.length - 1 ≤ maxDataSize ∧
                ∃ i, nextFreeInodeIndex sb (lastComponent path) = .ok i := by
            rw [LeavesFile, hfind]
            exact ⟨fun ⟨h1, h2, _, h3⟩ => ⟨h1, h2, h3⟩, fun ⟨h1, h2, h3⟩ => ⟨h1, h2, rfl, h3⟩⟩
          have hreply : fisopfsWrite sb path data offset = some r := hr
          rw [hleaves]
          by_cases hbig : toSize (offset + data.val.length) > maxDataSize
          · refine iff_of_true (fun _ => ?_) fun h => ?_
            · rw [fisopfsWrite, if_pos hbig] at hreply
              rw [throw_eq hreply]
            · have hle := h.2.1
              omega
          · cases hnew : newInode sb path .regular with
            | none =>
                have htarget : writeTarget sb path = none := by
                  rw [writeTarget, hfind, fisopfsCreate, hnew]
                  rfl
                rw [fisopfsWrite, if_neg hbig, htarget] at hreply
                cases hreply
            | some r' =>
                rcases newInode_reply hnew with ⟨e, rfl⟩ | ⟨i, parent, hne, hnext, -, rfl⟩
                · refine iff_of_true (fisopfsWrite_missing_error hfind hnew hreply) fun h => ?_
                  obtain ⟨-, -, hne, hlen, i, hnext⟩ := h
                  cases newInode_accepted hne hlen hnext hnew
                · have hlen : path.length - 1 ≤ maxDataSize := by
                    by_contra hlong
                    rw [newInode, if_pos (.inr (Nat.lt_of_not_le hlong))] at hnew
                    cases congrArg (Option.map Reply.ret) hnew
                  have hcase := fisopfsWrite_missing hne hfind hnext hnew hbig hreply
                  by_cases hpos : 0 < toSize offset
                  · rw [if_pos hpos] at hcase
                    refine iff_of_false (fun hclean => ?_) fun h =>
                      h ⟨by omega, by omega, hne, hlen, i, hnext⟩
                    have hsame := congrArg (fun sb => sb.inodesStates i)
                      (hclean ⟨.einval, congrArg Reply.ret hcase⟩)
                    rw [hcase] at hsame
                    dsimp only at hsame
                    rw [Superblock.setState_self, (nextFreeInodeIndex_ok hnext).2.1] at hsame
                    cases hsame
                  · rw [if_neg hpos] at hcase
                    obtain ⟨n, hn⟩ := hcase
                    refine iff_of_true (fun ⟨e, he⟩ => ?_) fun h => ?_
                    · rw [hn] at he
                      cases he
                    · have hstart := h.1
                      omega

end

/-- One byte. -/
def oneByte : Buffer := ⟨[120#8], by decide⟩

/-- Making `/a` again and writing behind its end both fail, and leave it as it is. -/
theorem failsClean_again : ∃ sb r r', Reach fisopfs anyEvent sb ∧ sb.inodesStates 1 = .occupied ∧
    ((Op.create [slash, 97#8]).reply sb = some r ∧ r.ret = .error .eexist ∧ r.sb = sb) ∧
    (Op.write [slash, 97#8] oneByte 1).reply sb = some r' ∧ r'.ret = .error .einval ∧
      r'.sb = sb := by
  have hrun : ([Op.create [slash, 97#8]].foldlM
      (fun sb op => if makesFresh sb op then next sb op else none) buildSuperblock).any (fun sb =>
        sb.inodesStates 1 = .occupied ∧ getInodeIndex sb [slash, 97#8] = some 1 ∧
          ((Op.create [slash, 97#8]).reply sb).any (fun r => r.ret = .error .eexist) ∧
          ((Op.write [slash, 97#8] oneByte 1).reply sb).any fun r => r.ret = .error .einval) =
            true := by
    decide +kernel
  obtain ⟨sb, hreach, hsb⟩ := exists_state hrun
  obtain ⟨hocc, hfound, hcreate, hwrite⟩ := of_decide_eq_true hsb
  obtain ⟨r, hr, hret⟩ := (Option.any_eq_true _ _).mp hcreate
  obtain ⟨r', hr', hret'⟩ := (Option.any_eq_true _ _).mp hwrite
  have hret := of_decide_eq_true hret
  have hret' := of_decide_eq_true hret'
  have hfile : ¬ LeavesFile sb (.write [slash, 97#8] oneByte 1) := by
    rw [LeavesFile, hfound]
    rintro ⟨-, -, hnone, -⟩
    cases hnone
  have hcreate : FailsClean sb r ↔ ¬ LeavesFile sb (.create [slash, 97#8]) :=
    reply_failsClean_iff trivial hr
  have hwrite : FailsClean sb r' ↔ ¬ LeavesFile sb (.write [slash, 97#8] oneByte 1) :=
    reply_failsClean_iff ⟨by decide, by decide⟩ hr'
  exact ⟨sb, r, r', hreach.mono fun _ _ _ => trivial, hocc, ⟨hr, hret, hcreate.mpr id ⟨_, hret⟩⟩,
    hr', hret', hwrite.mpr hfile ⟨_, hret'⟩⟩

/-- A write to a file that is not there, from its second byte on: the file is made. -/
theorem write_leaves_file : ¬ ∀ sb op r, Reach fisopfs anyEvent sb → OffsetOk op →
    op.reply sb = some r → FailsClean sb r := by
  intro hclaim
  have hreply : ((Op.write [slash, 97#8] oneByte 1).reply buildSuperblock).any (fun r =>
      r.ret.toOption = none ∧ r.sb.inodesStates 1 = .occupied) = true := by
    decide +kernel
  rw [Option.any_eq_true] at hreply
  obtain ⟨r, hr, hfails⟩ := hreply
  obtain ⟨hret, hocc⟩ := of_decide_eq_true hfails
  have herror : ∃ e, r.ret = .error e := by
    cases hr' : r.ret with
    | error e => exact ⟨e, rfl⟩
    | ok n =>
        rw [hr'] at hret
        cases hret
  have hsame := hclaim buildSuperblock (.write [slash, 97#8] oneByte 1) r (.init rfl)
    ⟨by decide, by decide⟩ hr herror
  rw [hsame] at hocc
  cases hocc

end Fisopfs
end Sisop

import Sisop.Fisopfs.Lookup

/-!
# The strings `new_inode` copies

The length test of `new_inode` compares the path with `MAX_DATA_SIZE`, while the arrays it
copies into have `MAX_PATH_LENGTH` bytes.
-/

namespace Sisop
namespace Fisopfs

/-- How many bytes each string operation of `new_inode` stores, the terminator included: the
file name into `path`, the path without its slash into `parent_path`, where the root's name may
replace it, and the parent into `directory_path`. -/
def stringCopies (path filename : List Byte) : InodeType → List Nat
  | .regular =>
      let parent := getParentPathFromPath path.tail
      (filename.length + 1) :: path.length ::
        if parent = [] then [rootPath.length + 1, rootPath.length + 1] else [parent.length + 1]
  | .directory => [filename.length + 1, rootPath.length + 1]

/-- The copies of one call, which makes none when it fails before. -/
def newInodeCopies (sb : Superblock) (path : List Byte) (type : InodeType) : List Nat :=
  if path = [] ∨ path.length - 1 > maxDataSize then []
  else match getFilenameFromPath path with
    | none => []
    | some filename =>
      match nextFreeInodeIndex sb filename with
      | .error _ => []
      | .ok _ => stringCopies path filename type

/-- The path is refused, or its name is, or it is short enough for the three arrays. -/
def CopiesFit (sb : Superblock) (path : List Byte) (type : InodeType) : Prop :=
  path = [] ∨ path.length - 1 > maxDataSize ∨
    (∃ e, nextFreeInodeIndex sb (lastComponent path) = .error e) ∨
      (lastComponent path).length < maxPathLength ∧
        (type = .regular → path.length ≤ maxPathLength)

variable {sb : Superblock} {path : List Byte} {type : InodeType}

theorem stringCopies_fit_iff : (∀ n ∈ stringCopies path (lastComponent path) type,
    n ≤ maxPathLength) ↔ (lastComponent path).length < maxPathLength ∧
      (type = .regular → path.length ≤ maxPathLength) := by
  have hroot : rootPath.length + 1 ≤ maxPathLength := by decide
  cases type with
  | directory =>
      rw [stringCopies, List.forall_mem_cons]
      refine and_congr Iff.rfl (iff_of_true (fun n hn => ?_) fun h => by cases h)
      rw [List.mem_singleton.mp hn]
      exact hroot
  | regular =>
      have hparent := length_getParentPathFromPath path.tail
      rw [List.length_tail] at hparent
      rw [stringCopies, List.forall_mem_cons, List.forall_mem_cons]
      refine and_congr Iff.rfl ⟨fun h _ => h.1, fun h => ⟨h rfl, fun n hn => ?_⟩⟩
      have hpath := h rfl
      split at hn
      · rcases List.mem_cons.mp hn with rfl | hn
        · exact hroot
        · rw [List.mem_singleton.mp hn]
          exact hroot
      · rw [List.mem_singleton.mp hn]
        rw [maxPathLength] at *
        omega

theorem newInodeCopies_eq (htests : ¬ (path = [] ∨ path.length - 1 > maxDataSize)) :
    newInodeCopies sb path type = match nextFreeInodeIndex sb (lastComponent path) with
      | .error _ => []
      | .ok _ => stringCopies path (lastComponent path) type := by
  have hname : getFilenameFromPath path = some (lastComponent path) :=
    if_neg (not_or.mp htests).1
  unfold newInodeCopies
  rw [if_neg htests, hname]

/-- Every copy fits in its array exactly under `CopiesFit`. -/
theorem newInodeCopies_fit_iff (sb : Superblock) (path : List Byte) (type : InodeType) :
    (∀ n ∈ newInodeCopies sb path type, n ≤ maxPathLength) ↔ CopiesFit sb path type := by
  by_cases htests : path = [] ∨ path.length - 1 > maxDataSize
  · have hfit : CopiesFit sb path type := by
      rcases htests with hnil | hlong
      · exact .inl hnil
      · exact .inr (.inl hlong)
    have hnone : newInodeCopies sb path type = [] := if_pos htests
    refine iff_of_true (fun n hn => ?_) hfit
    rw [hnone] at hn
    cases hn
  · obtain ⟨hne, hlen⟩ := not_or.mp htests
    have hfit : CopiesFit sb path type ↔
        (∃ e, nextFreeInodeIndex sb (lastComponent path) = .error e) ∨
          (lastComponent path).length < maxPathLength ∧
            (type = .regular → path.length ≤ maxPathLength) :=
      ⟨fun h => (h.resolve_left hne).resolve_left hlen, fun h => .inr (.inr h)⟩
    rw [hfit, newInodeCopies_eq htests, ← stringCopies_fit_iff]
    cases nextFreeInodeIndex sb (lastComponent path) with
    | error e => exact iff_of_true (fun n hn => by cases hn) (.inl ⟨e, rfl⟩)
    | ok i =>
        have hno : ¬ ∃ e, (Except.ok i : Except Errno Nat) = .error e := fun ⟨e, he⟩ => by cases he
        rw [or_iff_right hno]

/-- `new_inode` has a reply exactly where its copies fit. -/
theorem newInode_ne_none_iff : newInode sb path type ≠ none ↔ CopiesFit sb path type := by
  unfold newInode CopiesFit
  by_cases htests : path = [] ∨ path.length - 1 > maxDataSize
  · rw [if_pos htests]
    refine iff_of_true (Option.some_ne_none _) ?_
    rcases htests with hnil | hlong
    · exact .inl hnil
    · exact .inr (.inl hlong)
  obtain ⟨hne, hlen⟩ := not_or.mp htests
  have hname : getFilenameFromPath path = some (lastComponent path) := if_neg hne
  rw [if_neg htests, hname, or_iff_right hne, or_iff_right hlen]
  dsimp only
  cases nextFreeInodeIndex sb (lastComponent path) with
  | error e => exact iff_of_true (Option.some_ne_none _) (.inl ⟨e, rfl⟩)
  | ok i =>
      have hno : ¬ ∃ e, (Except.ok i : Except Errno Nat) = .error e := fun ⟨e, he⟩ => by cases he
      rw [or_iff_right hno]
      dsimp only
      by_cases hfits : (lastComponent path).length < maxPathLength
      · rw [if_pos hfits]
        cases type with
        | directory => exact iff_of_true (Option.some_ne_none _) ⟨hfits, fun h => by cases h⟩
        | regular =>
            rw [parentPath]
            by_cases hpath : path.length - 1 < maxPathLength
            · rw [if_pos hpath]
              exact iff_of_true (Option.some_ne_none _) ⟨hfits, fun _ => by omega⟩
            · rw [if_neg hpath]
              refine iff_of_false (fun h => h rfl) fun h => hpath ?_
              have hle := h.2 rfl
              have hpos := List.length_pos_iff.mpr hne
              omega
      · rw [if_neg hfits]
        exact iff_of_false (fun h => h rfl) fun h => hfits h.1

/-- Where a directory has no place, a file has none. -/
theorem newInode_regular_none (h : newInode sb path .directory = none) :
    newInode sb path .regular = none := by
  by_contra hne
  have hdir : CopiesFit sb path .directory := by
    rcases newInode_ne_none_iff.mp hne with hnil | hlong | herror | ⟨hname, -⟩
    · exact .inl hnil
    · exact .inr (.inl hlong)
    · exact .inr (.inr (.inl herror))
    · exact .inr (.inr (.inr ⟨hname, fun h => by cases h⟩))
  exact newInode_ne_none_iff.mpr hdir h

/-- A file of a short name in a directory of a name that is not longer than 255 bytes. -/
def longPath : List Byte := slash :: List.replicate 255 97#8 ++ [slash, 98#8]

/-- The path has 258 bytes, and `parent_path` holds 256. -/
theorem parentPath_overflows : ¬ ∀ sb path type, path ≠ [] → ¬ path.length - 1 > maxDataSize →
    ∀ n ∈ newInodeCopies sb path type, n ≤ maxPathLength := by
  intro hclaim
  have hcopies : newInodeCopies buildSuperblock longPath .regular = [2, 258, 256] := by
    decide +kernel
  have hle := hclaim buildSuperblock longPath .regular (by decide) (by decide +kernel) 258
  rw [hcopies] at hle
  exact absurd (hle (by decide)) (by decide)

end Fisopfs
end Sisop

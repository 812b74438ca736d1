import Sisop.Fisopfs.Truncating
import Sisop.Fisopfs.Store

/-!
# Files without remains

No byte behind the text of a file comes back as long as what is written has no zeros and is put
in the text or at its end.
-/

namespace Sisop
namespace Fisopfs

open CString

/-- The file ends behind its text, with zeros there and up to the end of `content`. -/
structure Clean (inode : Inode) : Prop where
  len_lt : inode.contentLen < maxDataSize
  len_le : inode.contentLen ≤ inode.size
  size_le : inode.size ≤ maxDataSize
  zeros : ∀ k, inode.contentLen ≤ k → k < maxDataSize → inode.content k = 0

section

variable {inode : Inode} {n o k : Nat} {d : List Byte}

theorem Clean.of_zeros (inode : Inode) (h : ∀ k, k < maxDataSize → inode.content k = 0)
    (hsize : inode.size ≤ maxDataSize) : Clean inode ∧ inode.contentLen = 0 := by
  have hlen : inode.contentLen = 0 := Nat.le_zero.mp (strlen_le_of_zero (h 0 (by decide)))
  exact ⟨⟨by rw [hlen]; decide, by omega, hsize, fun k _ hk => h k hk⟩, hlen⟩

theorem Clean.nonzero (hk : k < inode.contentLen) : inode.content k ≠ 0 := by
  have hne : inode.content (0 + k) ≠ 0 := ne_zero_of_lt_strlen hk
  rwa [Nat.zero_add] at hne

theorem length_text : inode.node.text.length = inode.contentLen := length_memread

theorem getElem_text (hk : k < inode.node.text.length) : inode.node.text[k] = inode.content k := by
  simp only [Inode.node, memread, List.getElem_map, List.getElem_range, Nat.zero_add]

/-! ## Edits of a file -/

/-- The string of a file that was written in or at the end of its text. -/
theorem Clean.contentLen_memcpy (h : Clean inode) (hd : 0#8 ∉ d) (ho : o ≤ inode.contentLen)
    (hfits : o + d.length < maxDataSize) :
    strlen (memcpy inode.content o d) 0 contentEnd = max inode.contentLen (o + d.length) := by
  have hmax : maxDataSize < contentEnd := by decide
  have hlt := h.len_lt
  refine (strlen_eq_iff (by omega)).mpr ⟨?_, fun k hk hz => ?_⟩
  · rw [Nat.zero_add, memcpy_above (Nat.le_max_right _ _)]
    exact h.zeros _ (Nat.le_max_left _ _) (by omega)
  · rw [Nat.zero_add] at hz
    by_cases hin : o ≤ k ∧ k < o + d.length
    · have hmem := memcpy_mem (m := inode.content) hin.1 hin.2
      rw [hz] at hmem
      exact hd hmem
    · rw [memcpy_outside (by omega)] at hz
      exact Clean.nonzero (by omega) hz

theorem Clean.write (h : Clean inode) (hstored : Stored inode) (hd : 0#8 ∉ d)
    (ho : o ≤ inode.contentLen) (hfits : o + d.length < maxDataSize) :
    Clean (inode.write d o) ∧ (inode.write d o).node = inode.node.write d o := by
  have hlen := h.contentLen_memcpy hd ho hfits
  have hlt := h.len_lt
  have hmax : maxDataSize < contentEnd := by decide
  have hsize : (inode.write d o).size = max inode.contentLen (o + d.length) := hlen
  have hcontentLen : (inode.write d o).contentLen = max inode.contentLen (o + d.length) :=
    (write_contentLen (by omega)).trans hsize
  refine ⟨⟨by omega, by omega, by omega, fun k hk hk' => ?_⟩, ?_⟩
  · show memset0 (memcpy inode.content o d) _ _ k = 0
    refine memset0_zero ?_
    rw [memcpy_above (by omega)]
    exact h.zeros k (by omega) hk'
  have htext : (inode.write d o).node.text =
      inode.node.text.take o ++ d ++ inode.node.text.drop (o + d.length) := by
    rw [List.append_assoc]
    refine List.ext_getElem ?_ fun k hk hk' => ?_
    · rw [length_text, hcontentLen, List.length_append, List.length_append, List.length_take,
        List.length_drop, length_text]
      omega
    · rw [length_text, hcontentLen] at hk
      rw [getElem_text, write_content (by omega)]
      by_cases hbefore : k < o
      · rw [memcpy_below hbefore, List.getElem_append_left (by
          rw [List.length_take, length_text]
          omega), List.getElem_take, getElem_text]
      have htake : (inode.node.text.take o).length = o := by
        rw [List.length_take, length_text]
        omega
      rw [List.getElem_append_right (by omega)]
      by_cases hin : k < o + d.length
      · rw [List.getElem_append_left (by omega)]
        have hcopy := memcpy_inside (m := inode.content) (p := o) (d := d) (k := k - o) (by omega)
        rw [show o + (k - o) = k by omega] at hcopy
        rw [hcopy]
        simp only [htake]
      · rw [List.getElem_append_right (by omega), memcpy_above (by omega), List.getElem_drop,
          getElem_text]
        exact congrArg inode.content (by omega)
  have hparent := directoryPath_write hstored (d := d) (o := o) (Nat.le_of_lt hfits)
  show Node.mk _ _ _ _ = Node.mk _ _ _ _
  rw [Node.mk.injEq]
  refine ⟨rfl, hparent, htext, ?_⟩
  rw [← htext, length_text, hcontentLen, hsize]

theorem Clean.clear (inode : Inode) :
    Clean inode.clear ∧ inode.clear.node = inode.node.truncate 0 := by
  obtain ⟨hclean, hlen⟩ := Clean.of_zeros inode.clear (fun k hk => by
    rw [Inode.clear_content, memset0, if_pos ⟨Nat.zero_le k, hk⟩]) (Nat.zero_le _)
  refine ⟨hclean, ?_⟩
  show Node.mk _ _ _ _ = Node.mk _ _ _ _
  rw [Node.mk.injEq]
  refine ⟨rfl, directoryPath_clear, ?_, rfl⟩
  rw [List.take_zero, ← List.length_eq_zero_iff]
  exact length_memread.trans hlen

theorem Clean.truncate (h : Clean inode) (hn : n ≤ maxDataSize) :
    Clean (inode.truncate n) ∧ (inode.truncate n).node = inode.node.truncate n := by
  have hlen : (inode.truncate n).contentLen = min n inode.contentLen := truncate_contentLen hn
  have hlt := h.len_lt
  have hsize : (inode.truncate n).size = n := rfl
  refine ⟨⟨by omega, by omega, by omega, fun k hk hk' => ?_⟩, ?_⟩
  · rw [truncate_content]
    split
    · rfl
    · exact h.zeros k (by omega) hk'
  have hparent : (inode.truncate n).directoryPath = inode.directoryPath :=
    directoryPath_congr fun k hk => truncate_same (by omega)
  have htext : (inode.truncate n).node.text = inode.node.text.take n := by
    refine List.ext_getElem ?_ fun k hk hk' => ?_
    · rw [length_text, hlen, List.length_take, length_text]
    · rw [length_text, hlen] at hk
      rw [getElem_text, List.getElem_take, getElem_text, truncate_same (by omega)]
  show Node.mk _ _ _ _ = Node.mk _ _ _ _
  rw [Node.mk.injEq]
  exact ⟨rfl, hparent, htext, rfl⟩

theorem Clean.new (type : InodeType) (name : List Byte) {parent : List Byte}
    (hlen : parent.length < maxPathLength)
    (hzero : 0#8 ∉ parent) : Clean (Inode.new type name parent) ∧
      (Inode.new type name parent).node = Node.new type parent := by
  obtain ⟨hclean, htext⟩ := Clean.of_zeros (Inode.new type name parent) (fun k hk => by
    rw [Inode.new_content, memcpy_below hk]) (Nat.zero_le _)
  refine ⟨hclean, ?_⟩
  show Node.mk _ _ _ _ = Node.mk _ _ _ _
  rw [Node.mk.injEq]
  refine ⟨rfl, directoryPath_new hlen hzero, ?_, rfl⟩
  rw [← List.length_eq_zero_iff]
  exact length_memread.trans htext

theorem Clean.zero : Clean Inode.zero := (Clean.of_zeros _ (fun _ _ => rfl) (Nat.zero_le _)).1

/-- The bytes of a file are those of `content` up to its size. -/
theorem Clean.bytes (h : Clean inode) : inode.node.bytes = memread inode.content 0 inode.size := by
  have hle := h.len_le
  have hsize := h.size_le
  unfold Node.bytes
  refine List.ext_getElem ?_ fun k hk hk' => ?_
  · rw [List.length_append, length_text, List.length_replicate, length_memread]
    show inode.contentLen + (inode.size - inode.contentLen) = inode.size
    omega
  · rw [length_memread] at hk'
    simp only [memread, List.getElem_map, List.getElem_range, Nat.zero_add]
    by_cases hin : k < inode.node.text.length
    · rw [List.getElem_append_left hin, getElem_text]
    · rw [List.getElem_append_right (by omega), List.getElem_replicate]
      rw [length_text] at hin
      exact (h.zeros k (by omega) (by omega)).symm

theorem Clean.cut {n : Nat} (h : Clean inode) (hstored : Stored inode) (hn : n ≤ maxDataSize) :
    Clean (inode.cut n) ∧ (inode.cut n).node = inode.node.truncate n ∧ Stored (inode.cut n) := by
  unfold Inode.cut
  split
  · rename_i h0
    obtain ⟨hclean, hnode⟩ := Clean.clear inode
    exact ⟨hclean, h0 ▸ hnode, hstored.clear⟩
  · obtain ⟨hclean, hnode⟩ := h.truncate hn
    exact ⟨hclean, hnode, hstored.truncate hn⟩

theorem take_drop_memread {m : Nat → Byte} {n size : Nat} :
    ((memread m 0 size).drop o).take n = memread m o (min n (size - o)) := by
  refine List.ext_getElem ?_ fun k hk hk' => ?_
  · rw [List.length_take, List.length_drop, length_memread, length_memread]
  · rw [List.getElem_take, List.getElem_drop]
    simp only [memread, List.getElem_map, List.getElem_range, Nat.zero_add]

end

end Fisopfs
end Sisop

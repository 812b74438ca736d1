import Mathlib.Data.BitVec
import Sisop.Jos.Printf
import Sisop.Jos.PageFault
import Sisop.Jos.Solo

/-!
# `sys_cputs`

`sys_cputs` checks `[s, s+len)` and then prints with `"%.*s"`.  The loop of `%s` reads a
byte before it looks at the precision, so a string without a zero is read one byte past
its end, and a length with the sign bit set is no bound at all.  The check also asks for
`PTE_W`, which printing does not need.
-/

namespace Sisop
namespace Jos

open Exit TransitionSystem

/-- A load by the kernel under page directory `d`: below `UTOP` through the page tables, and
from there up, where the kernel has its own mappings, `kern`. -/
def kernelLoad (m : PMap) (d : Nat) (kern : Word → Option (BitVec 8)) (va : Word) :
    Option (BitVec 8) :=
  if va < utop then (translate m d pteP va).map fun page => m.byte page (va.toNat % pgsize)
  else kern va

/-- The permission `sys_cputs` passes to `user_mem_assert`. -/
def cputsPerm : Word := pteP ||| pteW ||| pteU

/-! ## What the formatter reads -/

/-- Once the check passes, the formatter reads no user address outside the range, and no
read faults. -/
def ReadsChecked (M : Machine) (m : PMap) (d : Nat) (kern : Word → Option (BitVec 8))
    (s len : Word) : Prop :=
  userMemCheck M m (some d) s len (cputsPerm ||| pteU) = .ok none →
    ∀ st va, Formats (kernelLoad m d kern) (cprintf "%.*s" [len, s]) st →
      st.job.reads = some va →
      kernelLoad m d kern va ≠ none ∧
        (va < ulim → s.toNat ≤ va.toNat ∧ va.toNat < s.toNat + len.toNat)

/-- The reads of a string at `s` end before the top of memory: at a zero inside the range, or,
for a range that reaches into the last page of memory, at any zero or at the precision. -/
def ReadsEnd (load : Word → Option (BitVec 8)) (s len : Word) : Prop :=
  ∃ k, s.toNat + k < 2 ^ 32 ∧ (∀ j, j ≤ k → load (s + BitVec.ofNat 32 j) ≠ none) ∧
    ((k < len.toNat ∧ load (s + BitVec.ofNat 32 k) = some 0#8) ∨
      (2 ^ 32 - 4096 < s.toNat + len.toNat ∧
        (load (s + BitVec.ofNat 32 k) = some 0#8 ∨ (k = len.toNat ∧ len.toNat < 2 ^ 31))))

section

variable {M : Machine} {m : PMap} {d : Nat} {kern load : Word → Option (BitVec 8)} {s len : Word}

theorem lets_iff (k : Nat) : Lets len k ↔ 2 ^ 31 ≤ len.toNat ∨ k < len.toNat := by
  have hlt := len.isLt
  unfold Lets
  rw [BitVec.toInt_eq_toNat_cond]
  split <;> omega

theorem strByte_of_ne (hs : s ≠ 0#32) (k : Nat) :
    strByte load s k = load (s + BitVec.ofNat 32 k) := if_neg hs

theorem toNat_index {k : Nat} (hk : s.toNat + k < 2 ^ 32) :
    (s + BitVec.ofNat 32 k).toNat = s.toNat + k := by
  rw [BitVec.toNat_add, BitVec.toNat_ofNat]
  omega

/-- The reads of the formatter are those of the bytes the loop gets to. -/
theorem reads_iff (hs : s ≠ 0#32) (va : Word) :
    (∃ st, Formats load (cprintf "%.*s" [len, s]) st ∧ st.job.reads = some va) ↔
      ∃ k, GetsTo load s len k ∧ va = s + BitVec.ofNat 32 k := by
  constructor
  · rintro ⟨st, hst, hreads⟩
    cases formats_cputs_iff.mp hst with
    | start => cases hreads
    | byte k hk =>
        refine ⟨k, hk, ?_⟩
        have hread : (if s = 0#32 then none else some (s + BitVec.ofNat 32 k)) = some va := hreads
        rw [if_neg hs] at hread
        exact (Option.some.inj hread).symm
    | finished k hk ch hch hstop => cases hreads
  · rintro ⟨k, hk, rfl⟩
    exact ⟨_, formats_cputs_iff.mpr (.byte k hk), if_neg hs⟩

/-- Reads that end at the `k`-th byte go no further. -/
theorem GetsTo.le_of_stop {k n : Nat} (hs : s ≠ 0#32)
    (hstop : load (s + BitVec.ofNat 32 n) = some 0#8 ∨ ¬ Lets len n)
    (hk : GetsTo load s len k) : k ≤ n := by
  by_contra hlt
  obtain ⟨hlets, ch, hch, hne⟩ := hk n (by omega)
  rcases hstop with hz | hno
  · rw [strByte_of_ne hs, hz] at hch
    exact hne (Option.some.inj hch).symm
  · exact hno hlets

theorem ReadsEnd.checked (hs : s ≠ 0#32) (h : ReadsEnd load s len) {k : Nat}
    (hk : GetsTo load s len k) : load (s + BitVec.ofNat 32 k) ≠ none ∧
      (s + BitVec.ofNat 32 k < ulim → s.toNat ≤ (s + BitVec.ofNat 32 k).toNat ∧
        (s + BitVec.ofNat 32 k).toNat < s.toNat + len.toNat) := by
  obtain ⟨n, hn, hload, hend⟩ := h
  have hstop : load (s + BitVec.ofNat 32 n) = some 0#8 ∨ ¬ Lets len n := by
    rcases hend with ⟨_, hz⟩ | ⟨_, hz | ⟨hlen, hpos⟩⟩
    · exact .inl hz
    · exact .inl hz
    · refine .inr fun hl => ?_
      have := (lets_iff n).mp hl
      omega
  have hkn := hk.le_of_stop hs hstop
  refine ⟨hload k hkn, fun hlt => ?_⟩
  have hulim : ulim.toNat = 4018143232 := rfl
  rw [BitVec.lt_def, toNat_index (by omega)] at hlt
  rw [toNat_index (by omega)]
  refine ⟨Nat.le_add_right _ _, ?_⟩
  rcases hend with ⟨hin, _⟩ | ⟨htop, _⟩
  · omega
  · omega

/-- A check that passes over a range that ends above `UTOP` has wrapped. -/
theorem wraps_of_passes {perm : Word} (hpass : userMemCheck M m (some d) s len perm = .ok none)
    (htop : ulim.toNat ≤ s.toNat + len.toNat) : 2 ^ 32 - 4096 < s.toNat + len.toNat := by
  have hle : ¬ utop < roundup (s + len) := by
    intro hlt
    unfold userMemCheck at hpass
    dsimp only at hpass
    rw [if_pos hlt] at hpass
    cases hpass
  have hulim : ulim.toNat = 4018143232 := rfl
  have hutop : utop.toNat = 4005560320 := rfl
  have hsum := toNat_sum s len
  have hround := toNat_roundup (s + len)
  rw [BitVec.not_lt, BitVec.le_def] at hle
  split at hround <;> omega

/-- Where every read is in order, the reads end. -/
theorem readsEnd_of_checked (hs : s ≠ 0#32) {perm : Word}
    (hpass : userMemCheck M m (some d) s len perm = .ok none)
    (hall : ∀ k, GetsTo load s len k → load (s + BitVec.ofNat 32 k) ≠ none ∧
      (s + BitVec.ofNat 32 k < ulim → s.toNat ≤ (s + BitVec.ofNat 32 k).toNat ∧
        (s + BitVec.ofNat 32 k).toNat < s.toNat + len.toNat)) : ReadsEnd load s len := by
  have hs0 : 0 < s.toNat := by
    rw [ne_eq, eq_zero_iff_toNat] at hs
    omega
  have hslt := s.isLt
  -- The read behind the last address would be of address 0.
  have htop : ∀ k, GetsTo load s len k → s.toNat + k < 2 ^ 32 := by
    intro k hk
    by_contra hle
    have hzero := (hall _ (hk.mono (show 2 ^ 32 - s.toNat ≤ k by omega))).2
    have hnat : (s + BitVec.ofNat 32 (2 ^ 32 - s.toNat)).toNat = 0 := by
      rw [BitVec.toNat_add, BitVec.toNat_ofNat]
      omega
    have hlow := (hzero (by rw [BitVec.lt_def, hnat]; decide)).1
    omega
  obtain ⟨n, hn, hlast⟩ : ∃ n, GetsTo load s len n ∧ ¬ GetsTo load s len (n + 1) := by
    by_contra hnone
    have hgo : ∀ n, GetsTo load s len n := by
      intro n
      induction n with
      | zero => exact fun j hj => absurd hj (Nat.not_lt_zero j)
      | succ n ih => exact by_contra fun hno => hnone ⟨n, ih, hno⟩
    have := htop (2 ^ 32) (hgo _)
    omega
  have hnlt := htop n hn
  have hload : ∀ j, j ≤ n → load (s + BitVec.ofNat 32 j) ≠ none :=
    fun j hj => (hall j (hn.mono hj)).1
  -- Past the end of the range, the address is above `ULIM`.
  have hbeyond : len.toNat ≤ n → 2 ^ 32 - 4096 < s.toNat + len.toNat := by
    intro hle
    refine wraps_of_passes hpass ?_
    by_contra hlow
    have hin := (hall len.toNat (hn.mono hle)).2
    rw [BitVec.lt_def, toNat_index (by omega)] at hin
    have := hin (by omega)
    omega
  refine ⟨n, hnlt, hload, ?_⟩
  obtain ⟨ch, hch⟩ := Option.ne_none_iff_exists'.mp (hload n (Nat.le_refl n))
  by_cases hz : ch = 0#8
  · rw [hz] at hch
    by_cases hin : n < len.toNat
    · exact .inl ⟨hin, hch⟩
    · exact .inr ⟨hbeyond (by omega), .inl hch⟩
  · have hno : ¬ Lets len n := by
      intro hlets
      refine hlast fun j hj => ?_
      by_cases hjn : j < n
      · exact hn j hjn
      · obtain rfl : j = n := by omega
        exact ⟨hlets, ch, (strByte_of_ne hs j).trans hch, hz⟩
    rw [lets_iff] at hno
    have hlen : n = len.toNat := by
      cases n with
      | zero => omega
      | succ n =>
          have hprev := (lets_iff n).mp (hn n (Nat.lt_succ_self n)).1
          omega
    exact .inr ⟨hbeyond (by omega), .inr ⟨hlen, by omega⟩⟩

end

/-- The formatter keeps to the checked range exactly when the check fails, the string is the
null pointer, or the reads end in time. -/
theorem readsChecked_iff (M : Machine) (m : PMap) (d : Nat) (kern : Word → Option (BitVec 8))
    (s len : Word) : ReadsChecked M m d kern s len ↔
      userMemCheck M m (some d) s len (cputsPerm ||| pteU) ≠ .ok none ∨ s = 0#32 ∨
        ReadsEnd (kernelLoad m d kern) s len := by
  by_cases hpass : userMemCheck M m (some d) s len (cputsPerm ||| pteU) = .ok none
  · by_cases hs : s = 0#32
    · refine iff_of_true (fun _ st va hst hreads => ?_) (.inr (.inl hs))
      rw [hs] at hst
      cases formats_cputs_iff.mp hst with
      | start => cases hreads
      | byte k hk => cases hreads
      | finished k hk ch hch hstop => cases hreads
    · constructor
      · intro h
        refine .inr (.inr (readsEnd_of_checked hs hpass fun k hk => ?_))
        obtain ⟨st, hst, hreads⟩ := (reads_iff hs _).mpr ⟨k, hk, rfl⟩
        exact h hpass st _ hst hreads
      · rintro (hno | h0 | hend) _ st va hst hreads
        · exact absurd hpass hno
        · exact absurd h0 hs
        · obtain ⟨k, hk, rfl⟩ := (reads_iff hs va).mp ⟨st, hst, hreads⟩
          exact hend.checked hs hk
  · exact iff_of_true (fun h => absurd h hpass) (.inl hpass)

/-- A string of one byte at the very end of the stack: the formatter reads the byte behind
it, where nothing is mapped. -/
theorem cputs_past_end : ¬ ∀ st e d kern s len,
    (kernel (pc .roundRobin) lowPages).Reach anyEvent st → (st.envs e).envPgdir = some d →
    ReadsChecked (pc .roundRobin) st.pm d kern s len := by
  intro hall
  have hrun : (run (pc .roundRobin) [.create emptyImage, .start 0,
      .store 0 0xeebfdfff#32 0x41#8] pcBoot).any (fun st =>
      (st.envs 0).envPgdir = some 0x7FFF ∧
        userMemCheck (pc .roundRobin) st.pm (some 0x7FFF) 0xeebfdfff#32 1#32
          (cputsPerm ||| pteU) = .ok none ∧
        kernelLoad st.pm 0x7FFF (fun _ => none) 0xeebfdfff#32 = some 0x41#8 ∧
        kernelLoad st.pm 0x7FFF (fun _ => none) 0xeebfe000#32 = none) = true := by
    decide
  obtain ⟨st, hreach, hs⟩ := reach_of_any (pcBoot_booted .roundRobin) hrun
  rw [decide_eq_true_eq] at hs
  obtain ⟨hd, hpass, hbyte, hnone⟩ := hs
  have hgets : GetsTo (kernelLoad st.pm 0x7FFF fun _ => none) 0xeebfdfff#32 1#32 1 := by
    intro j hj
    obtain rfl : j = 0 := by omega
    exact ⟨.inr (by decide), 0x41#8, hbyte, by decide⟩
  obtain ⟨x, hx, hreads⟩ := (reads_iff (by decide) _).mpr ⟨1, hgets, rfl⟩
  exact (hall st 0 0x7FFF _ _ _ hreach hd hpass x _ hx hreads).1 hnone

/-! ## What the call does -/

/-- The memory of the program, byte by byte. -/
def userByte (m : PMap) (d : Nat) (kern : Word → Option (BitVec 8)) (i : Nat) : BitVec 8 :=
  (kernelLoad m d kern (BitVec.ofNat 32 i)).getD 0#8

/-- The call destroys the caller, as `user_mem_assert` does. -/
structure CallerDestroyed (M : Machine) (s : KState) (c cur : Nat)
    (x : Except Stop (Int × KState)) : Prop where
  runs : x = envDestroy M s c cur >>= fun s' => pure (0, s')
  gone : envDestroy M s c cur = .error .monitor ∨
    ∃ s', envDestroy M s c cur = .error (.left s') ∧ (s'.envs cur).envStatus = .free

/-- Some byte of the range cannot be read by the program. -/
def Unreadable (m : PMap) (d : Nat) (a len : Word) : Prop :=
  ∃ x, a.toNat ≤ x ∧ x < a.toNat + len.toNat ∧ ¬ Allowed m d pteU x

/-- What the comment of `sys_cputs` promises of one call. -/
structure CputsContract (M : Machine) (s : KState) (kern : Word → Option (BitVec 8))
    (c cur : Nat) (a len : Word) : Prop where
  destroys : Unreadable s.pm (s.cpus c).cr3 a len →
    CallerDestroyed M s c cur (sysCputs M s c cur a len)
  prints : ¬ Unreadable s.pm (s.cpus c).cr3 a len →
    sysCputs M s c cur a len = .ok (0, s) ∧
      Prints (kernelLoad s.pm (s.cpus c).cr3 kern) (cprintf "%.*s" [len, a])
        (CString.strAt (userByte s.pm (s.cpus c).cr3 kern) a.toNat len.toNat)

/-- The string is printed as it is: it is the one printed for a null pointer, it ends at a
zero, or the precision ends it and the byte behind it can be read. -/
def StringEnds (load : Word → Option (BitVec 8)) (bytes : Nat → BitVec 8) (a len : Word) : Prop :=
  if a = 0#32 then
    CString.strAt bytes 0 len.toNat = nullString.take (if len.toNat < 2 ^ 31 then len.toNat else 6)
  else
    (∃ k, k ≤ len.toNat ∧ load (a + BitVec.ofNat 32 k) = some 0#8) ∨
      (len.toNat < 2 ^ 31 ∧ load (a + BitVec.ofNat 32 len.toNat) ≠ none)

/-- The program can write every page `user_mem_check` looks at, and the string is printed as
it is. -/
structure CputsFits (m : PMap) (d : Nat) (kern : Word → Option (BitVec 8)) (a len : Word) :
    Prop where
  writable : ∀ x, (rounddown a).toNat ≤ x → x < (roundup (a + len)).toNat →
    Allowed m d cputsPerm x
  ends : StringEnds (kernelLoad m d kern) (userByte m d kern) a len

section

variable {M : Machine} {K : Nat → Prop} {m : PMap} {dirs : Nat → Option Nat} {free : List Nat}
  {held : Nat → Nat} {s : KState} {c cur e d : Nat} {kern load : Word → Option (BitVec 8)}
  {bytes : Nat → BitVec 8} {a len : Word} {out : List (BitVec 8)}

/-- A byte that may be written may be read. -/
theorem Allowed.read {x : Nat} (h : Allowed m d cputsPerm x) : Allowed m d pteU x := by
  refine ⟨h.1, ?_⟩
  rw [show pteU ||| pteP = (cputsPerm ||| pteP) &&& (pteU ||| pteP) by decide, ← BitVec.and_assoc,
    h.2]

/-- What the program can read, the kernel can. -/
theorem PageInv.kernelLoad_of_allowed (h : PageInv M K m dirs free held) (hd : dirs e = some d)
    {x : Nat} (hx : x < utop.toNat) (hall : Allowed m d pteU x) :
    kernelLoad m d kern (BitVec.ofNat 32 x) ≠ none := by
  have hutop : utop.toNat = 4005560320 := rfl
  have hlt : BitVec.ofNat 32 x < utop := by
    rw [BitVec.lt_def, BitVec.toNat_ofNat]
    omega
  have hi := (pdx_lt_pdxUtop_iff _).mpr hlt
  have hpte := hall.2
  rw [h.pteAt_eq hd hi] at hpte
  have hpres : pteWord m dirs e (pdx (BitVec.ofNat 32 x)) (ptx (BitVec.ofNat 32 x)) &&& pteP =
      pteP := by
    rw [show pteP = (pteU ||| pteP) &&& pteP by decide, ← BitVec.and_assoc, hpte]
  unfold kernelLoad
  rw [if_pos hlt, h.translate_eq hd hi (by decide) (by decide), if_pos hpres]
  exact Option.some_ne_none _

/-! ### The string -/

theorem ofNat_index (a : Word) (k : Nat) :
    BitVec.ofNat 32 (a.toNat + k) = a + BitVec.ofNat 32 k := by
  rw [BitVec.ofNat_add, BitVec.ofNat_toNat, BitVec.setWidth_eq]

/-- The bytes in front of the `k`-th are those of the memory. -/
theorem firstBytes_eq (ha : a ≠ 0#32) (hbytes : ∀ i, bytes i = (load (BitVec.ofNat 32 i)).getD 0#8)
    (k : Nat) : firstBytes load a k = CString.memread bytes a.toNat k := by
  refine List.map_congr_left fun i _ => ?_
  show (strByte load a (0 + i)).getD 0#8 = bytes (a.toNat + i)
  rw [hbytes, ofNat_index, strByte_of_ne ha, Nat.zero_add]

/-- A string that can be read is printed exactly when it ends. -/
theorem prints_string_iff (ha : a ≠ 0#32)
    (hbytes : ∀ i, bytes i = (load (BitVec.ofNat 32 i)).getD 0#8)
    (hload : ∀ i, i < len.toNat → load (a + BitVec.ofNat 32 i) ≠ none) :
    Prints load (cprintf "%.*s" [len, a]) (CString.strAt bytes a.toNat len.toNat) ↔
      StringEnds load bytes a len := by
  have hbyte : ∀ i, bytes (a.toNat + i) = (load (a + BitVec.ofNat 32 i)).getD 0#8 := by
    intro i
    rw [hbytes, ofNat_index]
  have hle : CString.strlen bytes a.toNat len.toNat ≤ len.toNat := CString.strlen_le
  rw [prints_cputs_iff, StringEnds, if_neg ha]
  unfold CString.strAt
  generalize hn : CString.strlen bytes a.toNat len.toNat = n at hle
  constructor
  · rintro ⟨k, ch, _, hch, hstop, hout⟩
    rw [firstBytes_eq ha hbytes] at hout
    have hk : n = k := by
      have hlen := congrArg List.length hout
      rwa [CString.length_memread, CString.length_memread] at hlen
    subst hk
    rw [strByte_of_ne ha] at hch
    by_cases hlt : n < len.toNat
    · have hz := CString.zero_at_strlen (m := bytes) (p := a.toNat) (n := len.toNat) (hn ▸ hlt)
      rw [hn, hbyte, hch] at hz
      refine .inl ⟨n, by omega, ?_⟩
      rw [hch]
      exact congrArg some hz
    · obtain rfl : n = len.toNat := by omega
      rcases hstop with hz | hno
      · exact .inl ⟨_, Nat.le_refl _, by rw [hch, hz]⟩
      · rw [lets_iff] at hno
        refine .inr ⟨by omega, ?_⟩
        rw [hch]
        exact Option.some_ne_none _
  · intro hends
    have hgets : GetsTo load a len n := by
      intro j hj
      obtain ⟨ch, hch⟩ := Option.ne_none_iff_exists'.mp (hload j (by omega))
      have hne := CString.ne_zero_of_lt_strlen (m := bytes) (hn ▸ hj)
      rw [hbyte, hch] at hne
      exact ⟨(lets_iff j).mpr (.inr (by omega)), ch, (strByte_of_ne ha j).trans hch, hne⟩
    have hstops : ∃ ch, load (a + BitVec.ofNat 32 n) = some ch ∧ (ch = 0#8 ∨ ¬ Lets len n) := by
      by_cases hlt : n < len.toNat
      · obtain ⟨ch, hch⟩ := Option.ne_none_iff_exists'.mp (hload n hlt)
        have hz := CString.zero_at_strlen (m := bytes) (p := a.toNat) (n := len.toNat) (hn ▸ hlt)
        rw [hn, hbyte, hch] at hz
        exact ⟨ch, hch, .inl hz⟩
      · obtain rfl : n = len.toNat := by omega
        rcases hends with ⟨k, hk, hz⟩ | ⟨hpos, hne⟩
        · have hzero : bytes (a.toNat + k) = 0 := by
            rw [hbyte, hz]
            rfl
          have hnk : CString.strlen bytes a.toNat len.toNat ≤ k := CString.strlen_le_of_zero hzero
          obtain rfl : k = len.toNat := by omega
          exact ⟨0#8, hz, .inl rfl⟩
        · obtain ⟨ch, hch⟩ := Option.ne_none_iff_exists'.mp hne
          refine ⟨ch, hch, .inr fun hl => ?_⟩
          have := (lets_iff _).mp hl
          omega
    obtain ⟨ch, hch, hstop⟩ := hstops
    exact ⟨n, ch, hgets, (strByte_of_ne ha n).trans hch, hstop, (firstBytes_eq ha hbytes n).symm⟩

theorem firstBytes_null {k : Nat} (hk : k ≤ 6) : firstBytes load 0#32 k = nullString.take k := by
  have hall : ∀ k, k ≤ 6 → (List.range k).map (fun i => nullString.getD (0 + i) 0#8) =
      nullString.take k := by decide
  exact hall k hk

theorem getsTo_null_iff {k : Nat} : GetsTo load 0#32 len k ↔
    k ≤ 6 ∧ (len.toNat < 2 ^ 31 → k ≤ len.toNat) := by
  have hchars : ∀ j, j < 6 → nullString.getD j 0#8 ≠ 0#8 := by decide
  constructor
  · intro h
    refine ⟨?_, fun hpos => ?_⟩
    · by_contra hlt
      obtain ⟨_, ch, hch, hne⟩ := h 6 (by omega)
      exact hne (Option.some.inj hch).symm
    · cases k with
      | zero => exact Nat.zero_le _
      | succ k =>
          have hlast := (lets_iff k).mp (h k (Nat.lt_succ_self k)).1
          omega
  · rintro ⟨hk, hlen⟩ j hj
    refine ⟨(lets_iff j).mpr ?_, _, rfl, hchars j (by omega)⟩
    omega

/-- For a null pointer the formatter prints a string of its own. -/
theorem prints_null_iff : Prints load (cprintf "%.*s" [len, 0#32]) out ↔
    out = nullString.take (if len.toNat < 2 ^ 31 then len.toNat else 6) := by
  have hchars : ∀ j, j < 6 → nullString.getD j 0#8 ≠ 0#8 := by decide
  have htake : nullString.take (if len.toNat < 2 ^ 31 then len.toNat else 6) =
      nullString.take (min (if len.toNat < 2 ^ 31 then len.toNat else 6) 6) := by
    rw [← List.take_take, List.take_of_length_le (show nullString.length ≤ 6 by decide)]
  have hkey : ∀ k, GetsTo load 0#32 len k →
      (nullString.getD k 0#8 = 0#8 ∨ ¬ Lets len k ↔
        k = min (if len.toNat < 2 ^ 31 then len.toNat else 6) 6) := by
    intro k hk
    rw [getsTo_null_iff] at hk
    rw [lets_iff]
    by_cases hsix : k = 6
    · subst hsix
      refine iff_of_true (.inl rfl) ?_
      split <;> omega
    · have hne := hchars k (by omega)
      constructor
      · intro hstop
        have := hstop.resolve_left hne
        rw [if_pos (by omega)]
        omega
      · intro heq
        split at heq <;> omega
  rw [prints_cputs_iff, htake]
  constructor
  · rintro ⟨k, ch, hk, hch, hstop, hout⟩
    have hnull : nullString.getD k 0#8 = ch := Option.some.inj hch
    rw [← hnull] at hstop
    rw [hout, firstBytes_null (getsTo_null_iff.mp hk).1, (hkey k hk).mp hstop]
  · intro hout
    have hk : GetsTo load 0#32 len (min (if len.toNat < 2 ^ 31 then len.toNat else 6) 6) := by
      rw [getsTo_null_iff]
      split <;> omega
    refine ⟨_, _, hk, rfl, (hkey _ hk).mpr rfl, ?_⟩
    rw [hout, firstBytes_null (getsTo_null_iff.mp hk).1]

theorem prints_iff (load : Word → Option (BitVec 8)) (bytes : Nat → BitVec 8)
    (hbytes : ∀ i, bytes i = (load (BitVec.ofNat 32 i)).getD 0#8)
    (hload : ∀ i, i < len.toNat → load (a + BitVec.ofNat 32 i) ≠ none) :
    Prints load (cprintf "%.*s" [len, a]) (CString.strAt bytes a.toNat len.toNat) ↔
      StringEnds load bytes a len := by
  by_cases ha : a = 0#32
  · subst ha
    rw [prints_null_iff, StringEnds, if_pos rfl]
    rfl
  · exact prints_string_iff ha hbytes hload

/-! ### The check -/

/-- For a range below `UTOP` the check passes exactly when the program can write every page
it looks at. -/
theorem PageInv.cputsCheck (h : PageInv M K m dirs free held) (hd : dirs e = some d)
    (hin : a.toNat + len.toNat ≤ utop.toNat) :
    (userMemCheck M m (some d) a len (cputsPerm ||| pteU) = .ok none ∧
      ∀ x, (rounddown a).toNat ≤ x → x < (roundup (a + len)).toNat → Allowed m d cputsPerm x) ∨
    ∃ p : Word, userMemCheck M m (some d) a len (cputsPerm ||| pteU) = .ok (some p) ∧
      ∃ x, (rounddown a).toNat ≤ x ∧ x < (roundup (a + len)).toNat ∧ ¬ Allowed m d cputsPerm x := by
  have hutop : utop.toNat = 4005560320 := rfl
  have hsum := toNat_sum a len
  have hround := toNat_roundup (a + len)
  have htop : ¬ utop < roundup (a + len) := by
    rw [BitVec.not_lt, BitVec.le_def]
    split at hround <;> omega
  rw [show cputsPerm ||| pteU = cputsPerm by decide, toNat_rounddown_eq]
  rcases h.userMemCheck_spec hd a len cputsPerm htop with
    ⟨hrun, hall⟩ | ⟨p, hrun, _, hle, hlt, _, hpage⟩
  · exact .inl ⟨hrun, hall⟩
  · exact .inr ⟨_, hrun, p.toNat, hle, hlt, hpage _ (Nat.le_refl _) (by omega)⟩

theorem sysCputs_passes (hdir : (s.envs cur).envPgdir = some d)
    (hpass : userMemCheck M s.pm (some d) a len (cputsPerm ||| pteU) = .ok none) :
    sysCputs M s c cur a len = .ok (0, s) := by
  unfold sysCputs userMemAssert
  rw [hdir, show pteP ||| pteW ||| pteU ||| pteU = cputsPerm ||| pteU from rfl, hpass]
  rfl

theorem sysCputs_fails {p : Word} (hdir : (s.envs cur).envPgdir = some d)
    (hfail : userMemCheck M s.pm (some d) a len (cputsPerm ||| pteU) = .ok (some p)) :
    sysCputs M s c cur a len = envDestroy M s c cur >>= fun s' => pure (0, s') := by
  unfold sysCputs userMemAssert
  rw [hdir, show pteP ||| pteW ||| pteU ||| pteU = cputsPerm ||| pteU from rfl, hfail]
  rfl

/-- `env_destroy` of the current environment does not return. -/
theorem envDestroy_cur_ne {α : Type} {f : KState → Except Stop α} {x : α}
    (hcur : s.curenv c = some cur) : envDestroy M s c cur >>= f ≠ .ok x := by
  have hrun : ¬ ((s.envs cur).envStatus = .running ∧ s.curenv c ≠ some cur) :=
    fun hne => hne.2 hcur
  unfold envDestroy
  rw [if_neg hrun]
  cases hfree : envFree M s c cur with
  | error stop => exact fun heq => by cases heq
  | ok s₁ =>
      have hsame := ((envFree_freed M s c cur).value hfree).curenv c
      rw [Except.ok_bind_eq, if_pos (hsame.trans hcur)]
      exact fun heq => by cases heq

/-- `sys_cputs` keeps to its comment exactly when the range cannot be read, or it can be
written and the string ends. -/
theorem cputsContract_iff (h : BaseInv M K s) (hcur : s.curenv c = some cur)
    (kern : Word → Option (BitVec 8)) (a len : Word) (hin : a.toNat + len.toNat ≤ utop.toNat) :
    CputsContract M s kern c cur a len ↔
      Unreadable s.pm (s.cpus c).cr3 a len ∨ CputsFits s.pm (s.cpus c).cr3 kern a len := by
  have hdir := h.cpu c cur hcur
  have hgone := envDestroy_cur (M := M) h hcur
  obtain ⟨free, hp⟩ := h.pages
  have hutop : utop.toNat = 4005560320 := rfl
  have hsum := toNat_sum a len
  have hround := toNat_roundup (a + len)
  have hdown := toNat_rounddown_eq a
  have hcheck := hp.cputsCheck (show s.dirs cur = some (s.cpus c).cr3 from hdir) hin
  by_cases hun : Unreadable s.pm (s.cpus c).cr3 a len
  · refine iff_of_true ⟨fun _ => ⟨?_, hgone⟩, fun hno => absurd hun hno⟩ (.inl hun)
    rcases hcheck with ⟨_, hall⟩ | ⟨p, hfail, _⟩
    · obtain ⟨x, hlo, hhi, hno⟩ := hun
      refine absurd (hall x (by omega) ?_).read hno
      split at hround <;> omega
    · exact sysCputs_fails hdir hfail
  · have hread : ∀ i, i < len.toNat →
        kernelLoad s.pm (s.cpus c).cr3 kern (a + BitVec.ofNat 32 i) ≠ none := by
      intro i hi
      rw [← ofNat_index]
      refine hp.kernelLoad_of_allowed (show s.dirs cur = some (s.cpus c).cr3 from hdir)
        (by omega) ?_
      by_contra hno
      exact hun ⟨a.toNat + i, by omega, by omega, hno⟩
    have hprints := prints_iff (kernelLoad s.pm (s.cpus c).cr3 kern)
      (userByte s.pm (s.cpus c).cr3 kern) (fun _ => rfl) hread
    rcases hcheck with ⟨hpass, hall⟩ | ⟨p, hfail, x, hlo, hhi, hno⟩
    · constructor
      · exact fun hc => .inr ⟨hall, hprints.mp (hc.prints hun).2⟩
      · rintro (hun' | hfits)
        · exact absurd hun' hun
        · exact ⟨fun hun' => absurd hun' hun, fun _ =>
            ⟨sysCputs_passes hdir hpass, hprints.mpr hfits.ends⟩⟩
    · refine iff_of_false (fun hc => ?_) ?_
      · have hok := (hc.prints hun).1
        rw [sysCputs_fails hdir hfail] at hok
        exact envDestroy_cur_ne hcur hok
      · rintro (hun' | hfits)
        · exact hun hun'
        · exact hno (hfits.writable x hlo hhi)

end

/-- The first environment writes `hi` at the foot of its stack and prints it. -/
theorem cputsContract_pc : ∃ s, BaseInv (pc .roundRobin) lowPages s ∧ s.curenv 0 = some 0 ∧
    CputsContract (pc .roundRobin) s (fun _ => none) 0 0 0xeebfd000#32 16#32 ∧
    Prints (kernelLoad s.pm (s.cpus 0).cr3 fun _ => none)
      (cprintf "%.*s" [16#32, 0xeebfd000#32]) [0x68#8, 0x69#8] := by
  have hrun : (runCarefully (pc .roundRobin) [.create emptyImage, .start 0,
      .store 0 0xeebfd000#32 0x68#8, .store 0 0xeebfd001#32 0x69#8] pcBoot).any (fun s =>
      s.curenv 0 = some 0 ∧ (s.cpus 0).cr3 = 0x7FFF ∧
        pteAt s.pm 0x7FFF 0xeebfd000#32 &&& (cputsPerm ||| pteP) = cputsPerm ||| pteP ∧
        CString.strAt (userByte s.pm 0x7FFF fun _ => none) (0xeebfd000#32 : Word).toNat
          (16#32 : Word).toNat = [0x68#8, 0x69#8] ∧
        kernelLoad s.pm 0x7FFF (fun _ => none) 0xeebfd002#32 = some 0#8) = true := by
    decide +kernel
  obtain ⟨s, -, hbase, -, hs⟩ := exists_careful anyEvent (fun _ _ _ _ _ _ => trivial)
    (pcBoot_booted .roundRobin) hrun
  rw [decide_eq_true_eq] at hs
  obtain ⟨hcur, hcr3, hpte, hstr, hzero⟩ := hs
  have hallowed : ∀ x, 4005548032 ≤ x → x < 4005552128 → Allowed s.pm 0x7FFF cputsPerm x := by
    have hutop : utop.toNat = 4005560320 := rfl
    have hva : (0xeebfd000#32 : Word).toNat = 4005548032 := by decide
    exact fun x hlo hhi => (allowed_iff 0xeebfd000#32 (by omega) (by omega)).mpr hpte
  have hfits : CputsFits s.pm (s.cpus 0).cr3 (fun _ => none) 0xeebfd000#32 16#32 := by
    rw [hcr3]
    refine ⟨hallowed, ?_⟩
    rw [StringEnds, if_neg (by decide)]
    exact .inl ⟨2, by decide, hzero⟩
  have hcontract := (cputsContract_iff hbase hcur _ _ _ (by decide)).mpr (.inr hfits)
  have hread : ¬ Unreadable s.pm (s.cpus 0).cr3 0xeebfd000#32 16#32 := by
    rw [hcr3]
    rintro ⟨x, hlo, hhi, hno⟩
    have hend : (0xeebfd000#32 : Word).toNat + (16#32 : Word).toNat < 4005552128 := by decide
    exact hno (hallowed x hlo (hhi.trans hend)).read
  refine ⟨s, hbase, hcur, hcontract, ?_⟩
  rw [← hstr, ← hcr3]
  exact (hcontract.prints hread).2

/-- The first environment maps its stack read-only, as `fork` does, and prints from it. -/
theorem cputs_read_only : ¬ ∀ s kern c cur a len,
    (kernel (pc .roundRobin) lowPages).Reach anyEvent s → s.curenv c = some cur →
    a.toNat + len.toNat ≤ utop.toNat → CputsContract (pc .roundRobin) s kern c cur a len := by
  intro hall
  have hrun : (run (pc .roundRobin) [.create emptyImage, .start 0,
      call 0 5#32 0#32 0xeebfd000#32 0#32 0xeebfd000#32 5#32] pcBoot).any (fun s =>
      s.curenv 0 = some 0 ∧ (s.cpus 0).cr3 = 0x7FFF ∧
        pteAt s.pm 0x7FFF 0xeebfd000#32 &&& (pteU ||| pteP) = pteU ||| pteP ∧
        (s.envs 0).envPgdir = some 0x7FFF ∧
        userMemCheck (pc .roundRobin) s.pm (some 0x7FFF) 0xeebfd000#32 1#32
          (cputsPerm ||| pteU) = .ok (some 0xeebfd000#32)) = true := by
    decide
  obtain ⟨s, hreach, hs⟩ := reach_of_any (pcBoot_booted .roundRobin) hrun
  rw [decide_eq_true_eq] at hs
  obtain ⟨hcur, hcr3, hpte, hdir, hfail⟩ := hs
  have hc := hall s (fun _ => none) 0 0 0xeebfd000#32 1#32 hreach hcur (by decide)
  have hread : ¬ Unreadable s.pm (s.cpus 0).cr3 0xeebfd000#32 1#32 := by
    rw [hcr3]
    rintro ⟨x, hlo, hhi, hno⟩
    have hutop : utop.toNat = 4005560320 := rfl
    have hva : (0xeebfd000#32 : Word).toNat = 4005548032 := by decide
    have hone : (1#32 : Word).toNat = 1 := rfl
    exact hno ((allowed_iff 0xeebfd000#32 (by omega) (by omega)).mpr hpte)
  have hok := (hc.prints hread).1
  rw [sysCputs_fails hdir hfail] at hok
  exact envDestroy_cur_ne hcur hok

end Jos
end Sisop

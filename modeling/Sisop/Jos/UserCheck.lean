import Mathlib.Order.Bounds.Defs
import Sisop.Jos.Isolation

/-!
# What `user_mem_check` lets through

The comment of `user_mem_check` allows a range when every byte of it is below `ULIM`
and mapped with the permission asked for.  The code compares with `UTOP`, after it
has rounded up a sum that may wrap.  A range that wraps to the start of the address
space passes without a look at any page, and so a user reaches the kernel's memory.
-/

namespace Sisop
namespace Jos

open TransitionSystem

/-- The page table entry for `va` under directory `d`, zero where there is no table. -/
def pteAt (m : PMap) (d : Nat) (va : Word) : Word :=
  if m.mem d (pdx va) &&& pteP = pteP then m.mem (pgnum (m.mem d (pdx va))) (ptx va) else 0#32

/-- The byte at `a` is below `ULIM` and mapped with all of `perm|PTE_P`.  A range that
is summed without wrapping may run past the last word. -/
def Allowed (m : PMap) (d : Nat) (perm : Word) (a : Nat) : Prop :=
  a < ulim.toNat ∧ pteAt m d (BitVec.ofNat 32 a) &&& (perm ||| pteP) = perm ||| pteP

/-- A byte of the range that is not allowed. -/
def Offends (m : PMap) (d : Nat) (va len perm : Word) (a : Nat) : Prop :=
  va.toNat ≤ a ∧ a < va.toNat + len.toNat ∧ ¬ Allowed m d perm a

/-- What the comment of `user_mem_check` promises of one call. -/
structure CheckContract (M : Machine) (m : PMap) (d : Nat) (va len perm : Word) : Prop where
  passes : (∀ a, ¬ Offends m d va len perm a) →
    userMemCheck M m (some d) va len perm = .ok none
  fails : (∃ a, Offends m d va len perm a) →
    ∃ x, userMemCheck M m (some d) va len perm = .ok (some x) ∧
      IsLeast {a | Offends m d va len perm a} x.toNat

/-- The ranges on which the code does what its comment says. -/
def CheckFits (m : PMap) (d : Nat) (va len perm : Word) : Prop :=
  if len = 0#32 then
    (va.toNat ≤ utop.toNat ∧ (va.toNat % 4096 = 0 ∨ Allowed m d perm va.toNat)) ∨
      2 ^ 32 - 4096 < va.toNat
  else
    va.toNat + len.toNat ≤ utop.toNat ∨
      (¬ Allowed m d perm va.toNat ∧
        (utop < roundup (va + len) ∨ rounddown va < roundup (va + len)))

/-! ## Rounding -/

/-- `ROUNDUP` of an address in the last page wraps to zero. -/
theorem toNat_roundup (a : Word) : (roundup a).toNat =
    if a.toNat ≤ 2 ^ 32 - 4096 then (a.toNat + 4095) / 4096 * 4096 else 0 := by
  have hlt := a.isLt
  have hsum : (a + 4096#32 - 1#32).toNat = (a.toNat + 4095) % 2 ^ 32 := by
    simp only [BitVec.toNat_sub, BitVec.toNat_add, BitVec.toNat_ofNat]
    omega
  rw [roundup, toNat_rounddown, hsum]
  split <;> omega

theorem toNat_rounddown_eq (a : Word) : (rounddown a).toNat = a.toNat / 4096 * 4096 := by
  rw [toNat_rounddown]
  omega

section

variable {M : Machine} {K : Nat → Prop} {m : PMap} {dirs : Nat → Option Nat}
  {free : List Nat} {held : Nat → Nat} {s : KState} {e d : Nat} {va perm : Word}

/-- Two addresses of one page have the same entry. -/
theorem pteAt_page (va va' : Word) (h : va'.toNat / 4096 = va.toNat / 4096) :
    pteAt m d va' = pteAt m d va := by
  have hdir : pdx va' = pdx va := by
    rw [pdx_eq, pdx_eq]
    omega
  have htable : ptx va' = ptx va := by
    rw [ptx_eq, ptx_eq, h]
  unfold pteAt
  rw [hdir, htable]

/-- Below `UTOP` a byte is allowed when the entry of its page has the permission. -/
theorem allowed_iff (va : Word) {a : Nat} (ha : a < utop.toNat)
    (hpage : a / 4096 = va.toNat / 4096) :
    Allowed m d perm a ↔ pteAt m d va &&& (perm ||| pteP) = perm ||| pteP := by
  have hutop : utop.toNat = 4005560320 := rfl
  have hulim : ulim.toNat = 4018143232 := rfl
  have hnat : (BitVec.ofNat 32 a).toNat = a := by
    rw [BitVec.toNat_ofNat]
    omega
  unfold Allowed
  rw [pteAt_page va _ (by rw [hnat, hpage])]
  exact and_iff_right (by omega)

/-- A word without the present bit has no permission. -/
theorem zero_and_ne (perm : Word) : (0#32 : Word) &&& (perm ||| pteP) ≠ perm ||| pteP := by
  rw [BitVec.zero_and]
  exact fun h => or_pteP_ne_zero perm h.symm

namespace PageInv

/-- The entry is the one of the reference graph. -/
theorem pteAt_eq (h : PageInv M K m dirs free held) (hd : dirs e = some d)
    (hi : pdx va < pdxUtop) : pteAt m d va = pteWord m dirs e (pdx va) (ptx va) := by
  have hw := pdeWord_of_dir (m := m) hd hi
  unfold pteAt
  by_cases hz : pdeWord m dirs e (pdx va) = 0#32
  · rw [pteWord_of_no_pde hz, ← hw, hz]
    exact if_neg (by decide)
  · have hpres : pdeWord m dirs e (pdx va) &&& pteP = pteP := by
      rw [show pteP = (pteP ||| pteW ||| pteU) &&& pteP by decide, ← BitVec.and_assoc,
        h.pde_perm e _ hz]
    rw [pteWord_of_pde (entry_of_ne hz) (ptx_lt va), ← hw, if_pos hpres]

/-- What `pgdir_walk` finds without making a table. -/
theorem pgdirWalk_pteAt (h : PageInv M K m dirs free held) (hd : dirs e = some d)
    (hi : pdx va < pdxUtop) :
    (∃ x, pgdirWalk M m (some d) va false = .ok (some x, m) ∧ m.read x = pteAt m d va) ∨
      (pgdirWalk M m (some d) va false = .ok (none, m) ∧ pteAt m d va = 0#32) := by
  rw [h.pteAt_eq hd hi]
  by_cases hz : pdeWord m dirs e (pdx va) = 0#32
  · exact .inr ⟨pgdirWalk_none hd hi hz, pteWord_of_no_pde hz⟩
  · refine .inl ⟨_, h.pgdirWalk_table hd hi (entry_of_ne hz) false, ?_⟩
    exact (pteWord_of_pde (entry_of_ne hz) (ptx_lt va)).symm

/-- The program can store to a page when its entry allows it. -/
theorem translate_userStore (h : PageInv M K m dirs free held) (hd : dirs e = some d)
    (hi : pdx va < pdxUtop) :
    translate m d userStore va ≠ none ↔ pteAt m d va &&& userStore = userStore := by
  rw [h.translate_eq hd hi (by decide) (by decide), h.pteAt_eq hd hi]
  split
  · exact iff_of_true (Option.some_ne_none _) ‹_›
  · exact iff_of_false (not_not.mpr rfl) ‹_›

/-- The loop of `user_mem_check` stops at the first page that lacks the permission. -/
theorem checkPages_spec (h : PageInv M K m dirs free held) (hd : dirs e = some d)
    (vaLo perm : Word) {n : Nat} {vaAct : Word} (hal : vaAct.toNat % 4096 = 0)
    (hend : vaAct.toNat + n * 4096 ≤ utop.toNat) :
    (userMemCheckPages M m (some d) vaLo perm n vaAct = .ok none ∧
      ∀ a, vaAct.toNat ≤ a → a < vaAct.toNat + n * 4096 → Allowed m d perm a) ∨
    ∃ p : Word, userMemCheckPages M m (some d) vaLo perm n vaAct =
        .ok (some (if vaLo < p then p else vaLo)) ∧
      p.toNat % 4096 = 0 ∧ vaAct.toNat ≤ p.toNat ∧ p.toNat < vaAct.toNat + n * 4096 ∧
      (∀ a, vaAct.toNat ≤ a → a < p.toNat → Allowed m d perm a) ∧
      ∀ a, p.toNat ≤ a → a < p.toNat + 4096 → ¬ Allowed m d perm a := by
  induction n generalizing vaAct with
  | zero => exact .inl ⟨rfl, fun a hle hlt => absurd hlt (by omega)⟩
  | succ n ih =>
      have hutop : utop.toNat = 4005560320 := rfl
      have hi : pdx vaAct < pdxUtop := by
        rw [pdx_lt_pdxUtop_iff, BitVec.lt_def]
        omega
      have hallowed : ∀ a, vaAct.toNat ≤ a → a < vaAct.toNat + 4096 →
          (Allowed m d perm a ↔ pteAt m d vaAct &&& (perm ||| pteP) = perm ||| pteP) :=
        fun a hle hlt => allowed_iff vaAct (by omega) (by omega)
      have hstop : ∀ r : Except String (Option Word),
          r = .ok (some (if vaLo < vaAct then vaAct else vaLo)) →
          pteAt m d vaAct &&& (perm ||| pteP) ≠ perm ||| pteP →
          ∃ p : Word, r = .ok (some (if vaLo < p then p else vaLo)) ∧
            p.toNat % 4096 = 0 ∧ vaAct.toNat ≤ p.toNat ∧ p.toNat < vaAct.toNat + (n + 1) * 4096 ∧
            (∀ a, vaAct.toNat ≤ a → a < p.toNat → Allowed m d perm a) ∧
            ∀ a, p.toNat ≤ a → a < p.toNat + 4096 → ¬ Allowed m d perm a := by
        intro r hr hno
        refine ⟨vaAct, hr, hal, Nat.le_refl _, by omega, fun a hle hlt => absurd hlt (by omega), ?_⟩
        exact fun a hle hlt hall => hno ((hallowed a hle hlt).mp hall)
      rcases h.pgdirWalk_pteAt hd hi with ⟨x, hwalk, hread⟩ | ⟨hwalk, hzero⟩
      · by_cases hok : pteAt m d vaAct &&& (perm ||| pteP) = perm ||| pteP
        · have hnext : (vaAct + 4096#32).toNat = vaAct.toNat + 4096 := by
            rw [BitVec.toNat_add, show (4096#32 : Word).toNat = 4096 from rfl]
            omega
          have hrun : userMemCheckPages M m (some d) vaLo perm (n + 1) vaAct =
              userMemCheckPages M m (some d) vaLo perm n (vaAct + 4096#32) := by
            rw [userMemCheckPages, hwalk, Except.ok_bind_eq]
            dsimp only
            rw [hread]
            exact if_neg (not_not.mpr hok)
          have hfirst : ∀ a, vaAct.toNat ≤ a → a < vaAct.toNat + 4096 → Allowed m d perm a :=
            fun a hle hlt => (hallowed a hle hlt).mpr hok
          rw [hrun]
          have hrec := @ih (vaAct + 4096#32) (by omega) (by omega)
          rw [hnext] at hrec
          rcases hrec with ⟨hnone, hall⟩ | ⟨p, hsome, hpal, hple, hplt, hbefore, hafter⟩
          · refine .inl ⟨hnone, fun a hle hlt => ?_⟩
            by_cases ha : a < vaAct.toNat + 4096
            · exact hfirst a hle ha
            · exact hall a (by omega) (by omega)
          · refine .inr ⟨p, hsome, hpal, by omega, by omega, fun a hle hlt => ?_, hafter⟩
            by_cases ha : a < vaAct.toNat + 4096
            · exact hfirst a hle ha
            · exact hbefore a (by omega) hlt
        · refine .inr (hstop _ ?_ hok)
          rw [userMemCheckPages, hwalk, Except.ok_bind_eq]
          dsimp only
          rw [hread]
          exact if_pos hok
      · refine .inr (hstop _ ?_ ?_)
        · rw [userMemCheckPages, hwalk, Except.ok_bind_eq]
          rfl
        · rw [hzero]
          exact zero_and_ne perm

/-- `user_mem_check` of a range whose rounded end is not above `UTOP`. -/
theorem userMemCheck_spec (h : PageInv M K m dirs free held) (hd : dirs e = some d)
    (va len perm : Word) (htop : ¬ utop < roundup (va + len)) :
    (userMemCheck M m (some d) va len perm = .ok none ∧
      ∀ a, va.toNat / 4096 * 4096 ≤ a → a < (roundup (va + len)).toNat → Allowed m d perm a) ∨
    ∃ p : Word, userMemCheck M m (some d) va len perm =
        .ok (some (if va < p then p else va)) ∧
      p.toNat % 4096 = 0 ∧ va.toNat / 4096 * 4096 ≤ p.toNat ∧
      p.toNat < (roundup (va + len)).toNat ∧
      (∀ a, va.toNat / 4096 * 4096 ≤ a → a < p.toNat → Allowed m d perm a) ∧
      ∀ a, p.toNat ≤ a → a < p.toNat + 4096 → ¬ Allowed m d perm a := by
  have hrun : userMemCheck M m (some d) va len perm =
      userMemCheckPages M m (some d) va perm
        (((roundup (va + len)).toNat - (rounddown va).toNat) / pgsize) (rounddown va) := by
    unfold userMemCheck
    dsimp only
    rw [if_neg htop]
  rw [BitVec.not_lt, BitVec.le_def] at htop
  have hlo := toNat_rounddown_eq va
  have hhi : (roundup (va + len)).toNat % 4096 = 0 := by
    rw [toNat_roundup]
    split <;> omega
  rw [hrun, pgsize]
  by_cases hempty : (roundup (va + len)).toNat ≤ (rounddown va).toNat
  · rw [Nat.sub_eq_zero_of_le hempty]
    exact .inl ⟨rfl, fun a hle hlt => absurd hlt (by omega)⟩
  · have hend : (rounddown va).toNat +
        ((roundup (va + len)).toNat - (rounddown va).toNat) / 4096 * 4096 =
        (roundup (va + len)).toNat := by
      omega
    have hspec := h.checkPages_spec hd va perm (by omega) (hend.trans_le htop)
    rw [hend, hlo] at hspec
    rw [hlo]
    exact hspec

end PageInv

/-- Past the top of memory there is always a byte that is not allowed. -/
theorem offends_of_wrap {len : Word} (hlen : 0 < len.toNat)
    (hend : 2 ^ 32 - 4096 < va.toNat + len.toNat) :
    Offends m d va len perm (max va.toNat (2 ^ 32 - 4096)) := by
  have hulim : ulim.toNat = 4018143232 := rfl
  refine ⟨Nat.le_max_left _ _, by omega, fun hall => ?_⟩
  have := hall.1
  omega

/-- A check that passes is right when nothing offends. -/
theorem checkContract_passed {len : Word}
    (hrun : userMemCheck M m (some d) va len perm = .ok none) :
    CheckContract M m d va len perm ↔ ∀ a, ¬ Offends m d va len perm a := by
  constructor
  · intro hc a ha
    obtain ⟨x, hx, _⟩ := hc.fails ⟨a, ha⟩
    rw [hrun] at hx
    cases hx
  · exact fun hnone => ⟨fun _ => hrun, fun ⟨a, ha⟩ => absurd ha (hnone a)⟩

/-- A check that stops is right when the byte it reports is the first that offends. -/
theorem checkContract_stopped {len x : Word}
    (hrun : userMemCheck M m (some d) va len perm = .ok (some x)) :
    CheckContract M m d va len perm ↔ IsLeast {a | Offends m d va len perm a} x.toNat := by
  constructor
  · intro hc
    by_cases hany : ∃ a, Offends m d va len perm a
    · obtain ⟨y, hy, hleast⟩ := hc.fails hany
      rw [hrun] at hy
      cases hy
      exact hleast
    · have hnone := hc.passes fun a ha => hany ⟨a, ha⟩
      rw [hrun] at hnone
      cases hnone
  · exact fun hleast => ⟨fun hnone => absurd hleast.1 (hnone _), fun _ => ⟨x, hrun, hleast⟩⟩

/-- The first byte of a range is the first that offends when it offends at all. -/
theorem isLeast_first_iff {len : Word} :
    IsLeast {a | Offends m d va len perm a} va.toNat ↔
      0 < len.toNat ∧ ¬ Allowed m d perm va.toNat := by
  constructor
  · rintro ⟨⟨_, hlt, hno⟩, _⟩
    exact ⟨by omega, hno⟩
  · rintro ⟨hlen, hno⟩
    exact ⟨⟨Nat.le_refl _, by omega, hno⟩, fun a ha => ha.1⟩

/-- The sum of a range and the sum of its words differ when the range wraps. -/
theorem toNat_sum (va len : Word) : (va + len).toNat = (va.toNat + len.toNat) % 2 ^ 32 :=
  BitVec.toNat_add va len

theorem eq_zero_iff_toNat (w : Word) : w = 0#32 ↔ w.toNat = 0 :=
  ⟨fun heq => by rw [heq]; rfl, fun heq => BitVec.eq_of_toNat_eq heq⟩

/-- Above `UTOP` the code reports the first byte. -/
theorem checkContract_above {len : Word} (htop : utop < roundup (va + len)) :
    CheckContract M m d va len perm ↔ CheckFits m d va len perm := by
  have hutop : utop.toNat = 4005560320 := rfl
  have hsum := toNat_sum va len
  have hhi := toNat_roundup (va + len)
  have hlo := va.isLt
  have hrun : userMemCheck M m (some d) va len perm = .ok (some va) := by
    unfold userMemCheck
    dsimp only
    rw [if_pos htop]
  rw [checkContract_stopped hrun, isLeast_first_iff]
  rw [BitVec.lt_def] at htop
  unfold CheckFits
  by_cases hz : len = 0#32
  · rw [if_pos hz]
    rw [eq_zero_iff_toNat] at hz
    refine iff_of_false (fun hf => by omega) ?_
    split at hhi <;> omega
  · rw [if_neg hz]
    rw [eq_zero_iff_toNat] at hz
    have hout : ¬ va.toNat + len.toNat ≤ utop.toNat := by
      split at hhi <;> omega
    simp only [hout, false_or, BitVec.lt_def, htop, true_or, and_true]
    exact and_iff_right (by omega)

/-- The loop passed: every page up to the rounded end is allowed. -/
theorem checkContract_none {len : Word} (htop : ¬ utop < roundup (va + len))
    (hrun : userMemCheck M m (some d) va len perm = .ok none)
    (hall : ∀ a, va.toNat / 4096 * 4096 ≤ a → a < (roundup (va + len)).toNat →
      Allowed m d perm a) :
    CheckContract M m d va len perm ↔ CheckFits m d va len perm := by
  have hutop : utop.toNat = 4005560320 := rfl
  have hsum := toNat_sum va len
  have hhi := toNat_roundup (va + len)
  have hlo := va.isLt
  have hlen := len.isLt
  rw [checkContract_passed hrun]
  rw [BitVec.not_lt, BitVec.le_def] at htop
  have hfirst : va.toNat / 4096 * 4096 < (roundup (va + len)).toNat →
      va.toNat < (roundup (va + len)).toNat := by
    intro hlt
    split at hhi <;> omega
  unfold CheckFits
  by_cases hz : len = 0#32
  · rw [if_pos hz]
    rw [eq_zero_iff_toNat] at hz
    refine iff_of_true (fun a ha => by have := ha.1; have := ha.2.1; omega) ?_
    by_cases hwrap : 2 ^ 32 - 4096 < va.toNat
    · exact .inr hwrap
    · refine .inl ⟨by split at hhi <;> omega, ?_⟩
      by_cases hal : va.toNat % 4096 = 0
      · exact .inl hal
      · refine .inr (hall _ (by omega) ?_)
        split at hhi <;> omega
  · rw [if_neg hz]
    rw [eq_zero_iff_toNat] at hz
    by_cases hin : va.toNat + len.toNat ≤ utop.toNat
    · refine iff_of_true (fun a ha => ha.2.2 (hall a ?_ ?_)) (.inl hin)
      · have := ha.1
        omega
      · have := ha.2.1
        split at hhi <;> omega
    · -- The range ends above `UTOP` and its rounded end does not, so it wraps.
      refine iff_of_false (fun hnone => ?_) ?_
      · exact hnone _ (offends_of_wrap (by omega) (by split at hhi <;> omega))
      · rintro (hle | ⟨hno, hup⟩)
        · exact hin hle
        · rw [BitVec.lt_def, BitVec.lt_def, toNat_rounddown_eq] at hup
          have hlt := hup.resolve_left (by omega)
          exact hno (hall _ (by omega) (hfirst hlt))

/-- The loop stopped at a page without the permission. -/
theorem checkContract_some {len p : Word} (htop : ¬ utop < roundup (va + len))
    (hrun : userMemCheck M m (some d) va len perm = .ok (some (if va < p then p else va)))
    (hal : p.toNat % 4096 = 0) (hle : va.toNat / 4096 * 4096 ≤ p.toNat)
    (hlt : p.toNat < (roundup (va + len)).toNat)
    (hbefore : ∀ a, va.toNat / 4096 * 4096 ≤ a → a < p.toNat → Allowed m d perm a)
    (hpage : ∀ a, p.toNat ≤ a → a < p.toNat + 4096 → ¬ Allowed m d perm a) :
    CheckContract M m d va len perm ↔ CheckFits m d va len perm := by
  have hutop : utop.toNat = 4005560320 := rfl
  have hsum := toNat_sum va len
  have hhi := toNat_roundup (va + len)
  have hlo := va.isLt
  have hlen := len.isLt
  rw [BitVec.not_lt, BitVec.le_def] at htop
  have hend : (roundup (va + len)).toNat = ((va + len).toNat + 4095) / 4096 * 4096 := by
    split at hhi
    · exact hhi
    · omega
  by_cases hin : 0 < len.toNat ∧ va.toNat + len.toNat ≤ utop.toNat
  · have hfits : CheckFits m d va len perm := by
      unfold CheckFits
      rw [if_neg fun hz => by rw [eq_zero_iff_toNat] at hz; omega]
      exact .inl hin.2
    refine iff_of_true ((checkContract_stopped hrun).mpr ?_) hfits
    by_cases hva : va < p
    · rw [if_pos hva]
      rw [BitVec.lt_def] at hva
      refine ⟨⟨by omega, by omega, hpage _ (Nat.le_refl _) (by omega)⟩, fun a ha => ?_⟩
      by_contra hlow
      exact ha.2.2 (hbefore a (by have := ha.1; omega) (by omega))
    · rw [if_neg hva]
      rw [BitVec.not_lt, BitVec.le_def] at hva
      exact isLeast_first_iff.mpr ⟨hin.1, hpage _ hva (by omega)⟩
  · -- The rounded end is in the page of `va`, so that page is the one that failed.
    have hp : p.toNat = va.toNat / 4096 * 4096 := by omega
    have hva : ¬ va < p := by
      rw [BitVec.lt_def]
      omega
    rw [if_neg hva] at hrun
    have hno : ¬ Allowed m d perm va.toNat := hpage _ (by omega) (by omega)
    rw [checkContract_stopped hrun, isLeast_first_iff]
    unfold CheckFits
    by_cases hz : len = 0#32
    · rw [if_pos hz]
      rw [eq_zero_iff_toNat] at hz
      refine iff_of_false (fun hf => by omega) ?_
      rintro (⟨_, hal' | hall⟩ | hwrap)
      · omega
      · exact hno hall
      · omega
    · rw [if_neg hz]
      rw [eq_zero_iff_toNat] at hz
      refine iff_of_true ⟨by omega, hno⟩ (.inr ⟨hno, .inr ?_⟩)
      rw [BitVec.lt_def, toNat_rounddown_eq]
      omega

/-- `user_mem_check` keeps to its comment on these ranges and on no others. -/
theorem checkContract_iff (h : BaseInv M K s) (hd : (s.envs e).envPgdir = some d)
    (va len perm : Word) : CheckContract M s.pm d va len perm ↔ CheckFits s.pm d va len perm := by
  obtain ⟨free, hp⟩ := h.pages
  by_cases htop : utop < roundup (va + len)
  · exact checkContract_above htop
  · rcases hp.userMemCheck_spec (show s.dirs e = some d from hd) va len perm htop with
      ⟨hrun, hall⟩ | ⟨p, hrun, hal, hle, hlt, hbefore, hpage⟩
    · exact checkContract_none htop hrun hall
    · exact checkContract_some htop hrun hal hle hlt hbefore hpage

end

/-- The stack page of the first environment. -/
theorem checkContract_pc : ∃ s, BaseInv (pc .roundRobin) lowPages s ∧
    (s.envs 0).envPgdir = some 0x7FFF ∧
    CheckContract (pc .roundRobin) s.pm 0x7FFF 0xeebfd000#32 4096#32 pteU := by
  have hrun : (run (pc .roundRobin) [.create emptyImage, .start 0] pcBoot).any (fun s =>
      (s.envs 0).envPgdir = some 0x7FFF) = true := by
    decide
  obtain ⟨s, hreach, hs⟩ := exists_reach (pcBoot_booted .roundRobin)
    fits_created hrun
  rw [decide_eq_true_eq] at hs
  have hbase := base_reach hreach
  refine ⟨s, hbase, hs, (checkContract_iff hbase hs _ _ _).mpr ?_⟩
  unfold CheckFits
  rw [if_neg (by decide)]
  exact .inl (by decide)

/-- A range from the kernel's entry point to the end of memory passes. -/
theorem check_kernel : ¬ ∀ s e d va len perm,
    (kernel (pc .roundRobin) lowPages).Reach anyEvent s → (s.envs e).envPgdir = some d →
    CheckContract (pc .roundRobin) s.pm d va len perm := by
  intro hall
  have hrun : (run (pc .roundRobin) [.create emptyImage, .start 0] pcBoot).any (fun s =>
      (s.envs 0).envPgdir = some 0x7FFF) = true := by
    decide
  obtain ⟨s, hreach, hs⟩ := reach_of_any (pcBoot_booted .roundRobin) hrun
  rw [decide_eq_true_eq] at hs
  have hc := hall s 0 0x7FFF 0xf010000c#32 0x0feffff4#32 pteU hreach hs
  have hpass : userMemCheck (pc .roundRobin) s.pm (some 0x7FFF) 0xf010000c#32 0x0feffff4#32 pteU =
      .ok none := by
    unfold userMemCheck
    dsimp only
    rw [if_neg (by decide)]
    rfl
  refine (checkContract_passed hpass).mp hc 0xf010000c ⟨by decide, by decide, fun hin => ?_⟩
  exact absurd hin.1 (by decide)

end Jos
end Sisop

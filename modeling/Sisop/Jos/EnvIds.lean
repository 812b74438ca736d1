import Sisop.Lib.Monitor
import Sisop.Jos.Entry
import Sisop.Jos.Run

/-!
# Allocating and freeing environments

Slots of `envs` are taken by `env_alloc` and given back by `env_free`, and
anything else the kernel does in between leaves the free list, the ids and the
set of free slots alone.  The id of a slot counts its allocations: it is the
number of the generation above the number of the slot, the generations run from 1
to `genPeriod`, and then they start over.  So an id that was freed is some other
environment's again when its slot has been allocated `genPeriod` times since, and
not earlier.
-/

namespace Sisop
namespace Jos

open Exit TransitionSystem

/-! ## Generations -/

/-- How many generations an id counts before it repeats. -/
def genPeriod : Nat := 2 ^ 19 - 1

/-- The id of slot `e` when it has been allocated `n` times. -/
def genId (e : Nat) : Nat → Word
  | 0 => 0#32
  | n + 1 => BitVec.ofNat 32 ((n % genPeriod + 1) * 4096 + e)

theorem toNat_genId {e : Nat} (he : e < nenv) (n : Nat) :
    (genId e (n + 1)).toNat = (n % genPeriod + 1) * 4096 + e := by
  have hlt : n % genPeriod < genPeriod := Nat.mod_lt n (by decide)
  unfold nenv at he
  unfold genPeriod at hlt
  rw [genId, BitVec.toNat_ofNat, Nat.mod_eq_of_lt]
  unfold genPeriod
  omega

/-- Clearing the bits of the slot number. -/
theorem toNat_clear (x : Word) : (x &&& ~~~1023#32).toNat = x.toNat - x.toNat % 1024 := by
  have hmod : (x &&& 1023#32).toNat = x.toNat % 1024 := by
    rw [BitVec.toNat_and]
    exact Nat.and_two_pow_sub_one_eq_mod x.toNat 10
  have hdisj : (x &&& ~~~1023#32) &&& (x &&& 1023#32) = 0#32 := by
    rw [BitVec.and_assoc, ← BitVec.and_assoc (~~~1023#32), BitVec.and_comm (~~~1023#32),
      BitVec.and_assoc x, show ~~~1023#32 &&& 1023#32 = (0#32 : Word) by decide]
    simp
  have hor : (x &&& ~~~1023#32) ||| (x &&& 1023#32) = x := by
    rw [← BitVec.and_or_distrib_left, BitVec.not_or_self, BitVec.and_allOnes]
  have hadd := BitVec.toNat_add_of_and_eq_zero hdisj
  rw [BitVec.add_eq_or_of_and_eq_zero _ _ hdisj, hor, hmod] at hadd
  omega

/-- A generation and a slot number side by side. -/
theorem gen_or_slot {k e : Nat} (hk : k < 2 ^ 19) (he : e < nenv) :
    BitVec.ofNat 32 (k * 4096) ||| BitVec.ofNat 32 e = BitVec.ofNat 32 (k * 4096 + e) := by
  have hlt : e < 1024 := he
  refine BitVec.eq_of_toNat_eq ?_
  rw [BitVec.toNat_or, BitVec.toNat_ofNat, BitVec.toNat_ofNat, BitVec.toNat_ofNat,
    Nat.mod_eq_of_lt (show k * 4096 < 2 ^ 32 by omega),
    Nat.mod_eq_of_lt (show e < 2 ^ 32 by omega),
    Nat.mod_eq_of_lt (show k * 4096 + e < 2 ^ 32 by omega), Nat.mul_comm]
  exact (Nat.two_pow_add_eq_or_of_lt (i := 12) (show e < 2 ^ 12 by omega) k).symm

/-- The generation of an id goes up by one, or from the last one back to 1. -/
theorem nextEnvId_of_gen {w : Word} {k e : Nat} (hk : k < 2 ^ 19) (he : e < nenv)
    (hlo : k * 4096 ≤ w.toNat) (hhi : w.toNat < k * 4096 + 1024) :
    nextEnvId w e =
      BitVec.ofNat 32 ((if k + 1 < 2 ^ 19 then k + 1 else 1) * 4096 + e) := by
  have hsum : (w + 1#32 <<< envgenshift).toNat = w.toNat + 4096 := by
    rw [show (1#32 : Word) <<< envgenshift = 4096#32 by decide, BitVec.toNat_add]
    exact Nat.mod_eq_of_lt (show w.toNat + 4096 < 2 ^ 32 by omega)
  have hgen : ((w + 1#32 <<< envgenshift) &&& ~~~1023#32).toNat = (k + 1) * 4096 := by
    rw [toNat_clear, hsum]
    omega
  unfold nextEnvId
  dsimp only
  rw [BitVec.toInt_eq_toNat_cond, hgen]
  by_cases hlast : k + 1 < 2 ^ 19
  · rw [if_pos (show 2 * ((k + 1) * 4096) < 2 ^ 32 by omega),
      if_neg (show ¬ (((k + 1) * 4096 : Nat) : Int) ≤ 0 by omega), if_pos hlast,
      ← gen_or_slot hlast he]
    refine congrArg (fun g => g ||| BitVec.ofNat 32 e) (BitVec.eq_of_toNat_eq ?_)
    rw [hgen, BitVec.toNat_ofNat, Nat.mod_eq_of_lt (by omega)]
  · rw [if_neg (show ¬ 2 * ((k + 1) * 4096) < 2 ^ 32 by omega),
      if_pos (show (((k + 1) * 4096 : Nat) : Int) - ((2 ^ 32 : Nat) : Int) ≤ 0 by omega),
      if_neg hlast, ← gen_or_slot (by decide) he]
    rfl

/-- The next id counts one allocation more. -/
theorem nextEnvId_genId {e : Nat} (he : e < nenv) (n : Nat) :
    nextEnvId (genId e n) e = genId e (n + 1) := by
  have hlt : e < 1024 := he
  cases n with
  | zero =>
    have hzero : (genId e 0).toNat = 0 := rfl
    rw [nextEnvId_of_gen (k := 0) (by decide) he (by omega) (by omega)]
    rfl
  | succ n =>
    have hid := toNat_genId he n
    have hgen : n % genPeriod < genPeriod := Nat.mod_lt n (by decide)
    have hnext : (n + 1) % genPeriod = if n % genPeriod + 1 = genPeriod then 0
        else n % genPeriod + 1 := by
      unfold genPeriod
      split <;> omega
    have hmax : genPeriod + 1 = 2 ^ 19 := by decide
    have hcount : (if n % genPeriod + 1 + 1 < 2 ^ 19 then n % genPeriod + 1 + 1 else 1) =
        (n + 1) % genPeriod + 1 := by
      rw [hnext]
      split <;> split <;> omega
    rw [nextEnvId_of_gen (show n % genPeriod + 1 < 2 ^ 19 by omega) he (by omega) (by omega),
      genId, hcount]

/-- Within a period no id comes twice. -/
theorem genId_ne {e n j : Nat} (he : e < nenv) (hj : 0 < j) (hlt : j < genPeriod) :
    genId e (n + 1 + j) ≠ genId e (n + 1) := by
  intro heq
  have hid := congrArg BitVec.toNat heq
  rw [show n + 1 + j = (n + j) + 1 by omega, toNat_genId he, toNat_genId he] at hid
  have hmod : (n + j) % genPeriod = n % genPeriod := by omega
  unfold genPeriod at hmod hlt
  omega

theorem genId_pos {e : Nat} (he : e < nenv) (n : Nat) : 0 < (genId e (n + 1)).toInt := by
  have hid := toNat_genId he n
  have hgen : n % genPeriod < genPeriod := Nat.mod_lt n (by decide)
  have hmax : genPeriod + 1 = 2 ^ 19 := by decide
  have hlt : e < 1024 := he
  rw [BitVec.toInt_eq_toNat_cond, hid, if_pos (by omega)]
  omega

theorem envx_genId {e : Nat} (he : e < nenv) (n : Nat) : envx (genId e (n + 1)) = e := by
  have hlt : e < 1024 := he
  rw [envx, BitVec.toNat_and, toNat_genId he]
  refine (Nat.and_two_pow_sub_one_eq_mod _ 10).trans ?_
  omega

/-! ## Calls -/

inductive Call
  | alloc (parentId : Word)
  | free (c e : Nat)
  | other

/-- What the kernel does between the calls: no slot is taken or given back. -/
structure Undisturbed (s s' : KState) : Prop where
  envFreeList : s'.envFreeList = s.envFreeList
  envLink : ∀ e, (s'.envs e).envLink = (s.envs e).envLink
  envId : ∀ e, (s'.envs e).envId = (s.envs e).envId
  free_iff : ∀ e, (s'.envs e).envStatus = .free ↔ (s.envs e).envStatus = .free

variable (M : Machine)

/-- Sequences of `env_alloc` and `env_free` after `env_init`; an environment that
is freed is not free. -/
def allocator : TransitionSystem KState Call where
  init s := (∃ envs, s.envs = envInit envs) ∧ s.envFreeList = some 0
  step s call s' :=
    match call with
    | .alloc parentId =>
        match envAlloc M s parentId with
        | .ok (_, s₁) => s' = s₁
        | .error _ => s' = s
    | .free c e => e < nenv ∧ (s.envs e).envStatus ≠ .free ∧ envFree M s c e = .ok s'
    | .other => Undisturbed s s'

/-- How often each slot was allocated, and which ids were freed: the slot, the id
and how often the slot had been allocated by then. -/
structure History where
  allocs : Nat → Nat
  retired : List (Nat × Word × Nat)

def History.empty : History := ⟨fun _ => 0, []⟩

namespace History

def alloc (h : History) (e : Nat) : History :=
  { h with allocs := Function.update h.allocs e (h.allocs e + 1) }

def retire (h : History) (e : Nat) (id : Word) : History :=
  { h with retired := (e, id, h.allocs e) :: h.retired }

theorem allocs_alloc_self (h : History) (e : Nat) : (h.alloc e).allocs e = h.allocs e + 1 :=
  Function.update_self ..

theorem allocs_alloc_of_ne (h : History) {e x : Nat} (hx : x ≠ e) :
    (h.alloc e).allocs x = h.allocs x :=
  Function.update_of_ne hx ..

end History

def History.note (s : KState) (call : Call) (s' : KState) (h : History) : History :=
  match call with
  | .alloc _ =>
      match s.envFreeList with
      | some e =>
          if (s'.envs e).envStatus = .free then h else h.alloc e
      | none => h
  | .free _ e => h.retire e (s.envs e).envId
  | .other => h

/-- The calls with their history. -/
def allocations : TransitionSystem (KState × History) Call :=
  (allocator M).monitored .empty History.note

/-- The table of environments as its users rely on it. -/
structure WellAllocated (s : KState) (h : History) : Prop where
  freeList : ∃ l, LinkChain.Visits (fun e => (s.envs e).envLink) s.envFreeList l ∧ l.Nodup ∧
    ∀ e, e ∈ l ↔ e < nenv ∧ (s.envs e).envStatus = .free
  ids : ∀ e, e < nenv → (s.envs e).envStatus ≠ .free →
    0 < (s.envs e).envId.toInt ∧ envx (s.envs e).envId = e
  distinct : ∀ e e', e < nenv → e' < nenv → (s.envs e).envStatus ≠ .free →
    (s.envs e').envStatus ≠ .free → (s.envs e).envId = (s.envs e').envId → e = e'
  failure : ∀ parentId r, envAlloc M s parentId = .error r →
    (s.envFreeList = none ∧ r = -eNoFreeEnv ∨
      pageAlloc s.pm allocZero = (none, s.pm) ∧ r = -eNoMem) ∧
    ∀ s', (allocator M).step s (.alloc parentId) s' → s'.envFreeList = s.envFreeList ∧
      ∀ e, (s'.envs e).envId = (s.envs e).envId ∧ (s'.envs e).envStatus = (s.envs e).envStatus
  stale : ∀ e id n, (e, id, n) ∈ h.retired → h.allocs e < n + (2 ^ 19 - 1) →
    ∀ cur checkperm, envid2env s cur id checkperm = .error (-eBadEnv)

/-! ## The invariant -/

/-- The free list has the free slots, every id counts the allocations of its
slot, and a freed slot stays free until it is allocated again. -/
structure AllocsCounted (s : KState) (h : History) : Prop where
  freeList : ∃ l, LinkChain.Visits (fun e => (s.envs e).envLink) s.envFreeList l ∧
    ∀ e, e ∈ l ↔ e < nenv ∧ (s.envs e).envStatus = .free
  ids : ∀ e, e < nenv → (s.envs e).envId = genId e (h.allocs e)
  live : ∀ e, e < nenv → (s.envs e).envStatus ≠ .free → 0 < h.allocs e
  retired : ∀ e id n, (e, id, n) ∈ h.retired → e < nenv ∧ 0 < n ∧ n ≤ h.allocs e ∧
    id = genId e n ∧ (h.allocs e = n → (s.envs e).envStatus = .free)

variable {M} {s s' : KState} {h : History} {e : Nat}

theorem pageAlloc_none {m m' : PMap} {flags : Nat} (halloc : pageAlloc m flags = (none, m')) :
    m' = m := by
  unfold pageAlloc at halloc
  cases hlist : m.pageFreeList with
  | none =>
    rw [hlist] at halloc
    exact (Prod.mk.inj halloc).2.symm
  | some p =>
    rw [hlist] at halloc
    cases (Prod.mk.inj halloc).1

/-- A failing `env_alloc` has found no slot or no page, and has written nothing. -/
theorem envAlloc_error {parentId : Word} {r : Int} (halloc : envAlloc M s parentId = .error r) :
    s.envFreeList = none ∧ r = -eNoFreeEnv ∨
      pageAlloc s.pm allocZero = (none, s.pm) ∧ r = -eNoMem := by
  unfold envAlloc at halloc
  cases hhead : s.envFreeList with
  | none =>
    rw [hhead] at halloc
    cases halloc
    exact .inl ⟨rfl, rfl⟩
  | some e =>
    rw [hhead] at halloc
    unfold envSetupVm at halloc
    cases hpage : pageAlloc s.pm allocZero with
    | mk p m =>
      cases p with
      | none =>
        simp only [hpage, Except.error_bind_eq] at halloc
        cases halloc
        rw [pageAlloc_none hpage]
        exact .inr ⟨rfl, rfl⟩
      | some p =>
        simp only [hpage, Except.ok_bind_eq] at halloc
        cases halloc

theorem envAlloc_freeList {parentId : Word} (halloc : envAlloc M s parentId = .ok (e, s')) :
    s'.envFreeList = (s.envs e).envLink := by
  unfold envAlloc at halloc
  cases hhead : s.envFreeList with
  | none => simp [hhead] at halloc
  | some e' =>
    rw [hhead] at halloc
    unfold envSetupVm at halloc
    cases hpage : pageAlloc s.pm allocZero with
    | mk p m =>
      cases p with
      | none => simp [hpage] at halloc
      | some p =>
        simp only [hpage, Except.ok_bind_eq] at halloc
        cases halloc
        simp

theorem envFree_freeList {c : Nat} (hfree : envFree M s c e = .ok s') :
    s'.envFreeList = some e := by
  unfold envFree at hfree
  dsimp only at hfree
  generalize (if s.curenv c = some e then s.lcr3 c M.kernPgdir else s) = s₀ at hfree
  cases hd : (s₀.envs e).envPgdir with
  | none => simp [hd] at hfree
  | some d =>
    cases hx : envFreePages M s₀.pm d with
    | error msg =>
      simp only [hd, hx, panics, Except.error_bind_eq] at hfree
      cases hfree
    | ok m =>
      simp only [hd, hx, panics, Except.ok_bind_eq] at hfree
      cases hfree
      rfl

namespace AllocsCounted

theorem init (hinit : (allocator M).init s) : AllocsCounted s .empty := by
  obtain ⟨⟨envs, henvs⟩, hlist⟩ := hinit
  refine ⟨⟨List.range' 0 nenv, ?_, fun e => ?_⟩, fun e _ => ?_, fun e _ hlive => ?_, ?_⟩
  · have hv := visits_envInit nenv 0 (Nat.zero_le _)
    rw [hlist, henvs]
    exact hv
  · rw [henvs, List.mem_range'_1, Nat.zero_add]
    exact ⟨fun he => ⟨he.2, rfl⟩, fun he => ⟨Nat.zero_le _, he.1⟩⟩
  · rw [henvs]
    rfl
  · rw [henvs] at hlive
    exact absurd rfl hlive
  · rintro e id n hmem
    cases hmem

/-- The first free slot is taken for its next generation. -/
theorem alloc (hc : AllocsCounted s h) {parentId : Word} (ha : Alloced s e parentId s')
    (hlist : s'.envFreeList = (s.envs e).envLink) :
    AllocsCounted s' (h.alloc e) ∧ (s'.envs e).envStatus ≠ .free := by
  obtain ⟨l, hv, hl⟩ := hc.freeList
  rw [ha.head] at hv
  obtain ⟨rest, rfl, hrest⟩ := LinkChain.exists_cons hv
  have he := (hl e).mp List.mem_cons_self
  have hnotin : e ∉ rest := (List.nodup_cons.mp (LinkChain.nodup hv)).1
  obtain ⟨d, hself⟩ := ha.self
  have hlink : ∀ x, (s'.envs x).envLink = (s.envs x).envLink := by
    intro x
    by_cases hx : x = e
    · rw [hx, hself]
    · rw [ha.other x hx]
  have hlive : (s'.envs e).envStatus ≠ .free := by
    rw [hself]
    exact EnvStatus.noConfusion
  refine ⟨⟨⟨rest, ?_, fun x => ?_⟩, fun x hx => ?_, fun x hx hne => ?_, fun x id n hmem => ?_⟩,
    hlive⟩
  · rw [hlist]
    exact LinkChain.congr hrest fun x _ => hlink x
  · by_cases hx : x = e
    · rw [hx]
      exact iff_of_false hnotin fun hfree => hlive hfree.2
    · rw [ha.other x hx, ← hl x, List.mem_cons]
      exact ⟨.inr, fun hmem => hmem.resolve_left hx⟩
  · by_cases hxe : x = e
    · rw [hxe, hself, h.allocs_alloc_self]
      dsimp only
      rw [hc.ids e he.1, nextEnvId_genId he.1]
    · rw [ha.other x hxe, h.allocs_alloc_of_ne hxe]
      exact hc.ids x hx
  · by_cases hxe : x = e
    · rw [hxe, h.allocs_alloc_self]
      exact Nat.succ_pos _
    · rw [ha.other x hxe] at hne
      rw [h.allocs_alloc_of_ne hxe]
      exact hc.live x hx hne
  · obtain ⟨hx, hpos, hle, hid, hfree⟩ := hc.retired x id n hmem
    by_cases hxe : x = e
    · subst hxe
      rw [h.allocs_alloc_self]
      exact ⟨hx, hpos, by omega, hid, fun heq => by omega⟩
    · rw [h.allocs_alloc_of_ne hxe, ha.other x hxe]
      exact ⟨hx, hpos, hle, hid, hfree⟩

/-- A slot given back is the first free one. -/
theorem free (hc : AllocsCounted s h) (he : e < nenv) (hlive : (s.envs e).envStatus ≠ .free)
    (hf : Freed s e s') (hlist : s'.envFreeList = some e) :
    AllocsCounted s' (h.retire e (s.envs e).envId) := by
  obtain ⟨l, hv, hl⟩ := hc.freeList
  have hnotin : e ∉ l := fun hmem => hlive ((hl e).mp hmem).2
  have hfree : (s'.envs e).envStatus = .free := by rw [hf.self]
  have hid : ∀ x, (s'.envs x).envId = (s.envs x).envId := by
    intro x
    by_cases hx : x = e
    · rw [hx, hf.self]
    · rw [hf.other x hx]
  have hlink : (fun x => (s'.envs x).envLink) =
      Function.update (fun x => (s.envs x).envLink) e s.envFreeList := by
    funext x
    by_cases hx : x = e
    · rw [hx, hf.self, Function.update_self]
    · rw [hf.other x hx, Function.update_of_ne hx]
  refine ⟨⟨e :: l, ?_, fun x => ?_⟩, fun x hx => ?_, fun x hx hne => ?_, fun x id n hmem => ?_⟩
  · rw [hlist, hlink]
    exact LinkChain.push hv hnotin
  · rw [List.mem_cons]
    by_cases hx : x = e
    · rw [hx]
      exact iff_of_true (.inl rfl) ⟨he, hfree⟩
    · rw [hf.other x hx, ← hl x]
      exact ⟨fun hmem => hmem.resolve_left hx, .inr⟩
  · rw [hid]
    exact hc.ids x hx
  · by_cases hxe : x = e
    · rw [hxe] at hne
      exact absurd hfree hne
    · rw [hf.other x hxe] at hne
      exact hc.live x hx hne
  · rcases List.mem_cons.mp hmem with heq | hmem
    · cases heq
      exact ⟨he, hc.live e he hlive, Nat.le_refl _, hc.ids e he, fun _ => hfree⟩
    · obtain ⟨hx, hpos, hle, hidx, hwas⟩ := hc.retired x id n hmem
      refine ⟨hx, hpos, hle, hidx, fun heq => ?_⟩
      by_cases hxe : x = e
      · rw [hxe]
        exact hfree
      · rw [hf.other x hxe]
        exact hwas heq

theorem other (hc : AllocsCounted s h) (hu : Undisturbed s s') : AllocsCounted s' h := by
  obtain ⟨l, hv, hl⟩ := hc.freeList
  refine ⟨⟨l, ?_, fun x => ?_⟩, fun x hx => ?_, fun x hx hne => ?_, fun x id n hmem => ?_⟩
  · rw [hu.envFreeList]
    exact LinkChain.congr hv fun x _ => hu.envLink x
  · rw [hl x, hu.free_iff x]
  · rw [hu.envId x]
    exact hc.ids x hx
  · exact hc.live x hx fun hfree => hne ((hu.free_iff x).mpr hfree)
  · obtain ⟨hx, hpos, hle, hid, hfree⟩ := hc.retired x id n hmem
    exact ⟨hx, hpos, hle, hid, fun heq => (hu.free_iff x).mpr (hfree heq)⟩

theorem step {call : Call} (hc : AllocsCounted s h) (hstep : (allocator M).step s call s') :
    AllocsCounted s' (h.note s call s') := by
  cases call with
  | alloc parentId =>
    have hmatch : (allocator M).step s (.alloc parentId) s' := hstep
    cases halloc : envAlloc M s parentId with
    | error r =>
      simp only [allocator, halloc] at hmatch
      subst hmatch
      have hnote : h.note s' (.alloc parentId) s' = h := by
        unfold History.note
        cases hhead : s'.envFreeList with
        | none => rfl
        | some e =>
          obtain ⟨l, hv, hl⟩ := hc.freeList
          rw [hhead] at hv
          obtain ⟨rest, rfl, -⟩ := LinkChain.exists_cons hv
          exact if_pos ((hl e).mp List.mem_cons_self).2
      rwa [hnote]
    | ok x =>
      obtain ⟨e, s₁⟩ := x
      simp only [allocator, halloc] at hmatch
      subst hmatch
      have ha := envAlloc_alloced halloc
      obtain ⟨hnext, hlive⟩ := hc.alloc ha (envAlloc_freeList halloc)
      have hnote : h.note s (.alloc parentId) s' = h.alloc e := by
        unfold History.note
        rw [ha.head]
        exact if_neg hlive
      rwa [hnote]
  | free c e =>
    obtain ⟨he, hlive, hfree⟩ := hstep
    exact hc.free he hlive ((envFree_freed M s c e).value hfree) (envFree_freeList hfree)
  | other => exact hc.other hstep

theorem envId_eq (hc : AllocsCounted s h) (he : e < nenv) (hlive : (s.envs e).envStatus ≠ .free) :
    ∃ n, h.allocs e = n + 1 ∧ (s.envs e).envId = genId e (n + 1) := by
  obtain ⟨n, hn⟩ := Nat.exists_eq_succ_of_ne_zero (Nat.ne_of_gt (hc.live e he hlive))
  refine ⟨n, hn, ?_⟩
  rw [hc.ids e he, hn]

/-- The id of a slot that is live names the slot. -/
theorem envx_envId (hc : AllocsCounted s h) (he : e < nenv)
    (hlive : (s.envs e).envStatus ≠ .free) : envx (s.envs e).envId = e := by
  obtain ⟨n, -, hid⟩ := hc.envId_eq he hlive
  rw [hid, envx_genId he]

/-- A freed id names nothing for a period. -/
theorem stale (hc : AllocsCounted s h) {id : Word} {n : Nat} (hmem : (e, id, n) ∈ h.retired)
    (hlt : h.allocs e < n + genPeriod) (cur : Nat) (checkperm : Bool) :
    envid2env s cur id checkperm = .error (-eBadEnv) := by
  obtain ⟨he, hpos, hle, rfl, hfree⟩ := hc.retired e id n hmem
  obtain ⟨k, rfl⟩ := Nat.exists_eq_succ_of_ne_zero (Nat.ne_of_gt hpos)
  have hne : genId e (k + 1) ≠ 0#32 := by
    intro hzero
    have hidpos := genId_pos he k
    rw [hzero] at hidpos
    exact absurd hidpos (by decide)
  unfold envid2env
  dsimp only
  rw [if_neg hne, envx_genId he, if_pos]
  by_cases hnow : h.allocs e = k + 1
  · exact .inl (hfree hnow)
  · right
    rw [hc.ids e he]
    obtain ⟨j, hj⟩ := Nat.exists_eq_add_of_le hle
    rw [hj]
    exact genId_ne he (by omega) (by omega)

end AllocsCounted

theorem allocsCounted_of_reach {x : KState × History}
    (hr : Reach (allocations M) anyEvent x) : AllocsCounted x.1 x.2 := by
  have hinit : ∀ x, (allocations M).init x → AllocsCounted x.1 x.2 := by
    rintro x ⟨hs, hh⟩
    rw [hh]
    exact AllocsCounted.init hs
  have hstep : ∀ x call y, AllocsCounted x.1 x.2 → anyEvent x call →
      (allocations M).step x call y → AllocsCounted y.1 y.2 := by
    rintro x call y hx - ⟨hs, hh⟩
    rw [hh]
    exact hx.step hs
  exact hr.invariant hinit hstep

theorem wellAllocated_of_reach {x : KState × History}
    (hr : Reach (allocations M) anyEvent x) : WellAllocated M x.1 x.2 := by
  have hc := allocsCounted_of_reach hr
  obtain ⟨l, hv, hl⟩ := hc.freeList
  exact {
    freeList := ⟨l, hv, LinkChain.nodup hv, hl⟩
    ids := fun e he hlive => by
      obtain ⟨n, -, hid⟩ := hc.envId_eq he hlive
      rw [hid]
      exact ⟨genId_pos he n, envx_genId he n⟩
    distinct := fun e e' he he' hlive hlive' hid => by
      have hx := hc.envx_envId he hlive
      rw [hid, hc.envx_envId he' hlive'] at hx
      exact hx.symm
    failure := fun parentId r hfail => by
      refine ⟨envAlloc_error hfail, fun s' hstep => ?_⟩
      simp only [allocator, hfail] at hstep
      rw [hstep]
      exact ⟨rfl, fun e => ⟨rfl, rfl⟩⟩
    stale := fun e id n hmem hlt cur checkperm => hc.stale hmem hlt cur checkperm }

/-! ## A slot used twice -/

/-- One call of `env_alloc` or `env_free` that succeeds, with its history. -/
def nextCall (M : Machine) (x : KState × History) (call : Call) : Option (KState × History) :=
  match call with
  | .alloc parentId =>
      match envAlloc M x.1 parentId with
      | .ok (_, s) => some (s, x.2.note x.1 call s)
      | .error _ => none
  | .free c e =>
      if e < nenv ∧ (x.1.envs e).envStatus ≠ .free then
        match envFree M x.1 c e with
        | .ok s => some (s, x.2.note x.1 call s)
        | .error _ => none
      else none
  | .other => none

theorem step_of_nextCall (x : KState × History) (call : Call) (y : KState × History)
    (hn : nextCall M x call = some y) : (allocations M).step x call y := by
  cases call with
  | alloc parentId =>
    unfold nextCall at hn
    dsimp only at hn
    split at hn
    · rename_i halloc
      cases hn
      refine ⟨?_, rfl⟩
      simp only [allocator, halloc]
    · cases hn
  | free c e =>
    unfold nextCall at hn
    dsimp only at hn
    split at hn
    · rename_i he
      split at hn
      · rename_i hfree
        cases hn
        exact ⟨⟨he.1, he.2, hfree⟩, rfl⟩
      · cases hn
    · cases hn
  | other => cases hn

theorem wellAllocated_pc : ∃ x, Reach (allocations (pc .roundRobin)) anyEvent x ∧
    x.2.retired = [(0, 0x1000#32, 1)] ∧ (x.1.envs 0).envId = 0x2000#32 ∧
    WellAllocated (pc .roundRobin) x.1 x.2 := by
  have hrun : ([Call.alloc 0#32, .free 0 0, .alloc 0#32].foldlM (nextCall (pc .roundRobin))
      (pcBoot, .empty)).any (fun x => x.2.retired = [(0, 0x1000#32, 1)] ∧
        (x.1.envs 0).envId = 0x2000#32) = true := by decide +kernel
  have hboot : Reach (allocations (pc .roundRobin)) anyEvent (pcBoot, .empty) :=
    .init ⟨⟨⟨_, rfl⟩, rfl⟩, rfl⟩
  obtain ⟨x, hr, hx⟩ := hboot.exists_of_foldlM
    (fun y call _ z hn => ⟨trivial, step_of_nextCall y call z hn⟩) hrun
  obtain ⟨hretired, hid⟩ := of_decide_eq_true hx
  exact ⟨x, hr, hretired, hid, wellAllocated_of_reach hr⟩

end Jos
end Sisop

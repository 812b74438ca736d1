import Sisop.Jos.KernelInv

/-!
# Every kernel entry keeps memory and the table in agreement

The system calls, the traps and the rest of the steps of the kernel, one after
the other, from the specifications of the functions they call.  `base_reach` puts
them together: in every run in which every page mapped fits and no environment
is freed while another CPU runs it, `BaseInv` holds of every state.
-/

namespace Sisop
namespace Jos

open RefCount Exit TransitionSystem

theorem envx_lt (envid : Word) : envx envid < nenv := by
  rw [envx, BitVec.toNat_and]
  exact Nat.lt_of_le_of_lt Nat.and_le_right (by decide)

/-- A new id names the slot it was made for. -/
theorem envx_nextEnvId (envId : Word) {e : Nat} (he : e < nenv) : envx (nextEnvId envId e) = e := by
  have hgen : ∀ g : Word, g &&& 1023#32 = 0#32 → envx (g ||| BitVec.ofNat 32 e) = e := by
    intro g hg
    rw [envx, BitVec.and_comm, BitVec.and_or_distrib_left, BitVec.and_comm, hg, BitVec.zero_or,
      BitVec.toNat_and, BitVec.toNat_ofNat, BitVec.toNat_ofNat]
    unfold nenv at he
    rw [Nat.mod_eq_of_lt (show e < 2 ^ 32 by omega), Nat.and_comm]
    exact (Nat.and_two_pow_sub_one_eq_mod e 10).trans (Nat.mod_eq_of_lt he)
  unfold nextEnvId
  dsimp only
  split
  · exact hgen _ (by decide)
  · refine hgen _ ?_
    rw [BitVec.and_assoc, show ~~~1023#32 &&& 1023#32 = (0#32 : Word) by decide, BitVec.and_zero]

section

variable {M : Machine} {K : Nat → Prop} {s : KState} {c cur e : Nat}

/-! ## New environments -/

/-- `env_alloc` takes the first free slot and gives it an address space. -/
theorem BaseInv.envAlloc_post (h : BaseInv M K s) (parentId : Word) :
    Post (envAlloc M s parentId)
      (fun x => BaseInv M K x.2 ∧ x.2.cpus = s.cpus ∧ (x.2.envs x.1).envStatus = .runnable ∧
        ∀ y, (s.envs y).envPgdir ≠ none → y ≠ x.1 ∧ x.2.envs y = s.envs y)
      fun _ => True := by
  obtain ⟨l, hl, hall⟩ := h.freeEnvs
  unfold envAlloc
  cases hhead : s.envFreeList with
  | none => exact post_error.mpr trivial
  | some e =>
      rw [hhead] at hl
      obtain ⟨rest, rfl, hrest⟩ := LinkChain.exists_cons hl
      obtain ⟨hlt, hst⟩ := hall e List.mem_cons_self
      have her : e ∉ rest := (List.nodup_cons.mp (LinkChain.nodup hl)).1
      have hnone : s.dirs e = none := (h.status_iff e hlt).mp hst
      obtain ⟨free, hp⟩ := h.pages
      cases free with
      | nil =>
          have halloc := hp.pageAlloc_nil allocZero
          simp only [envSetupVm, halloc, Except.error_bind_eq, post_error]
      | cons p free =>
          obtain ⟨m', halloc, hp', -, -⟩ := hp.setupVm_spec hlt hnone
          simp only [envSetupVm, halloc, Except.ok_bind_eq, post_pure]
          have henv : ∀ (g : Env → Env) (x : Nat),
              ((({ s with pm := initPgdir M m' p } : KState).setEnv e fun env =>
                { env with envPgdir := some p }).setEnv e g).envs x =
                if x = e then g { s.envs e with envPgdir := some p } else s.envs x := by
            intro g x
            rw [KState.envs_setEnv, KState.envs_setEnv_self, KState.envs_setEnv]
            split <;> rfl
          have hcurne : ∀ c' x, s.curenv c' = some x → x ≠ e := by
            rintro c' x hc rfl
            exact h.cur_dir hc hnone
          refine ⟨⟨⟨free, ?_⟩, ⟨rest, ?_, ?_⟩, ?_, ?_, ?_, h.halted, ?_⟩, rfl, ?_,
            fun y hy => ?_⟩
          · refine Eq.mp (congrArg (fun d => PageInv M K _ d free fun _ => 0) ?_) hp'
            funext x
            rw [Function.update_apply]
            show _ = (KState.envs _ x).envPgdir
            rw [henv]
            split <;> rfl
          · show LinkChain.Visits _ (KState.envs _ e).envLink rest
            rw [henv, if_pos rfl]
            refine LinkChain.congr hrest fun x hx => ?_
            have hxe : x ≠ e := fun heq => her (heq ▸ hx)
            show (KState.envs _ x).envLink = _
            rw [henv, if_neg hxe]
          · intro x hx
            have hxe : x ≠ e := fun heq => her (heq ▸ hx)
            show x < nenv ∧ (KState.envs _ x).envStatus = .free
            rw [henv, if_neg hxe]
            exact hall x (List.mem_cons_of_mem e hx)
          · intro x hx
            show (KState.envs _ x).envStatus = .free ↔ (KState.envs _ x).envPgdir = none
            rw [henv]
            split
            · exact iff_of_false (fun h0 => EnvStatus.noConfusion h0) (Option.some_ne_none p)
            · exact h.status_iff x hx
          · intro x
            show (KState.envs _ x).envPgdir ≠ none → envx (KState.envs _ x).envId = x
            rw [henv]
            split
            · rename_i hx
              intro _
              rw [hx]
              exact envx_nextEnvId _ hlt
            · exact h.ids x
          · intro c' x hc
            show (KState.envs _ x).envPgdir = _
            rw [henv, if_neg (hcurne c' x hc)]
            exact h.cpu c' x hc
          · intro x
            show (KState.envs _ x).envIpcDstva < utop
            rw [henv]
            split
            · exact h.dstva e
            · exact h.dstva x
          · show (KState.envs _ e).envStatus = .runnable
            rw [henv, if_pos rfl]
          · have hye : y ≠ e := by
              rintro rfl
              exact hy hnone
            refine ⟨hye, ?_⟩
            show KState.envs _ y = _
            rw [henv, if_neg hye]

theorem curenv_cpuStarted (s : KState) (c c' : Nat) : (cpuStarted s c).curenv c' = s.curenv c' := by
  rw [KState.curenv, cpuStarted, KState.cpus_setCpu]
  split
  · rename_i hc
    rw [hc]
    rfl
  · rfl

theorem envid2env_error {envid : Word} {checkperm : Bool} {r : Int}
    (h : envid2env s cur envid checkperm = .error r) : r = -eBadEnv := by
  unfold envid2env at h
  split at h
  · cases h
  · dsimp only at h
    split at h
    · exact (Except.error.inj h).symm
    · split at h
      · exact (Except.error.inj h).symm
      · cases h

theorem envid2env_neg {envid : Word} {checkperm : Bool} {r : Int}
    (h : envid2env s cur envid checkperm = .error r) : r < 0 := by
  rw [envid2env_error h]
  decide

/-- The flags `sys_page_map` adds do not ask for a writable page. -/
theorem flags_and_pteW (perm : Word) : (pteP ||| pteU ||| perm) &&& pteW = perm &&& pteW := by
  rw [BitVec.and_comm, BitVec.and_or_distrib_left,
    show pteW &&& (pteP ||| pteU) = 0#32 by decide, BitVec.zero_or, BitVec.and_comm]

/-- The environment an id names has an address space, when the caller has one. -/
theorem BaseInv.envid2env_dir (h : BaseInv M K s) (hcur : (s.envs cur).envPgdir ≠ none)
    {envid : Word} {checkperm : Bool} (he : envid2env s cur envid checkperm = .ok e) :
    (s.envs e).envPgdir ≠ none := by
  unfold envid2env at he
  split at he
  · cases he
    exact hcur
  · dsimp only at he
    split at he
    · cases he
    · rename_i hbad
      rw [not_or, not_not] at hbad
      split at he
      · cases he
      · cases he
        exact h.dir_of_status (envx_lt envid) hbad.1

/-- The state of a syscall of `cur` on CPU `c`. -/
structure Calling (M : Machine) (K : Nat → Prop) (c cur : Nat) (s : KState) : Prop
    extends InKernel M K c s where
  curenv : s.curenv c = some cur

namespace Calling

theorem dir (h : Calling M K c cur s) : (s.envs cur).envPgdir ≠ none := h.base.cur_dir h.curenv

theorem cr3 (h : Calling M K c cur s) : s.dirs cur = some (s.cpus c).cr3 :=
  h.base.cpu c cur h.curenv

theorem setEnv (h : Calling M K c cur s) {f : Env → Env}
    (hf : SameSlot (s.envs e) (f (s.envs e)))
    (hst : (f (s.envs e)).envStatus = (s.envs e).envStatus) : Calling M K c cur (s.setEnv e f) :=
  ⟨h.toInKernel.setEnv hf hst, h.curenv⟩

theorem setEnvStatus (h : Calling M K c cur s) {f : Env → Env}
    (hf : SameSlot (s.envs e) (f (s.envs e))) (hlt : e = cur → e + 1 < nenv) :
    Calling M K c cur (s.setEnv e f) :=
  ⟨h.toInKernel.setEnvStatus hf fun hc => hlt (Option.some.inj (hc.symm.trans h.curenv)), h.curenv⟩

/-- The caller may yield the CPU. -/
theorem schedYield_landing (h : Calling M K c cur s) (hlt : cur + 1 < nenv) :
    Landing (BaseInv M K) (schedYield M s c) :=
  h.toInKernel.schedYield_landing fun _ hc => Option.some.inj (h.curenv.symm.trans hc) ▸ hlt

theorem setPm (h : Calling M K c cur s) {m : PMap}
    (hm : ∃ free, PageInv M K m s.dirs free fun _ => 0) :
    Calling M K c cur { s with pm := m } :=
  ⟨h.toInKernel.setPm hm, h.curenv⟩

theorem envid2env_dir (h : Calling M K c cur s) {envid : Word} {checkperm : Bool}
    (he : envid2env s cur envid checkperm = .ok e) : (s.envs e).envPgdir ≠ none :=
  h.base.envid2env_dir h.dir he

theorem envAlloc_post (h : Calling M K c cur s) (parentId : Word) :
    Post (envAlloc M s parentId)
      (fun x => Calling M K c cur x.2 ∧ (x.2.envs x.1).envStatus = .runnable ∧ x.1 ≠ cur)
      fun _ => True := by
  refine (h.base.envAlloc_post parentId).imp ?_ fun _ _ => trivial
  rintro ⟨e, s'⟩ ⟨hb, hcpus, hst, hother⟩
  dsimp only at hb hcpus hst hother
  have hcur : s'.curenv c = s.curenv c := by rw [KState.curenv, hcpus]; rfl
  refine ⟨⟨⟨hb, ?_, fun x hx => ?_⟩, hcur.trans h.curenv⟩, hst, (hother cur h.dir).1.symm⟩
  · rw [hcpus]
    exact h.started
  · rw [hcur] at hx
    rw [(hother x (h.base.cur_dir hx)).2]
    exact h.inTable x hx

/-! ## System calls -/

/-- What a call leaves when it returns, and when it does not. -/
def Returns (M : Machine) (K : Nat → Prop) (c cur : Nat) (x : Except Stop (Int × KState)) : Prop :=
  Post x (fun x => Calling M K c cur x.2) (Landing (BaseInv M K))

theorem returns_ok {r : Int} (h : Calling M K c cur s) : Returns M K c cur (.ok (r, s)) :=
  post_ok.mpr h

theorem withPm_post (h : Calling M K c cur s) {x : Except String (Int × PMap)}
    {E : String → Prop}
    (hx : Post x (fun x => ∃ free, PageInv M K x.2 s.dirs free fun _ => 0) E) :
    Post (withPm s x) (fun y => Calling M K c cur y.2 ∧ y.2.envs = s.envs)
      (Landing (BaseInv M K)) := by
  unfold withPm
  refine (post_panics hx).bind fun x hm => ?_
  exact post_pure.mpr ⟨h.setPm hm, rfl⟩

theorem withPm_returns (h : Calling M K c cur s) {x : Except String (Int × PMap)}
    {E : String → Prop}
    (hx : Post x (fun x => ∃ free, PageInv M K x.2 s.dirs free fun _ => 0) E) :
    Returns M K c cur (withPm s x) :=
  (h.withPm_post hx).imp (fun _ hy => hy.1) fun _ hl => hl

theorem pdx_of_not_badVa {va : Word} (h : ¬ badVa va) : pdx va < pdxUtop := by
  rw [pdx_lt_pdxUtop_iff]
  rw [badVa, not_or] at h
  exact BitVec.not_le.mp h.1

theorem sysExofork_calling (h : Calling M K c cur s) :
    Calling M K c cur (sysExofork M s cur).2 := by
  have halloc := h.envAlloc_post (s.envs cur).envId
  unfold sysExofork
  cases hx : envAlloc M s (s.envs cur).envId with
  | error r => exact h
  | ok x =>
      obtain ⟨hcall, hst, hne⟩ := halloc.value hx
      dsimp only
      refine hcall.setEnvStatus
        ⟨rfl, rfl, rfl, iff_of_false (fun h0 => EnvStatus.noConfusion h0) ?_, id⟩
        fun heq => absurd heq hne
      rw [hst]
      decide

theorem settableStatus_ne_free {status : Word} {st : EnvStatus}
    (h : settableStatus status = some st) : st ≠ .free := by
  unfold settableStatus at h
  rintro rfl
  split at h
  · cases h
  · split at h <;> cases h

theorem sysEnvSetStatus_calling (h : Calling M K c cur s) {envid status : Word}
    (hlt : settableStatus status ≠ none ∧ envid2env s cur envid true = .ok cur → cur + 1 < nenv) :
    Calling M K c cur (sysEnvSetStatus s cur envid status).2 := by
  unfold sysEnvSetStatus
  cases hset : settableStatus status with
  | none => exact h
  | some st =>
      dsimp only
      cases he : envid2env s cur envid true with
      | error r => exact h
      | ok e =>
          dsimp only
          refine h.setEnvStatus
            ⟨rfl, rfl, rfl, iff_of_false (settableStatus_ne_free hset) ?_, id⟩ ?_
          · exact h.base.not_free (h.envid2env_dir he)
          · rintro rfl
            exact hlt ⟨by rw [hset]; exact Option.some_ne_none st, he⟩

theorem sysEnvSetPriority_calling (h : Calling M K c cur s) (envid : Word) (priority : Int) :
    Calling M K c cur (sysEnvSetPriority s cur envid priority).2 := by
  unfold sysEnvSetPriority
  split
  · exact h
  · cases envid2env s cur envid false with
    | error r => exact h
    | ok e =>
        dsimp only
        exact h.setEnv ⟨rfl, rfl, rfl, Iff.rfl, id⟩ rfl

theorem sysPageAlloc_returns (h : Calling M K c cur s) (envid va perm : Word) :
    Returns M K c cur (sysPageAlloc M s cur envid va perm) := by
  unfold sysPageAlloc
  by_cases hva : badVa va
  · rw [if_pos hva]
    exact returns_ok h
  · rw [if_neg hva]
    cases he : envid2env s cur envid true with
    | error r => exact returns_ok h
    | ok e =>
        obtain ⟨d, hd⟩ := Option.ne_none_iff_exists'.mp (h.envid2env_dir he)
        obtain ⟨free, hp⟩ := h.base.pages
        dsimp only
        rw [hd]
        refine h.withPm_returns ((hp.envPageAlloc_spec hd (pdx_of_not_badVa hva) _).imp ?_
          fun _ hf => hf)
        exact fun x hx => hx.1

theorem sysPageMap_returns (h : Calling M K c cur s) {srcenvid srcva dstenvid dstva perm : Word}
    (hfit : MapFits s cur srcenvid srcva dstenvid dstva perm) :
    Returns M K c cur (sysPageMap M s cur srcenvid srcva dstenvid dstva perm) := by
  unfold sysPageMap
  by_cases hsva : badVa srcva
  · rw [if_pos hsva]
    exact returns_ok h
  · rw [if_neg hsva]
    by_cases hdva : badVa dstva
    · rw [if_pos hdva]
      exact returns_ok h
    · rw [if_neg hdva]
      cases hse : envid2env s cur srcenvid true with
      | error r => exact returns_ok h
      | ok src =>
          cases hde : envid2env s cur dstenvid true with
          | error r => exact returns_ok h
          | ok dst =>
              obtain ⟨sd, hsd⟩ := Option.ne_none_iff_exists'.mp (h.envid2env_dir hse)
              obtain ⟨dd, hdd⟩ := Option.ne_none_iff_exists'.mp (h.envid2env_dir hde)
              obtain ⟨free, hp⟩ := h.base.pages
              dsimp only
              rw [hsd, hdd]
              refine h.withPm_returns ((hp.envPageMap_spec hsd (pdx_of_not_badVa hsva) hdd
                (pdx_of_not_badVa hdva) ?_).imp (fun x hx => hx.1) fun _ hf => hf)
              intro hw hne
              have hpg : pgnum (pteP ||| pteU ||| perm) = pgnum perm := by
                rw [pgnum_or, pgnum_or, pgnum_pteP, pgnum_pteU, Nat.zero_or, Nat.zero_or]
              rw [flags_and_pteW] at hw
              rw [hpg]
              exact hfit hsva hdva src dst hse hde hw hne

theorem sysPageUnmap_returns (h : Calling M K c cur s) (envid va : Word) :
    Returns M K c cur (sysPageUnmap M s cur envid va) := by
  unfold sysPageUnmap
  by_cases hva : badVa va
  · rw [if_pos hva]
    exact returns_ok h
  · rw [if_neg hva]
    cases he : envid2env s cur envid true with
    | error r => exact returns_ok h
    | ok e =>
        obtain ⟨d, hd⟩ := Option.ne_none_iff_exists'.mp (h.envid2env_dir he)
        obtain ⟨free, hp⟩ := h.base.pages
        obtain ⟨m', free', hrem, hp', _⟩ := hp.pageRemove_spec hd (pdx_of_not_badVa hva)
        dsimp only
        rw [hd, hrem]
        exact post_pure.mpr (h.setPm ⟨free', hp'⟩)

/-- `user_mem_assert` either changes nothing or destroys the environment. -/
theorem userMemAssert_post (h : Calling M K c cur s) (he : (s.envs e).envPgdir ≠ none)
    {va len perm : Word}
    (hother : checkFails M s e va len perm = true →
      ¬ ((s.envs e).envStatus = .running ∧ e ≠ cur) → ¬ elsewhere s c e) :
    Post (userMemAssert M s c e va len perm)
      (fun s' => Calling M K c cur s' ∧ (s' = s ∨ e ≠ cur)) (Landing (BaseInv M K)) := by
  unfold userMemAssert
  cases hx : userMemCheck M s.pm (s.envs e).envPgdir va len (perm ||| pteU) with
  | error msg => exact post_error.mpr trivial
  | ok res =>
      cases res with
      | none => exact post_pure.mpr ⟨h, .inl rfl⟩
      | some a =>
          have hfails : checkFails M s e va len perm = true := by
            unfold checkFails
            rw [hx]
          refine (h.envDestroy_post he fun hrun => hother hfails ?_).imp ?_ fun _ hl => hl
          · rw [h.curenv] at hrun
            exact fun hne => hrun ⟨hne.1, fun heq => hne.2 (Option.some.inj heq).symm⟩
          · rintro s' ⟨hk, hcur, hne⟩
            refine ⟨⟨hk, hcur.trans h.curenv⟩, .inr ?_⟩
            rintro rfl
            exact hne h.curenv

theorem sysCputs_returns (h : Calling M K c cur s) {a len : Word}
    (hother : checkFails M s cur a len (pteP ||| pteW ||| pteU) = true → ¬ elsewhere s c cur) :
    Returns M K c cur (sysCputs M s c cur a len) := by
  unfold sysCputs
  refine Post.bind (h.userMemAssert_post h.dir fun hf _ => hother hf) fun s' hs' => ?_
  exact post_pure.mpr hs'.1

theorem sysEnvSetPgfaultUpcall_returns (h : Calling M K c cur s) {envid func : Word}
    (hother : ∀ e, envid2env s cur envid true = .ok e →
      checkFails M s e func 4096#32 (pteP ||| pteU) = true →
      ¬ ((s.envs e).envStatus = .running ∧ e ≠ cur) → ¬ elsewhere s c e) :
    Returns M K c cur (sysEnvSetPgfaultUpcall M s c cur envid func) := by
  unfold sysEnvSetPgfaultUpcall
  cases he : envid2env s cur envid true with
  | error r => exact returns_ok h
  | ok e =>
      refine Post.bind (h.userMemAssert_post (h.envid2env_dir he) (hother e he)) fun s' hs' => ?_
      refine post_pure.mpr ?_
      dsimp only
      exact hs'.1.setEnv ⟨rfl, rfl, rfl, Iff.rfl, id⟩ rfl

theorem sysEnvDestroy_returns (h : Calling M K c cur s) {envid : Word}
    (hother : ∀ e, envid2env s cur envid true = .ok e →
      ¬ ((s.envs e).envStatus = .running ∧ e ≠ cur) → ¬ elsewhere s c e) :
    Returns M K c cur (sysEnvDestroy M s c cur envid) := by
  unfold sysEnvDestroy
  cases he : envid2env s cur envid true with
  | error r => exact returns_ok h
  | ok e =>
      refine Post.bind (h.envDestroy_post (h.envid2env_dir he) fun hrun => hother e he ?_)
        fun s' hs' => post_pure.mpr ⟨hs'.1, hs'.2.1.trans h.curenv⟩
      rw [h.curenv] at hrun
      exact fun hne => hrun ⟨hne.1, fun heq => hne.2 (Option.some.inj heq).symm⟩

/-! ## Messages -/

/-- A page can still be mapped once more after a fresh page took the place of
another somewhere. -/
theorem room_after_alloc {m m' : PMap} {dirs : Nat → Option Nat} {free free' : List Nat}
    {e' i j p src si sj : Nat} {perm : Word} (h : PageInv M K m dirs free fun _ => 0)
    (h' : PageInv M K m' dirs free' fun _ => 0) (hp : p ∈ free) (hperm : perm.toNat < 4096)
    (hwords : ∀ x y z, pteWord m' dirs x y z =
      if x = e' ∧ y = i ∧ z = j then page2pa p ||| perm ||| pteP else pteWord m dirs x y z)
    (hroom : pteWord m dirs src si sj ≠ 0#32 →
      refs slots (target m dirs) (pgnum (pteWord m dirs src si sj)) < 65535)
    (hne : pteWord m' dirs src si sj ≠ 0#32) :
    refs slots (target m' dirs) (pgnum (pteWord m' dirs src si sj)) < 65535 := by
  have hplt : p < 2 ^ 20 := (h.free_pool p hp).lt
  have hent : pgnum (page2pa p ||| perm ||| pteP) = p :=
    pgnum_entry hplt (by rw [pgnum_eq_zero hperm, Nat.or_zero])
  have htgt : target m' dirs (.pte src si sj) = some (pgnum (pteWord m' dirs src si sj)) :=
    entry_of_ne hne
  have hkeep : ∀ x q, target m' dirs x = some q → x.isPte → q ≠ p → target m dirs x = some q := by
    intro x q hx hpte hqp
    cases x with
    | dir _ => exact hpte.elim
    | pde _ _ => exact hpte.elim
    | pte x y z =>
        simp only [target] at hx ⊢
        rw [hwords] at hx
        split at hx
        · rw [entry_of_ne (or_pteP_ne_zero _), hent] at hx
          exact absurd (Option.some.inj hx).symm hqp
        · exact hx
  have hptes : ∀ x, target m' dirs x = some (pgnum (pteWord m' dirs src si sj)) → x.isPte :=
    (h'.data_of_pte htgt).2
  by_cases hqp : pgnum (pteWord m' dirs src si sj) = p
  · have hone : refs slots (target m' dirs) p ≤ ({Slot.pte e' i j} : Finset Slot).card := by
      refine refs_le_card fun x _ hx => ?_
      rw [← hqp] at hx
      have hpte := hptes x hx
      cases x with
      | dir _ => exact hpte.elim
      | pde _ _ => exact hpte.elim
      | pte x y z =>
          simp only [target] at hx
          rw [hwords] at hx
          split at hx
          · rename_i heq
            obtain ⟨rfl, rfl, rfl⟩ := heq
            exact Finset.mem_singleton_self _
          · rw [hqp] at hx
            exact absurd hx (h.free_unref p hp (.pte x y z))
    rw [hqp]
    rw [Finset.card_singleton] at hone
    omega
  · have hold := hkeep _ _ htgt trivial hqp
    obtain ⟨hne₀, hpg⟩ := entry_eq_some.mp hold
    refine Nat.lt_of_le_of_lt (refs_mono fun x _ hx => hkeep x _ hx (hptes x hx) hqp) ?_
    rw [← hpg]
    exact hroom hne₀

theorem ipcTransfer_post (h : Calling M K c cur s) {dst : Nat} {srcva perm : Word}
    (hdst : (s.envs dst).envPgdir ≠ none) (hva : ¬ badVa srcva)
    (hroom : wordAt s cur srcva ≠ 0#32 →
      refs slots (target s.pm s.dirs) (pgnum (wordAt s cur srcva)) < 65535) :
    Post (ipcTransfer M s cur dst srcva perm)
      (fun y => Calling M K c cur y.2 ∧ y.2.envs = s.envs) (Landing (BaseInv M K)) := by
  obtain ⟨dd, hdd⟩ := Option.ne_none_iff_exists'.mp hdst
  obtain ⟨sd, hsd⟩ := Option.ne_none_iff_exists'.mp h.dir
  obtain ⟨free, hp⟩ := h.base.pages
  have hi : pdx (s.envs dst).envIpcDstva < pdxUtop := by
    rw [pdx_lt_pdxUtop_iff]
    exact h.base.dstva dst
  have hspec := hp.envPageAlloc_spec hdd hi perm
  unfold ipcTransfer withPm
  dsimp only
  rw [hdd]
  cases hx : envPageAlloc M s.pm (some dd) (s.envs dst).envIpcDstva perm with
  | error msg => exact (hspec.exit hx).elim
  | ok x =>
      obtain ⟨r, m⟩ := x
      obtain ⟨⟨free', hp'⟩, hcases⟩ := hspec.value hx
      have hcall : Calling M K c cur { s with pm := m } := h.setPm ⟨free', hp'⟩
      simp only [panics, Except.ok_bind_eq]
      rw [show (pure (r, ({ s with pm := m } : KState)) : Except Stop (Int × KState)) =
        .ok (r, { s with pm := m }) from rfl, Except.ok_bind_eq]
      dsimp only
      rcases hcases with ⟨hneg, _⟩ | ⟨hzero, hlow, p, hpf, hwords⟩
      · rw [if_pos hneg]
        exact post_pure.mpr ⟨hcall, rfl⟩
      · rw [if_neg (by simp only at hzero; omega), hsd, hdd]
        refine hcall.withPm_post (E := fun _ => False)
          ((hp'.envPageMap_spec hsd (pdx_of_not_badVa hva) hdd hi ?_).imp (fun x hx => hx.1)
            fun _ hf => hf)
        intro _ hne
        refine ⟨?_, room_after_alloc hp hp' hpf hlow hwords hroom hne⟩
        rw [pgnum_eq_zero hlow, Nat.or_zero]

/-- The end of a send leaves the table well formed. -/
theorem ipcDeliver_calling (h : Calling M K c cur s) {dst : Nat} (value : Word)
    (hdst : (s.envs dst).envStatus ≠ .free) (hlt : dst = cur → dst + 1 < nenv) :
    Calling M K c cur (ipcDeliver s cur dst value) :=
  h.setEnvStatus ⟨rfl, rfl, rfl, iff_of_false (fun h0 => EnvStatus.noConfusion h0) hdst, id⟩ hlt

theorem sysIpcTrySend_returns (h : Calling M K c cur s) {envid value srcva perm : Word}
    {junk : Option Word} (hfit : SendFits s cur envid srcva)
    (hself : envid2env s cur envid false = .ok cur ∧ (s.envs cur).envIpcRecving = true →
      cur + 1 < nenv) :
    Returns M K c cur (sysIpcTrySend M s cur envid value srcva perm junk) := by
  unfold sysIpcTrySend
  cases he : envid2env s cur envid false with
  | error r => exact returns_ok h
  | ok dst =>
      have hdir := h.envid2env_dir he
      have hst := h.base.not_free hdir
      dsimp only
      by_cases hrecv : (s.envs dst).envIpcRecving = true
      · have hlt : dst = cur → dst + 1 < nenv := by
          rintro rfl
          exact hself ⟨he, hrecv⟩
        rw [if_neg (not_not.mpr hrecv)]
        by_cases htop : utop ≤ srcva
        · rw [if_pos htop]
          refine returns_ok
            (ipcDeliver_calling (h.setEnv ⟨rfl, rfl, rfl, Iff.rfl, id⟩ rfl) value ?_ hlt)
          rw [KState.envs_setEnv_self]
          exact hst
        · rw [if_neg htop]
          by_cases hmis : srcva % 4096#32 ≠ 0#32
          · rw [if_pos hmis]
            exact returns_ok h
          · rw [if_neg hmis]
            have hva : ¬ badVa srcva := fun hb => hb.elim htop hmis
            have hsrc : Post (ipcSrcpte M s cur srcva junk) (fun _ => True)
                (Landing (BaseInv M K)) := by
              unfold ipcSrcpte
              refine Post.bind (Q := fun _ => True)
                (post_panics (E := fun _ => True) ?_) fun x _ => ?_
              · cases pageLookup M s.pm (s.envs cur).envPgdir srcva with
                | error msg => exact post_error.mpr trivial
                | ok x => exact post_ok.mpr trivial
              · cases x with
                | some x => exact post_pure.mpr trivial
                | none =>
                    cases junk with
                    | none => exact post_error.mpr trivial
                    | some w => exact post_pure.mpr trivial
            refine hsrc.bind fun srcpte _ => ?_
            split
            · exact returns_ok h
            · split
              · exact returns_ok h
              · by_cases hz : (s.envs dst).envIpcDstva = 0#32
                · rw [if_pos hz]
                  exact returns_ok (ipcDeliver_calling h value hst hlt)
                · rw [if_neg hz]
                  refine Post.bind (ipcTransfer_post h hdir hva fun hne =>
                    (hfit dst he hrecv hz hva hne).2) ?_
                  rintro ⟨r, s₁⟩ ⟨hs₁, henvs⟩
                  dsimp only at hs₁ henvs ⊢
                  split
                  · exact returns_ok hs₁
                  · refine returns_ok (ipcDeliver_calling
                      (hs₁.setEnv ⟨rfl, rfl, rfl, Iff.rfl, id⟩ rfl) value ?_ hlt)
                    rw [KState.envs_setEnv_self, henvs]
                    exact hst
      · rw [if_pos hrecv]
        exact returns_ok h

end Calling

end

end Jos
end Sisop

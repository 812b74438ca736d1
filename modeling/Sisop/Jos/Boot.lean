import Sisop.Jos.TrapInv

/-!
# Boot, and whole runs

The state boot leaves has memory and the table in agreement, and so has every
state reached from it.
-/

namespace Sisop
namespace Jos

open RefCount Exit TransitionSystem

section

variable {M : Machine} {K : Nat → Prop} {s s' : KState} {c e d : Nat}

/-! ## Loading an image -/

/-- What loading leaves of memory: the pages that were mapped still are, and the pages boot
took are as they were. -/
structure Grown (M : Machine) (K : Nat → Prop) (dirs : Nat → Option Nat) (m m' : PMap) : Prop where
  mapped : ∀ e i j, pteWord m dirs e i j ≠ 0#32 → pteWord m' dirs e i j ≠ 0#32
  outside : ∀ q, ¬ Pool M K q → m'.mem q = m.mem q

theorem Grown.refl {dirs : Nat → Option Nat} (m : PMap) : Grown M K dirs m m :=
  ⟨fun _ _ _ h => h, fun _ _ => rfl⟩

theorem Grown.trans {dirs : Nat → Option Nat} {m m' m'' : PMap} (h : Grown M K dirs m m')
    (h' : Grown M K dirs m' m'') : Grown M K dirs m m'' :=
  ⟨fun e i j hne => h'.mapped e i j (h.mapped e i j hne),
    fun q hq => (h'.outside q hq).trans (h.outside q hq)⟩

/-- A page boot took holds no page table and is on no list. -/
theorem PageInv.data_of_not_pool {m : PMap} {dirs : Nat → Option Nat} {free : List Nat}
    {held : Nat → Nat} {q : Nat} (h : PageInv M K m dirs free held) (hq : ¬ Pool M K q) :
    Data m dirs free q :=
  ⟨fun hin => hq (h.free_pool q hin), fun x hx => absurd (h.target_pool x q hx) hq⟩

theorem regionAllocPages_post {m : PMap} {dirs : Nat → Option Nat} {free : List Nat} {n : Nat}
    {va : Word} (h : PageInv M K m dirs free fun _ => 0) (hd : dirs e = some d)
    (hva : 0 < n → va.toNat + n * pgsize ≤ utop.toNat) :
    Post (regionAllocPages M m (some d) va n)
      (fun m' => (∃ free', PageInv M K m' dirs free' fun _ => 0) ∧ Grown M K dirs m m' ∧
        (0 < n → pteWord m' dirs e (pdx va) (ptx va) ≠ 0#32)) fun _ => True := by
  induction n generalizing m va free with
  | zero => exact post_ok.mpr ⟨⟨free, h⟩, .refl m, fun hn => absurd hn (Nat.lt_irrefl 0)⟩
  | succ n ih =>
      have hva := hva (Nat.succ_pos n)
      have hutop : utop.toNat = 4005560320 := rfl
      unfold pgsize at hva
      have hi : pdx va < pdxUtop := by
        rw [pdx_lt_pdxUtop_iff, BitVec.lt_def]
        omega
      unfold regionAllocPages
      cases free with
      | nil =>
          rw [h.pageAlloc_nil]
          exact post_error.mpr trivial
      | cons p free =>
          obtain ⟨m₁, halloc, h₁, hpool, hpf, hunref, _, hpte, hmem, _, href⟩ := h.pageAlloc_cons 0
          rw [halloc]
          have hcount : (m₁.ppRef p).toNat < 65535 := by
            rw [href, h.count_eq hpool.2.2, refs_eq_zero_iff.mpr fun x _ =>
              h.free_unref p List.mem_cons_self x]
            decide
          have hbits : p ||| pgnum (pteU ||| pteW) = p := by
            rw [show pgnum (pteU ||| pteW) = 0 by decide, Nat.or_zero]
          rcases h₁.pageInsert_spec hd hi hpool ⟨hpf, fun x hx => absurd hx (hunref x)⟩ hbits
            hcount with ⟨_, _, hins⟩ | ⟨m', free', hins, h', _, hpte', hmem'⟩
          · simp only [hins, Except.ok_bind_eq]
            exact post_error.mpr trivial
          · simp only [hins, Except.ok_bind_eq, ne_eq, not_true_eq_false, if_false]
            have hnext : (va + 4096#32).toNat = va.toNat + 4096 := by
              rw [BitVec.toNat_add, show (4096#32 : Word).toNat = 4096 from rfl]
              omega
            have hgrown : Grown M K dirs m m' := by
              refine ⟨fun e' i j hne => ?_, fun q hq => ?_⟩
              · rw [hpte']
                by_cases hhere : e' = e ∧ i = pdx va ∧ j = ptx va
                · rw [if_pos hhere]
                  exact or_pteP_ne_zero _
                · rw [if_neg hhere, hpte]
                  exact hne
              · have hqp : q ≠ p := fun heq => hq (heq ▸ hpool)
                exact (hmem' q (h₁.data_of_not_pool hq)).trans (hmem q hqp)
            have hhere : pteWord m' dirs e (pdx va) (ptx va) ≠ 0#32 := by
              rw [hpte', if_pos ⟨rfl, rfl, rfl⟩]
              exact or_pteP_ne_zero _
            refine (ih h' fun hn => ?_).imp (fun m₂ ⟨hinv, hg, _⟩ => ?_) fun _ _ => trivial
            · rw [hnext]
              unfold pgsize
              omega
            · exact ⟨hinv, hgrown.trans hg, fun _ => hg.mapped _ _ _ hhere⟩

theorem toNat_rounddown (a : Word) : (rounddown a).toNat = a.toNat - a.toNat % 4096 := by
  have hmod : (a % 4096#32).toNat = a.toNat % 4096 := by
    rw [BitVec.toNat_umod]
    rfl
  have hle : a.toNat % 4096 ≤ a.toNat := Nat.mod_le _ _
  have hlt := a.isLt
  rw [rounddown, BitVec.toNat_sub, hmod]
  omega

theorem regionAlloc_post {m : PMap} {dirs : Nat → Option Nat} {free : List Nat} {va len : Word}
    (h : PageInv M K m dirs free fun _ => 0) (hd : dirs e = some d) :
    Post (regionAlloc M m (some d) va len)
      (fun m' => (∃ free', PageInv M K m' dirs free' fun _ => 0) ∧ Grown M K dirs m m' ∧
        (pgsize ≤ (roundup (va + len)).toNat - (rounddown va).toNat →
          pteWord m' dirs e (pdx (rounddown va)) (ptx (rounddown va)) ≠ 0#32)) fun _ => True := by
  unfold regionAlloc
  dsimp only
  by_cases htop : utop < roundup (va + len)
  · rw [if_pos htop]
    exact post_error.mpr trivial
  · rw [if_neg htop]
    rw [BitVec.not_lt, BitVec.le_def] at htop
    refine (regionAllocPages_post h hd fun hn => ?_).imp (fun m' ⟨hinv, hg, hhere⟩ => ?_)
      fun _ _ => trivial
    · have hlo := toNat_rounddown va
      unfold pgsize at hn ⊢
      have hdiv := Nat.div_mul_le_self ((roundup (va + len)).toNat - (rounddown va).toNat) 4096
      omega
    · exact ⟨hinv, hg, fun hpage => hhere (Nat.div_pos hpage (by decide))⟩

/-- The stores of the kernel that are carried out change data pages alone, whatever the
range. -/
theorem kernelStoreBytes_frame {m : PMap} {dirs : Nat → Option Nat} {free : List Nat}
    {held : Nat → Nat} {va : Word} {bs : List (BitVec 8)} (h : PageInv M K m dirs free held)
    (hd : dirs e = some d) :
    Post (kernelStoreBytes m d va bs)
      (fun m' => PageInv M K m' dirs free held ∧
        (∀ e' i, pdeWord m' dirs e' i = pdeWord m dirs e' i) ∧
        (∀ e' i j, pteWord m' dirs e' i j = pteWord m dirs e' i j) ∧
        ∀ q, ¬ Pool M K q → m'.mem q = m.mem q) fun _ => True := by
  induction bs generalizing m va with
  | nil => exact post_ok.mpr ⟨h, fun _ _ => rfl, fun _ _ _ => rfl, fun _ _ => rfl⟩
  | cons b bs ih =>
      unfold kernelStoreBytes
      by_cases hlow : va < utop
      · rw [if_pos hlow]
        cases hs : storeByte m d kernelStore va b with
        | none => exact post_error.mpr trivial
        | some m₁ =>
            have hi := (pdx_lt_pdxUtop_iff va).mpr hlow
            obtain ⟨h₁, hpde, hpte, hmem⟩ := h.storeByte_spec hd hi (by decide) (by decide) hs
            refine (ih h₁).imp (fun m₂ hm₂ => ?_) fun _ _ => trivial
            obtain ⟨h₂, hpde₂, hpte₂, hmem₂⟩ := hm₂
            refine ⟨h₂, fun e' i => (hpde₂ e' i).trans (hpde e' i),
              fun e' i j => (hpte₂ e' i j).trans (hpte e' i j), fun q hq => ?_⟩
            rw [hmem₂ q hq, hmem q fun ht => hq (h.target_pool _ q ht)]
      · rw [if_neg hlow]
        by_cases hw : KernelWritable m d va
        · rw [if_pos hw]
          exact post_error.mpr trivial
        · rw [if_neg hw]
          exact post_error.mpr trivial

theorem loadSegment_post {elf : Elf} {m : PMap} {dirs : Nat → Option Nat} {free : List Nat}
    {ph : Proghdr} (h : PageInv M K m dirs free fun _ => 0) (hd : dirs e = some d)
    (hsize : ph.pFilesz.toNat ≤ ph.pMemsz.toNat)
    (hend : ph.pVa.toNat + ph.pMemsz.toNat ≤ utop.toNat) {L : KState → Prop} :
    Post (loadSegment M elf m d ph)
      (fun m' => ∃ free', PageInv M K m' dirs free' fun _ => 0) (Landing L) := by
  unfold loadSegment
  by_cases hload : ph.pType ≠ elfProgLoad
  · rw [if_pos hload]
    exact post_ok.mpr ⟨free, h⟩
  · rw [if_neg hload]
    refine Post.bind (post_panics (regionAlloc_post h hd)) ?_
    rintro m₁ ⟨⟨free₁, h₁⟩, -, -⟩
    refine Post.bind (kernelStoreBytes_post h₁ hd (.inr ?_)) fun m₂ h₂ => ?_
    · rw [List.length_replicate]
      exact hend
    · refine (kernelStoreBytes_post h₂ hd (.inr ?_)).imp (fun m₃ h₃ => ⟨free₁, h₃⟩)
        fun _ hl => hl
      rw [List.length_map, List.length_range]
      omega

/-! ## Creating the first environments -/

/-- Before any CPU has entered the scheduler, CR3 values play no part. -/
theorem BaseInv.lcr3 (h : BaseInv M K s) (hc : s.curenv c = none) (d : Nat) :
    BaseInv M K (s.lcr3 c d) := by
  refine h.congr rfl rfl (fun x => SameSlot.refl _) (fun c' x hc' => ?_) (fun c' hh => ?_)
  · rw [KState.curenv_lcr3] at hc'
    have hne : c' ≠ c := by
      rintro rfl
      rw [hc] at hc'
      cases hc'
    rw [KState.cr3_lcr3, if_neg hne]
    exact h.cpu c' x hc'
  · rw [KState.curenv_lcr3]
    rw [KState.lcr3, KState.cpus_setCpu] at hh
    split at hh
    · rename_i hcc
      rw [hcc]
      exact hc
    · exact h.halted c' hh

theorem loadIcode_post {elf : Elf} (h : BaseInv M K s) (hc : s.curenv c = none)
    (helf : elf.Linked) :
    Post (loadIcode M s c e elf) (BaseInv M K) (Landing (BaseInv M K)) := by
  unfold loadIcode
  by_cases hmagic : elf.eMagic ≠ elfMagic
  · rw [if_pos hmagic]
    exact post_error.mpr trivial
  · rw [if_neg hmagic]
    cases hd : (s.envs e).envPgdir with
    | none => exact post_error.mpr trivial
    | some d =>
        obtain ⟨free, hp⟩ := h.pages
        have hd' : s.dirs e = some d := hd
        refine Post.bind (Q := fun m => ∃ free', PageInv M K m s.dirs free' fun _ => 0) ?_ ?_
        · refine Post.foldlM (I := fun _ m => ∃ free', PageInv M K m s.dirs free' fun _ => 0)
            elf.phdrs ?_ ⟨free, hp⟩
          rintro done ph m ⟨rest, hrest⟩ ⟨free', hm⟩
          obtain ⟨hsize, hend⟩ := helf ph (by rw [hrest]; simp)
          exact loadSegment_post hm hd' hsize hend
        · rintro m ⟨free', hm⟩
          refine Post.bind (post_panics (regionAlloc_post hm hd')) fun m' hm' => ?_
          refine post_pure.mpr (BaseInv.lcr3 (c := c) ?_ ?_ M.kernPgdir)
          · refine BaseInv.setEnv ((h.lcr3 hc d).setPm hm'.1) ⟨rfl, rfl, rfl, Iff.rfl, id⟩
          · exact (KState.curenv_lcr3 s d c c).trans hc

theorem envCreate_post {elf : Elf} (h : BaseInv M K s) (hc : s.curenv c = none)
    (helf : elf.Linked) :
    Post (envCreate M s c elf) (BaseInv M K) (Landing (BaseInv M K)) := by
  unfold envCreate
  cases halloc : envAlloc M s 0#32 with
  | error r => exact post_error.mpr trivial
  | ok x =>
      obtain ⟨hb, hcpus, _⟩ := (h.envAlloc_post 0#32).value halloc
      refine loadIcode_post hb ?_ helf
      rw [KState.curenv, hcpus]
      exact hc

/-! ## The state boot leaves -/

/-- The free list `env_init` threads through the table, from slot `k` on. -/
theorem visits_envInit (n k : Nat) (hk : k ≤ n) :
    LinkChain.Visits (fun i => if i + 1 < n then some (i + 1) else none)
      (if k < n then some k else none) (List.range' k (n - k)) := by
  obtain ⟨j, rfl⟩ := Nat.exists_eq_add_of_le hk
  rw [Nat.add_sub_cancel_left]
  clear hk
  induction j generalizing k with
  | zero => simp [LinkChain.Visits]
  | succ j ih =>
      rw [List.range'_succ, if_pos (by omega)]
      refine ⟨rfl, ?_⟩
      have hrec := ih (k + 1)
      rw [show k + 1 + j = k + (j + 1) by omega] at hrec
      exact hrec

theorem Booted.base (h : Booted M K s) : BaseInv M K s := by
  obtain ⟨free, hchain, hpool, hlink⟩ := h.pages
  obtain ⟨envs, hnone, henvs⟩ := h.envs
  have hdirs : ∀ e, s.dirs e = none := fun e => by
    rw [KState.dirs, henvs]
    exact (hnone e).1
  have hpde : ∀ e i, pdeWord s.pm s.dirs e i = 0#32 := fun e i => by
    unfold pdeWord
    rw [hdirs]
  have hpte : ∀ e i j, pteWord s.pm s.dirs e i j = 0#32 := fun e i j => pteWord_of_no_pde (hpde e i)
  have htgt : ∀ x, target s.pm s.dirs x = none := by
    intro x
    cases x with
    | dir e => exact hdirs e
    | pde e i => exact entry_eq_none.mpr (hpde e i)
    | pte e i j => exact entry_eq_none.mpr (hpte e i j)
  have hno : ∀ x p, target s.pm s.dirs x ≠ some p := fun x p hx => by
    rw [htgt] at hx
    cases hx
  refine ⟨⟨free, ⟨hchain, ?_, fun p hp => (hpool p).mp hp, fun p _ x => hno x p, fun _ _ => rfl,
    ?_, ?_, ?_, fun p _ hp => hlink p hp, h.kern_low, ?_, ?_⟩⟩, ⟨List.range' 0 nenv, ?_, ?_⟩,
    ?_, ?_, ?_, ?_, ?_⟩
  · intro e d hd
    rw [hdirs] at hd
    cases hd
  · exact fun x p hx => absurd hx (hno x p)
  · exact fun x y p hx _ => absurd hx (hno x p)
  · intro p hp
    rw [h.ref_zero p hp, refs_eq_zero_iff.mpr fun x _ => hno x p]
    rfl
  · exact fun e i hne => absurd (hpde e i) hne
  · exact fun e i j hne => absurd (hpte e i j) hne
  · have hv := visits_envInit nenv 0 (Nat.zero_le _)
    rw [h.envFreeList, henvs]
    exact hv
  · intro e he
    rw [henvs]
    have hlt := (List.mem_range'_1.mp he).2
    exact ⟨by omega, rfl⟩
  · intro e _
    rw [henvs]
    exact iff_of_true rfl (hnone e).1
  · intro e he
    exact absurd (hdirs e) he
  · intro c e hc
    rw [KState.curenv, (h.cpus c).1] at hc
    cases hc
  · exact fun c _ => (h.cpus c).1
  · intro e
    rw [henvs]
    show (envs e).envIpcDstva < utop
    rw [(hnone e).2]
    decide

/-! ## Steps and runs -/

theorem outcome_landing (h : BaseInv M K s) {ev : Event} (hen : ev.enabled M s)
    (hfit : Fits s ev) (hown : FreesOwn M s ev) :
    Landing (BaseInv M K) (ev.outcome M s) := by
  cases ev with
  | create elf =>
      obtain ⟨helf, hidle⟩ := hen
      refine post_endOf (Post.bind (envCreate_post h (hidle 0 M.ncpu_pos).2 helf) fun s' hs' => ?_)
      exact post_pure.mpr hs'
  | start c =>
      obtain ⟨_, hst, hc⟩ := hen
      have hin : InKernel M K c s := ⟨h, hst, fun cur hcur => by rw [hc] at hcur; cases hcur⟩
      refine hin.schedYield_landing fun cur hcur => ?_
      rw [hc] at hcur
      cases hcur
  | wake c trapno => exact wake_landing h hen.2 trapno
  | trap c tf inp =>
      obtain ⟨cur, hc⟩ := Option.ne_none_iff_exists'.mp hen.2.1
      exact trap_landing h hc hfit hown
  | store c va b =>
      obtain ⟨_, hne, hva, htr⟩ := hen
      obtain ⟨cur, hc⟩ := Option.ne_none_iff_exists'.mp hne
      obtain ⟨free, hp⟩ := h.pages
      have hd : s.dirs cur = some (s.cpus c).cr3 := h.cpu c cur hc
      have hi := (pdx_lt_pdxUtop_iff va).mpr hva
      unfold Event.outcome
      dsimp only
      cases hs : storeByte s.pm (s.cpus c).cr3 userStore va b with
      | none =>
          unfold storeByte at hs
          rw [Option.map_eq_none_iff] at hs
          exact absurd hs htr
      | some m => exact h.setPm ⟨free, (hp.storeByte_spec hd hi (by decide) (by decide) hs).1⟩

theorem allows_landing {L : KState → Prop} {stop : Stop} (h : Landing L stop)
    (hs : stop.allows s') : L s' := by
  cases stop with
  | left s => exact hs ▸ h
  | panic msg => exact hs.elim
  | monitor => exact hs.elim
  | undefined why => exact h.elim

/-- Memory and the table agree in every state of every run in which the pages
mapped fit and no environment is freed while another CPU runs it. -/
theorem base_reach (h : (kernel M K).Reach (fun s ev => Fits s ev ∧ FreesOwn M s ev) s) :
    BaseInv M K s := by
  refine h.invariant (P := BaseInv M K) (fun s hs => Booted.base hs) fun s ev s' hs hok hstep => ?_
  exact allows_landing (outcome_landing hs hstep.1 hok.1 hok.2) hstep.2

end

end Jos
end Sisop

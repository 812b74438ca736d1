import Sisop.Jos.ForkCalls

/-!
# Runs of programs that fork

The invariant of copy-on-write holds from the environments that boot creates on, whatever
the programs do.  What follows are the properties of whole runs: no store is seen by
another environment, and a child has what its parent had when `fork` came to the page.
-/

namespace Sisop
namespace Jos

open TransitionSystem CopyOnWrite RefCount Exit

/-- Every page is the program's to write, and no frame is at two places. -/
structure Unshared (m : PMap) (dirs : Nat → Option Nat) : Prop where
  user : ∀ e n, pageEntry m dirs e n ≠ 0#32 → pageEntry m dirs e n &&& userStore = userStore
  alone : ∀ e n e' n' p, entry (pageEntry m dirs e n) = some p →
    entry (pageEntry m dirs e' n') = some p → e = e' ∧ n = n'

section

variable {M : Machine} {K : Nat → Prop} {m m' : PMap} {dirs dirs' : Nat → Option Nat}
  {s s' : KState} {free : List Nat} {e d p : Nat} {va : Word} {elf : Elf} {ph : Proghdr}
  {upcall : Word} {st st' : ForkState}

/-! ## The environments of boot -/

theorem Unshared.congr (h : Unshared m dirs)
    (hpte : ∀ e i j, pteWord m' dirs' e i j = pteWord m dirs e i j) : Unshared m' dirs' where
  user := fun e n hne => by
    unfold pageEntry at hne ⊢
    rw [hpte] at hne ⊢
    exact h.user e n hne
  alone := fun e n e' n' p hp hp' => by
    unfold pageEntry at hp hp'
    rw [hpte] at hp hp'
    exact h.alone e n e' n' p hp hp'

/-- A frame from the free list goes to one place. -/
theorem Unshared.insert (h : Unshared m dirs) (hinv : PageInv M K m dirs free fun _ => 0)
    (hp : p ∈ free) (hpte : ∀ e' i j, pteWord m' dirs e' i j =
      if e' = e ∧ i = pdx va ∧ j = ptx va then page2pa p ||| (pteU ||| pteW) ||| pteP
      else pteWord m dirs e' i j) : Unshared m' dirs := by
  have hword : page2pa p ||| (pteU ||| pteW) ||| pteP = page2pa p ||| userStore := by
    rw [BitVec.or_assoc]
    rfl
  have hentry : entry (page2pa p ||| userStore) = some p :=
    (entry_store (hinv.free_pool p hp).lt).2.2.1
  have hplace : ∀ e' n, pageEntry m' dirs e' n = if (e', n) = (e, pgnum va) then
      page2pa p ||| userStore else pageEntry m dirs e' n := by
    intro e' n
    unfold pageEntry
    rw [hpte, hword]
    simp only [place_eq_iff]
  have hfresh : ∀ e' n, entry (pageEntry m dirs e' n) ≠ some p := fun e' n heq =>
    hinv.free_unref p hp (.pte e' (n / 1024) (n % 1024)) heq
  refine ⟨fun e' n hne => ?_, fun e₁ n₁ e₂ n₂ q h₁ h₂ => ?_⟩
  · rw [hplace] at hne ⊢
    split
    · exact or_and_self _ _
    · rename_i hno
      rw [if_neg hno] at hne
      exact h.user e' n hne
  · rw [hplace] at h₁ h₂
    split at h₁ <;> split at h₂
    · rename_i hx hy
      exact Prod.mk.inj (hx.trans hy.symm)
    · rw [hentry] at h₁
      exact absurd h₂ (Option.some.inj h₁ ▸ hfresh _ _)
    · rw [hentry] at h₂
      exact absurd h₁ (Option.some.inj h₂ ▸ hfresh _ _)
    · exact h.alone _ _ _ _ q h₁ h₂

theorem regionAllocPages_unshared {n : Nat} (h : PageInv M K m dirs free fun _ => 0)
    (hd : dirs e = some d) (hva : 0 < n → va.toNat + n * pgsize ≤ utop.toNat)
    (hm : Unshared m dirs) :
    Post (regionAllocPages M m (some d) va n)
      (fun m' => (∃ free', PageInv M K m' dirs free' fun _ => 0) ∧ Unshared m' dirs)
      fun _ => True := by
  induction n generalizing m va free with
  | zero => exact post_ok.mpr ⟨⟨free, h⟩, hm⟩
  | succ n ih =>
      have hva := hva (Nat.succ_pos n)
      have hutop : utop.toNat = 4005560320 := rfl
      unfold pgsize at hva
      have hi : pdx va < pdxUtop := by
        rw [pdx_lt_pdxUtop_iff, BitVec.lt_def]
        omega
      unfold regionAllocPages
      cases free with
      | nil =>
          rw [h.pageAlloc_nil]
          exact post_error.mpr trivial
      | cons p free =>
          obtain ⟨m₁, halloc, h₁, hpool, hpf, hunref, _, hpte, -, _, href⟩ := h.pageAlloc_cons 0
          rw [halloc]
          have hcount : (m₁.ppRef p).toNat < 65535 := by
            rw [href, h.count_eq hpool.2.2, refs_eq_zero_iff.mpr fun x _ =>
              h.free_unref p List.mem_cons_self x]
            decide
          have hbits : p ||| pgnum (pteU ||| pteW) = p := by
            rw [show pgnum (pteU ||| pteW) = 0 by decide, Nat.or_zero]
          rcases h₁.pageInsert_spec hd hi hpool ⟨hpf, fun x hx => absurd hx (hunref x)⟩ hbits
            hcount with ⟨_, _, hins⟩ | ⟨m', free', hins, h', _, hpte', -⟩
          · simp only [hins, Except.ok_bind_eq]
            exact post_error.mpr trivial
          · simp only [hins, Except.ok_bind_eq, ne_eq, not_true_eq_false, if_false]
            have hpte₂ : ∀ e' i j, pteWord m' dirs e' i j = if e' = e ∧ i = pdx va ∧ j = ptx va then
                page2pa p ||| (pteU ||| pteW) ||| pteP else pteWord m dirs e' i j := fun e' i j => by
              rw [hpte', hpte]
            refine ih h' (fun hn => ?_) (hm.insert h List.mem_cons_self hpte₂)
            rw [BitVec.toNat_add, show (4096#32 : Word).toNat = 4096 from rfl]
            unfold pgsize
            omega

theorem regionAlloc_unshared {len : Word} (h : PageInv M K m dirs free fun _ => 0)
    (hd : dirs e = some d) (hm : Unshared m dirs) :
    Post (panics (regionAlloc M m (some d) va len))
      (fun m' => (∃ free', PageInv M K m' dirs free' fun _ => 0) ∧ Unshared m' dirs)
      fun _ => True := by
  suffices hpost : Post (regionAlloc M m (some d) va len)
      (fun m' => (∃ free', PageInv M K m' dirs free' fun _ => 0) ∧ Unshared m' dirs) fun _ => True from
    (post_panics (L := fun _ => True) hpost).imp (fun _ hq => hq) fun _ _ => trivial
  unfold regionAlloc
  dsimp only
  by_cases htop : utop < roundup (va + len)
  · rw [if_pos htop]
    exact post_error.mpr trivial
  · rw [if_neg htop]
    rw [BitVec.not_lt, BitVec.le_def] at htop
    refine regionAllocPages_unshared h hd (fun hn => ?_) hm
    have hlo := toNat_rounddown va
    unfold pgsize at hn ⊢
    have hdiv := Nat.div_mul_le_self ((roundup (va + len)).toNat - (rounddown va).toNat) 4096
    omega

theorem loadSegment_unshared (h : PageInv M K m dirs free fun _ => 0) (hd : dirs e = some d)
    (hm : Unshared m dirs) :
    Post (loadSegment M elf m d ph)
      (fun m' => (∃ free', PageInv M K m' dirs free' fun _ => 0) ∧ Unshared m' dirs)
      fun _ => True := by
  unfold loadSegment
  by_cases hload : ph.pType ≠ elfProgLoad
  · rw [if_pos hload]
    exact post_ok.mpr ⟨⟨free, h⟩, hm⟩
  rw [if_neg hload]
  refine (regionAlloc_unshared h hd hm).bind ?_
  rintro m₁ ⟨⟨free₁, h₁⟩, hm₁⟩
  refine (kernelStoreBytes_frame h₁ hd).bind ?_
  rintro m₂ ⟨h₂, -, hpte₂, -⟩
  refine (kernelStoreBytes_frame h₂ hd).imp ?_ fun _ _ => trivial
  rintro m₃ ⟨h₃, -, hpte₃, -⟩
  exact ⟨⟨free₁, h₃⟩, hm₁.congr fun e i j => (hpte₃ e i j).trans (hpte₂ e i j)⟩

theorem loadIcode_unshared {c : Nat} (h : BaseInv M K s) (hd : s.dirs e = some d)
    (hm : Unshared s.pm s.dirs) :
    Post (loadIcode M s c e elf) (fun s' => Unshared s'.pm s'.dirs) fun _ => True := by
  by_cases hmagic : elf.eMagic = elfMagic
  swap
  · unfold loadIcode
    rw [if_pos hmagic]
    exact post_error.mpr trivial
  rw [loadIcode_eq hmagic hd]
  obtain ⟨free, hp⟩ := h.pages
  refine (Post.foldlM (I := fun _ m => (∃ free', PageInv M K m s.dirs free' fun _ => 0) ∧
    Unshared m s.dirs) elf.segments (fun _ _ m _ ⟨⟨_, hinv⟩, hun⟩ =>
      loadSegment_unshared hinv hd hun) ⟨⟨free, hp⟩, hm⟩).bind ?_
  rintro m ⟨⟨free', hinv⟩, hun⟩
  refine (regionAlloc_unshared hinv hd hun).bind ?_
  rintro m' ⟨-, hun'⟩
  have hdirs : (loadedState M s c e d elf m').dirs = s.dirs :=
    KState.dirs_setEnv { s.lcr3 c d with pm := m' } e
      (fun env => { env with envTf := { env.envTf with eip := elf.eEntry } }) rfl
  refine post_pure.mpr ?_
  rw [hdirs]
  exact hun'

/-- Boot shares no page. -/
theorem Initialised.unshared (h : Initialised M K s) : Unshared s.pm s.dirs := by
  induction h with
  | @boot s h hkern =>
      obtain ⟨envs, hnone, henvs⟩ := h.envs
      have hdirs : ∀ e, s.dirs e = none := fun e => by
        rw [KState.dirs, henvs]
        exact (hnone e).1
      have hz : ∀ e n, pageEntry s.pm s.dirs e n = 0#32 := fun e n => wordOn_of_no_dir (hdirs e) n
      refine ⟨fun e n hne => absurd (hz e n) hne, fun e n e' n' p hp => ?_⟩
      rw [hz, entry_zero] at hp
      cases hp
  | @create s s' elf h hcreate ih =>
      obtain ⟨hbase, -, hkern⟩ := h.inv
      unfold envCreate at hcreate
      cases halloc : envAlloc M s 0#32 with
      | error r =>
          rw [halloc] at hcreate
          cases hcreate
      | ok x =>
          obtain ⟨e, s₁⟩ := x
          rw [halloc] at hcreate
          obtain ⟨hbase₁, -, -, d, free, hpages, -⟩ := envAlloc_empty hbase hkern halloc
          rcases hbase.envAlloc_cases 0#32 with ⟨r, hr, -⟩ | ⟨e', s₂, p, hok, -, -, -, hpte, -⟩
          · rw [hr] at halloc
            cases halloc
          obtain ⟨rfl, rfl⟩ := Prod.mk.inj (Except.ok.inj (hok.symm.trans halloc))
          exact (loadIcode_unshared hbase₁ hpages.dir (ih.congr hpte)).value hcreate

/-! ## Runs -/

theorem ForkInv.initial (h : (forkSystem M K upcall).init st) : ForkInv M K st := by
  obtain ⟨hinit, hstart⟩ := h
  obtain ⟨hbase, -, -⟩ := hinit.inv
  have hun := hinit.unshared
  have hact : ∀ e envid pc wrote, (st.threads e).act ≠ .forking envid pc wrote := by
    intro e envid pc wrote
    rw [hstart]
    exact Activity.noConfusion
  refine ⟨hbase, fun x hx => ?_, fun x y p hne hx hy => ?_, fun e he => absurd (hstart e) he,
    fun e envid pc wrote h => absurd h (hact e envid pc wrote), ?_, fun e h rest hf => ?_⟩
  · have hall : wordOn st.kernel x &&& userStore = userStore := hun.user x.1 x.2 hx
    refine ⟨and_of_and hall (by decide), .inl ?_⟩
    rw [and_of_and hall (show userStore &&& pteW = pteW by decide)]
    decide
  · exact absurd (Prod.ext_iff.mpr (hun.alone x.1 x.2 y.1 y.2 p hx hy)) hne
  · rintro e e' c ⟨envid, pc, wrote, h, -⟩
    exact absurd h (hact e envid pc wrote)
  · rw [hstart] at hf
    cases hf

theorem ForkInv.step (hi : ForkInv M K st) {ev : Nat × UserEvent}
    (hs : (forkSystem M K upcall).step st ev st') : ForkStep M K st ev.1 ev.2.stored st' := by
  obtain ⟨he, -, d, hd, hnext⟩ := hs
  exact hi.next he hd hnext

theorem forkInv_reach (h : Reach (forkSystem M K upcall) anyEvent st) : ForkInv M K st :=
  h.invariant (fun _ hinit => .initial hinit) fun _ _ _ hi _ hs => (hi.step hs).inv

/-- Two pages have one frame only when they are the same page of two environments and neither
may write it, or are a pair that is being mapped. -/
theorem fork_guarded (h : Reach (forkSystem M K upcall) anyEvent st) :
    Guarded (spaces st.kernel) (excepted st) := (forkInv_reach h).guarded

/-- The byte environment `e` reads at `va`. -/
def view (s : KState) (e : Nat) (va : Word) : Option (BitVec 8) :=
  (s.dirs e).bind fun d => loadByte s.pm d va

/-- What a program expects to find at `va` after its own step. -/
def UserEvent.result (va : Word) (old : Option (BitVec 8)) : UserEvent → Option (BitVec 8)
  | .store va' b => if va' = va then some b else old
  | _ => old

theorem ForkInv.view_eq (hi : ForkInv M K st) (hva : va < utop) :
    view st.kernel e va = byteAt st.kernel e va := by
  unfold view
  cases hd : st.kernel.dirs e with
  | none =>
      unfold byteAt
      rw [wordOn_of_no_dir hd, entry_zero]
      rfl
  | some d => exact loadByte_eq_byteAt hi.base hd hva fun hne => (hi.user _ hne).1

theorem UserEvent.result_of_notMem {ev : UserEvent} {old : Option (BitVec 8)} (h : va ∉ ev.stored) :
    ev.result va old = old := by
  cases ev with
  | store va' b => exact if_neg fun heq => h heq.symm
  | _ => rfl

/-- A store that goes through is read back. -/
theorem ForkInv.next_stored (hi : ForkInv M K st) (hd : st.kernel.dirs e = some d)
    {ev : UserEvent} (hva : va ∈ ev.stored) (hs : Jos.next M upcall st e d ev = some st')
    (old : Option (BitVec 8)) : byteAt st'.kernel e va = ev.result va old := by
  cases ev with
  | store va' b =>
      obtain rfl : va = va' := hva
      unfold Jos.next at hs
      dsimp only at hs
      split at hs
      · rename_i hcond
        obtain ⟨m, hm, rfl⟩ := Option.map_eq_some_iff.mp hs
        obtain ⟨p, -, hp, hm', hw⟩ := storeByte_written hi.base hd hcond.2 (by decide) (by decide) hm
        exact (byteAt_stored hw hm' hp).trans (if_pos rfl).symm
      · cases hs
  | _ => exact absurd hva (Set.notMem_empty va)

/-- The programs find memory as if each had its own: a step of one changes nothing another one
that may run reads, and of what it reads itself only what it stores to.  The exception stack
and the page of the copies are the handler's. -/
theorem fork_memory (h : Reach (forkSystem M K upcall) anyEvent st) {ev : Nat × UserEvent}
    (hs : (forkSystem M K upcall).step st ev st') (hl : Live st.kernel e) (hva : va < utop)
    (hex : pgnum va ≠ exstkPage) (htemp : pgnum va ≠ tempPage) :
    view st'.kernel e va =
      if e = ev.1 then ev.2.result va (view st.kernel e va) else view st.kernel e va := by
  have hi := forkInv_reach h
  obtain ⟨hi', hstep⟩ := hi.step hs
  obtain ⟨-, -, d, hd, hnext⟩ := hs
  rw [hi.view_eq hva, hi'.view_eq hva]
  split
  · rename_i heq
    subst heq
    by_cases hin : va ∈ ev.2.stored
    · exact hi.next_stored hd hin hnext _
    · rw [UserEvent.result_of_notMem hin]
      exact hstep.own va hex htemp hin
  · rename_i hne
    exact (hstep.kept e _ hne fun hc => hi.not_live hc hl).byteAt_eq

/-- The exception stack is private too. -/
theorem fork_isolates (h : Reach (forkSystem M K upcall) anyEvent st) {ev : Nat × UserEvent}
    (hs : (forkSystem M K upcall).step st ev st') (hl : Live st.kernel e) (he : e ≠ ev.1)
    (hva : va < utop) : view st'.kernel e va = view st.kernel e va := by
  have hi := forkInv_reach h
  obtain ⟨hi', hstep⟩ := hi.step hs
  rw [hi.view_eq hva, hi'.view_eq hva]
  exact (hstep.kept e _ he fun hc => hi.not_live hc hl).byteAt_eq

theorem ForkPc.Sound.done_le {pc : ForkPc} (h : pc.Sound) : pc.done ≤ pnumEnd := by
  cases pc with
  | pages n => exact h
  | duppage n => exact le_of_lt h.1
  | childMap n pte => exact le_of_lt h.1
  | parentMap n pte => exact h.1
  | exstk | upcall | status => exact le_refl pnumEnd

/-- While its parent forks, a child has what the parent has, at the pages done so far,
wherever the parent has not stored to since. -/
theorem ForkInv.child_view (hi : ForkInv M K st) {envid : Word} {pc : ForkPc} {wrote : List Word}
    (hact : (st.threads e).act = .forking envid pc wrote) (hdone : pgnum va < pc.done)
    (hex : pgnum va ≠ exstkPage) (htemp : pgnum va ≠ tempPage) (hva : va ∉ wrote) :
    view st.kernel (envx envid) va = view st.kernel e va := by
  have hfork := hi.forking e envid pc wrote hact
  have hlow : va < utop := by
    have hle := lt_of_lt_of_le hdone hfork.sound.done_le
    rw [pgnum_eq, show pnumEnd = 977920 from rfl] at hle
    rw [BitVec.lt_def, show utop.toNat = 4005560320 from rfl]
    omega
  rw [hi.view_eq hlow, hi.view_eq hlow]
  exact hfork.same va hdone hex htemp hva

theorem raise_act {tf : Trapframe} (hs : raise M st e d va tf = some st') :
    (st'.threads e).act = (st.threads e).act := by
  unfold raise at hs
  dsimp only at hs
  split at hs
  · cases hs
  obtain ⟨x, -, rfl⟩ := Option.map_eq_some_iff.mp hs
  rw [put_self]

/-- `fork` is over with its `sys_env_set_status`. -/
theorem forkingTurn_program {c : Nat} {envid : Word} {pc : ForkPc} {wrote : List Word}
    (hs : forkingTurn M c s e d envid pc wrote = some (.goes s' .program)) :
    pc = .status ∧ s' = (sysEnvSetStatus s e envid 2#32).2 := by
  -- No other turn leaves `fork`.
  have hcall : ∀ {call : Except Stop (Int × KState)} {pc' : ForkPc},
      checkCall call ForkTurn.panics (fun s => .goes s (.forking envid pc' wrote)) ≠
        some (.goes s' .program) := by
    intro call pc' heq
    obtain ⟨r, s₁, -, hx⟩ := checkCall_eq_some heq
    split at hx <;> cases hx
  cases pc with
  | pages n | duppage n =>
      unfold forkingTurn at hs
      dsimp only at hs
      split at hs
      · cases hs
      · first
          | cases hs
          | split at hs <;> cases hs
  | childMap n pte =>
      unfold forkingTurn at hs
      dsimp only at hs
      split at hs
      · exact absurd hs hcall
      · exact absurd hs hcall
  | parentMap n pte => exact absurd hs hcall
  | exstk => exact absurd hs hcall
  | upcall =>
      unfold forkingTurn at hs
      dsimp only at hs
      split at hs
      · cases hs
      · exact absurd hs hcall
  | status =>
      unfold forkingTurn at hs
      dsimp only at hs
      cases hcall : sysEnvSetStatus s e envid 2#32 with
      | mk r s₁ =>
          rw [hcall] at hs
          obtain ⟨r', s₂, heq, hx⟩ := checkCall_eq_some hs
          cases heq
          split at hx
          · cases hx
          · cases hx
            exact ⟨rfl, rfl⟩

/-- The step on which `fork` returns. -/
theorem fork_last {envid : Word} {pc : ForkPc} {wrote : List Word} {ev : UserEvent}
    (hs : next M upcall st e d ev = some st')
    (hact : (st.threads e).act = .forking envid pc wrote)
    (hend : (st'.threads e).act = .program) :
    pc = .status ∧ st'.kernel = (sysEnvSetStatus st.kernel e envid 2#32).2 := by
  have hne : (st'.threads e).act ≠ (st.threads e).act := by
    rw [hend, hact]
    exact Activity.noConfusion
  have hsame : ∀ {va tf}, raise M st e d va tf ≠ some st' := fun hr => hne (raise_act hr)
  unfold next at hs
  cases ev with
  | store va b =>
      dsimp only at hs
      split at hs
      · obtain ⟨m, -, rfl⟩ := Option.map_eq_some_iff.mp hs
        rw [put_self] at hend
        rw [hact] at hend
        cases hend
      · cases hs
  | stackStore va b =>
      dsimp only at hs
      split at hs
      · obtain ⟨m, -, rfl⟩ := Option.map_eq_some_iff.mp hs
        rw [put_self] at hne
        exact absurd rfl hne
      · cases hs
  | fault va tf =>
      dsimp only at hs
      split at hs
      · exact absurd hs hsame
      · cases hs
  | fork first =>
      dsimp only at hs
      split at hs
      · rename_i hcond
        rw [hact] at hcond
        cases hcond.2
      · cases hs
  | go c tf =>
      dsimp only at hs
      unfold go at hs
      dsimp only at hs
      cases hf : (st.threads e).faults with
      | cons h rest =>
          rw [hf] at hs
          dsimp only at hs
          cases hturn : pgfaultTurn M st.kernel e d h with
          | none =>
              rw [hturn] at hs
              cases hs
          | some turn =>
              rw [hturn] at hs
              cases turn with
              | goes s pc | returns s | panics s =>
                  cases hs
                  rw [put_self] at hne
                  exact absurd rfl hne
              | faults va => exact absurd hs hsame
      | nil =>
          rw [hf, hact] at hs
          dsimp only at hs
          cases hturn : forkTurn M upcall c st.kernel e d (.forking envid pc wrote) with
          | none =>
              rw [hturn] at hs
              cases hs
          | some turn =>
              rw [hturn] at hs
              cases turn with
              | goes s act =>
                  cases hs
                  rw [put_self] at hend
                  rw [show act = .program from hend] at hturn
                  exact forkingTurn_program hturn
              | panics s =>
                  cases hs
                  rw [put_self] at hend
                  cases hend
              | faults va => exact absurd hs hsame

/-- When `fork` returns, the child may run, and reads what the parent reads, but for the
exception stack, the page of the copies, and what the parent has stored to since
`sys_exofork`. -/
theorem fork_returns (h : Reach (forkSystem M K upcall) anyEvent st) {ev : Nat × UserEvent}
    (hs : (forkSystem M K upcall).step st ev st') {envid : Word} {pc : ForkPc} {wrote : List Word}
    (hact : (st.threads ev.1).act = .forking envid pc wrote)
    (hend : (st'.threads ev.1).act = .program) :
    envx envid ≠ ev.1 ∧ Live st'.kernel (envx envid) ∧
      ∀ va, va < utop → pgnum va ≠ exstkPage → pgnum va ≠ tempPage → va ∉ wrote →
        view st'.kernel (envx envid) va = view st'.kernel ev.1 va := by
  have hi := forkInv_reach h
  have hfork := hi.forking ev.1 envid pc wrote hact
  obtain ⟨-, -, d, hd, hnext⟩ := hs
  obtain ⟨rfl, hlast⟩ := fork_last hnext hact hend
  have hcall : (sysEnvSetStatus st.kernel ev.1 envid 2#32).2 =
      st.kernel.setStatus (envx envid) .runnable := by
    unfold sysEnvSetStatus
    rw [hfork.lookup]
    rfl
  have hview : ∀ y va, view st'.kernel y va = view st.kernel y va := by
    intro y va
    have hdirs : (st.kernel.setStatus (envx envid) .runnable).dirs = st.kernel.dirs :=
      KState.dirs_setEnv (h := rfl)
    unfold view
    rw [hlast, hcall, hdirs]
    rfl
  refine ⟨hfork.ne, .inl ?_, fun va hva hex htemp hw => ?_⟩
  · rw [hlast, hcall, KState.setStatus, KState.envs_setEnv_self]
  · rw [hview, hview]
    refine hi.child_view hact ?_ hex htemp hw
    rw [BitVec.lt_def, show utop.toNat = 4005560320 from rfl] at hva
    show pgnum va < pnumEnd
    rw [pgnum_eq, show pnumEnd = 977920 from rfl]
    omega

/-! ## Pages that are not there -/

/-- The program with page directory `d` has no page from `lo` up to `hi`, the exception stack
apart. -/
def Gap (m : PMap) (d lo hi : Nat) : Prop :=
  ∀ i, i < pdxUtop → m.mem d i = 0#32 ∨ ∀ j, j < nptentries →
    lo ≤ i * 1024 + j ∧ i * 1024 + j < hi ∧ i * 1024 + j ≠ exstkPage →
      m.mem (pgnum (m.mem d i)) j = 0#32

instance (m : PMap) (d lo hi : Nat) : Decidable (Gap m d lo hi) :=
  inferInstanceAs (Decidable (∀ i, i < pdxUtop → _ ∨ ∀ j, j < nptentries → _))

theorem Gap.word {lo hi n : Nat} (h : Gap s.pm d lo hi) (hd : s.dirs e = some d) (hlo : lo ≤ n)
    (hhi : n < hi) (hend : n < pnumEnd) (hex : n ≠ exstkPage) : wordOn s (e, n) = 0#32 := by
  have hi' : n / 1024 < pdxUtop := by
    rw [show pnumEnd = 977920 from rfl] at hend
    unfold pdxUtop
    omega
  have hpde := pdeWord_of_dir (m := s.pm) hd hi'
  show pteWord s.pm s.dirs e (n / 1024) (n % 1024) = 0#32
  by_cases hz : pdeWord s.pm s.dirs e (n / 1024) = 0#32
  · exact pteWord_of_no_pde hz
  · have hj : n % 1024 < nptentries := Nat.mod_lt n (by decide)
    rw [pteWord_of_pde (entry_of_ne hz) hj, hpde]
    rw [hpde] at hz
    refine (h _ hi').resolve_left hz _ hj ?_
    have hsum : n / 1024 * 1024 + n % 1024 = n := by omega
    rw [hsum]
    exact ⟨hlo, hhi, hex⟩

/-- The turns of `fork` from page `lo` up to page `hi`, none of which is there. -/
def skipTo (e hi : Nat) (st : ForkState) : Option ForkState :=
  match st.kernel.dirs e, (st.threads e).act with
  | some d, .forking envid (.pages lo) wrote =>
      if Live st.kernel e ∧ (st.threads e).panicked = false ∧ (st.threads e).faults = [] ∧
          lo ≤ hi ∧ hi ≤ pnumEnd ∧ Gap st.kernel.pm d lo hi then
        some (st.put e st.kernel { st.threads e with act := .forking envid (.pages hi) wrote })
      else none
  | _, _ => none

theorem put_put (st : ForkState) (e : Nat) (s s' : KState) (t t' : Thread) :
    (st.put e s t).put e s' t' = st.put e s' t' := by
  unfold ForkState.put
  rw [Function.update_idem]

/-- A page that is not there takes one turn. -/
theorem pagesTurn_gap (hi : ForkInv M K st) (hd : st.kernel.dirs e = some d) {n : Nat}
    (hn : n < pnumEnd) (hz : n ≠ exstkPage → wordOn st.kernel (e, n) = 0#32) :
    pagesTurn st.kernel d n = some (.pages (n + 1)) := by
  unfold pagesTurn
  rw [if_neg (Nat.ne_of_lt hn)]
  by_cases hex : n = exstkPage
  · rw [if_pos hex]
  rw [if_neg hex]
  by_cases hnot : NotUsers (uvpd st.kernel.pm d (n / 1024))
  · rw [if_pos hnot]
  rw [if_neg hnot]
  obtain ⟨free, hp⟩ := hi.base.pages
  have hpde : uvpd st.kernel.pm d (n / 1024) ≠ 0#32 := fun hz' => hnot (.inl (by
    rw [hz']
    exact BitVec.zero_and))
  have hpte := uvpt_eq hp hd hn hpde
  rw [show pteWord st.kernel.pm st.kernel.dirs e (n / 1024) (n % 1024) = 0#32 from hz hex] at hpte
  rw [hpte]
  rfl

theorem forkTurn_pages {c n : Nat} {envid : Word} {pc' : ForkPc} {wrote : List Word}
    (h : pagesTurn s d n = some pc') :
    forkTurn M upcall c s e d (.forking envid (.pages n) wrote) =
      some (.goes s (.forking envid pc' wrote)) := by
  unfold forkTurn forkingTurn
  dsimp only
  rw [h]

theorem skipTo_reach {hi : Nat} (h : Reach (forkSystem M K upcall) anyEvent st)
    (hs : skipTo e hi st = some st') : Reach (forkSystem M K upcall) anyEvent st' := by
  unfold skipTo at hs
  split at hs
  · rename_i d envid lo wrote hd hact
    split at hs
    · rename_i hcond
      obtain ⟨hl, hp, hf, hle, hend, hgap⟩ := hcond
      cases hs
      -- One turn for each page, at a state that differs in the thread alone.
      suffices hall : ∀ k, lo + k ≤ hi → Reach (forkSystem M K upcall) anyEvent
          (st.put e st.kernel
            { st.threads e with act := .forking envid (.pages (lo + k)) wrote }) by
        have hlast := hall (hi - lo) (by omega)
        rwa [Nat.add_sub_cancel' hle] at hlast
      intro k
      induction k with
      | zero =>
          intro _
          have hst : st.put e st.kernel
              { st.threads e with act := .forking envid (.pages (lo + 0)) wrote } = st := by
            rw [Nat.add_zero, ← hact]
            unfold ForkState.put
            rw [Function.update_eq_self]
          rw [hst]
          exact h
      | succ k ih =>
          intro hk
          have hr := ih (by omega)
          refine hr.step (e := (e, .go 0 initTf)) trivial ⟨hl, ?_, d, hd, ?_⟩
          · rw [put_self]
            exact hp
          · have hz : lo + k ≠ exstkPage → wordOn st.kernel (e, lo + k) = 0#32 :=
              hgap.word hd (Nat.le_add_right lo k) (by omega) (by omega)
            have hturn := pagesTurn_gap (forkInv_reach h) hd (n := lo + k) (by omega) hz
            show go M upcall _ e d 0 initTf = _
            unfold go
            dsimp only
            rw [put_self, hf]
            dsimp only
            rw [put_kernel, forkTurn_pages hturn]
            dsimp only
            rw [put_put]
            rfl
    · cases hs
  · cases hs

/-! ## On a concrete machine -/

/-- A step, as a function. -/
def forkNext (M : Machine) (upcall : Word) (st : ForkState) (ev : Nat × UserEvent) :
    Option ForkState :=
  if Live st.kernel ev.1 ∧ (st.threads ev.1).panicked = false then
    (st.kernel.dirs ev.1).bind fun d => next M upcall st ev.1 d ev.2
  else none

theorem forkNext_step {ev : Nat × UserEvent} (h : forkNext M upcall st ev = some st') :
    (forkSystem M K upcall).step st ev st' := by
  unfold forkNext at h
  split at h
  · rename_i hcond
    obtain ⟨d, hd, hnext⟩ := Option.bind_eq_some_iff.mp h
    exact ⟨hcond.1, hcond.2, d, hd, hnext⟩
  · cases h

end

/-- The machine of `kernbaseBoot` with one environment, of one page of code. -/
def forkBoot : KState :=
  match envCreate (pc .roundRobin) kernbaseBoot 0 (oneSegment 0xeebfc000#32 0#32 1#32) with
  | .ok s => s
  | .error _ => kernbaseBoot

def forkStart : ForkState := { kernel := forkBoot, threads := fun _ => .start }

/-- The upcall is at the start of the page of code. -/
def codeUpcall : Word := 0xeebfc000#32

theorem forkStart_init : (forkSystem (pc .roundRobin) lowPages codeUpcall).init forkStart := by
  have hok : (envCreate (pc .roundRobin) kernbaseBoot 0 (oneSegment 0xeebfc000#32 0#32 1#32)).isOk =
      true := by decide +kernel
  cases hs : envCreate (pc .roundRobin) kernbaseBoot 0 (oneSegment 0xeebfc000#32 0#32 1#32) with
  | error stop =>
      rw [hs] at hok
      cases hok
  | ok s =>
      have hboot : forkBoot = s := by
        unfold forkBoot
        rw [hs]
      refine ⟨?_, fun _ => rfl⟩
      show Initialised _ _ forkBoot
      rw [hboot]
      exact .create (.boot kernbaseBoot_booted kernbaseBoot_tables) hs

/-- `n` steps of environment 0 in `fork`. -/
def forkSteps (n : Nat) (st : ForkState) : Option ForkState :=
  (List.replicate n (0, UserEvent.go 0 initTf)).foldlM (forkNext (pc .roundRobin) codeUpcall) st

theorem forkSteps_reach {n : Nat} {st st' : ForkState}
    (h : Reach (forkSystem (pc .roundRobin) lowPages codeUpcall) anyEvent st)
    (hs : forkSteps n st = some st') :
    Reach (forkSystem (pc .roundRobin) lowPages codeUpcall) anyEvent st' :=
  h.foldlM (fun _ _ _ _ hn => ⟨trivial, forkNext_step hn⟩) hs

/-- `fork` of the first environment up to its last step.  Its code is in the page below its
stack. -/
def forkRun : Option ForkState := do
  let st ← forkNext (pc .roundRobin) codeUpcall forkStart (0, .fork true)
  let st ← forkSteps 3 st
  let st ← skipTo 0 0xeebfc st
  forkSteps 13 st

theorem forkRun_reach {st : ForkState} (h : forkRun = some st) :
    Reach (forkSystem (pc .roundRobin) lowPages codeUpcall) anyEvent st := by
  unfold forkRun at h
  obtain ⟨st₁, h₁, h⟩ := Option.bind_eq_some_iff.mp h
  obtain ⟨st₂, h₂, h⟩ := Option.bind_eq_some_iff.mp h
  obtain ⟨st₃, h₃, h⟩ := Option.bind_eq_some_iff.mp h
  have hstart : Reach (forkSystem (pc .roundRobin) lowPages codeUpcall) anyEvent forkStart :=
    .init forkStart_init
  have hr := hstart.step trivial (forkNext_step h₁)
  exact forkSteps_reach (skipTo_reach (forkSteps_reach hr h₂) h₃) h

/-- The run ends before the last step of `fork`, which is the next one.  Then the parent stores
to its exception stack. -/
theorem exists_forkRun : ∃ st st' st'',
    Reach (forkSystem (pc .roundRobin) lowPages codeUpcall) anyEvent st ∧
    (forkSystem (pc .roundRobin) lowPages codeUpcall).step st (0, .go 0 initTf) st' ∧
    (forkSystem (pc .roundRobin) lowPages codeUpcall).step st' (0, .store exstk 7#8) st'' ∧
    (st.threads 0).act = .forking 0x1001#32 .status [] ∧ (st'.threads 0).act = .program ∧
    Live st'.kernel 1 := by
  have hrun : forkRun.map (fun st => ((st.threads 0).act,
      (forkSteps 1 st).map fun st' => ((st'.threads 0).act, decide (Live st'.kernel 1),
        (forkNext (pc .roundRobin) codeUpcall st' (0, .store exstk 7#8)).isSome))) =
        some (.forking 0x1001#32 .status [], some (.program, true, true)) := by decide +kernel
  obtain ⟨st, hst, hacts⟩ := Option.map_eq_some_iff.mp hrun
  obtain ⟨hact, hmap⟩ := Prod.mk.inj hacts
  obtain ⟨st', hst', hend⟩ := Option.map_eq_some_iff.mp hmap
  obtain ⟨hprog, hrest⟩ := Prod.mk.inj hend
  obtain ⟨hlive, hsome⟩ := Prod.mk.inj hrest
  obtain ⟨st'', hstore⟩ := Option.isSome_iff_exists.mp hsome
  obtain ⟨_, hnext, hnil⟩ := Option.bind_eq_some_iff.mp hst'
  cases hnil
  exact ⟨st, st', st'', forkRun_reach hst, forkNext_step hnext, forkNext_step hstore, hact, hprog,
    of_decide_eq_true hlive⟩

theorem fork_guarded_pc : ∃ st, (st.threads 0).act = .forking 0x1001#32 .status [] ∧
    Guarded (spaces st.kernel) (excepted st) := by
  obtain ⟨st, _, _, hreach, -, -, hact, -⟩ := exists_forkRun
  exact ⟨st, hact, fork_guarded hreach⟩

theorem fork_memory_pc : ∃ st st' : ForkState, view st'.kernel 1 0xeebfd000#32 =
    if 1 = 0 then (UserEvent.store exstk 7#8).result 0xeebfd000#32 (view st.kernel 1 0xeebfd000#32)
    else view st.kernel 1 0xeebfd000#32 := by
  obtain ⟨st, st', st'', hreach, hstep, hstore, -, -, hlive⟩ := exists_forkRun
  exact ⟨st', st'', fork_memory (hreach.step trivial hstep) hstore hlive (by decide) (by decide)
    (by decide)⟩

theorem fork_isolates_pc : ∃ st st' : ForkState, view st'.kernel 1 exstk = view st.kernel 1 exstk := by
  obtain ⟨st, st', st'', hreach, hstep, hstore, -, -, hlive⟩ := exists_forkRun
  exact ⟨st', st'', fork_isolates (hreach.step trivial hstep) hstore hlive (by decide) (by decide)⟩

theorem fork_returns_pc : ∃ st' : ForkState, envx 0x1001#32 ≠ 0 ∧ Live st'.kernel (envx 0x1001#32) ∧
    ∀ va, va < utop → pgnum va ≠ exstkPage → pgnum va ≠ tempPage → va ∉ [] →
      view st'.kernel (envx 0x1001#32) va = view st'.kernel 0 va := by
  obtain ⟨st, st', _, hreach, hstep, -, hact, hend, -⟩ := exists_forkRun
  exact ⟨st', fork_returns hreach hstep hact hend⟩

end Jos
end Sisop

import Sisop.Jos.Exhaustion

/-!
# Sends that fail

The comment of `sys_ipc_try_send` ends with "The ipc only happens when no errors
occur".  The code reads the entry of the page to be sent without asking whether
`page_lookup` found one, tests the bits of the permission only when the receiver asks
for a page, and maps a page of its own in the receiver before the sender's.
-/

namespace Sisop
namespace Jos

open RefCount TransitionSystem Exit

/-- What the comment of `sys_ipc_try_send` calls `-E_INVAL`, for an address below `UTOP`. -/
def BadTransfer (s : KState) (cur : Nat) (srcva perm : Word) : Prop :=
  srcva % 4096#32 ≠ 0#32 ∨ mapped s cur srcva = none ∨ ¬ PermOk perm ∨
    (perm &&& pteW ≠ 0#32 ∧ wordAt s cur srcva &&& pteW = 0#32)

/-- What the comment promises of a send that fails.  `junk` is what a read through an
uninitialised pointer gives, if it does not fault; nothing may depend on it. -/
structure TrySendContract (M : Machine) (s : KState) (cur : Nat) (envid value srcva perm : Word) :
    Prop where
  clean : ∀ junk r s', sysIpcTrySend M s cur envid value srcva perm junk = .ok (r, s') → r < 0 →
    Restored s s'
  invalid : ∀ dst, envid2env s cur envid false = .ok dst → (s.envs dst).envIpcRecving = true →
    srcva < utop → BadTransfer s cur srcva perm → ∀ junk, ∃ s',
      sysIpcTrySend M s cur envid value srcva perm junk = .ok (-eInval, s')

/-- The transfer of an aligned page to `dst` that keeps to the comment: the page is mapped, and
unless the permission asks to write where the sender cannot, a receiver that wants
no page is not sent a bad permission, and one that does has memory for it. -/
structure SoundTransfer (s : KState) (cur dst : Nat) (srcva perm : Word) : Prop where
  page : mapped s cur srcva ≠ none
  perm_ok : (perm &&& pteW ≠ 0#32 → wordAt s cur srcva &&& pteW ≠ 0#32) →
    (s.envs dst).envIpcDstva = 0#32 → PermOk perm
  memory : (perm &&& pteW ≠ 0#32 → wordAt s cur srcva &&& pteW ≠ 0#32) →
    (s.envs dst).envIpcDstva ≠ 0#32 → ¬ LastPage s dst (s.envs dst).envIpcDstva perm

section

variable {M : Machine} {K : Nat → Prop} {s : KState} {cur dst : Nat}
  {envid value srcva perm : Word}

theorem flags_comm (perm : Word) : perm ||| pteU ||| pteP = pteP ||| pteU ||| perm := by
  rw [BitVec.or_comm, BitVec.or_comm perm, BitVec.or_assoc]

/-- The end of the call for a receiver that asks for the page. -/
def sendPage (M : Machine) (s : KState) (cur dst : Nat) (value srcva perm : Word) :
    Except Stop (Int × KState) := do
  let (r, s) ← ipcTransfer M s cur dst srcva perm
  if r < 0 then pure (r, s)
  else
    let s := s.setEnv dst fun env => { env with envIpcPerm := perm }
    pure (0, ipcDeliver s cur dst value)

/-- The end of the call, once the target and the address pass. -/
def trySendPage (M : Machine) (s : KState) (cur dst : Nat) (value srcva perm srcpte : Word) :
    Except Stop (Int × KState) :=
  if srcpte ≠ 0#32 ∧ srcpte &&& pteP = 0#32 then pure (-eInval, s)
  else if perm &&& pteW ≠ 0#32 ∧ srcpte &&& pteW = 0#32 then pure (-eInval, s)
  else if (s.envs dst).envIpcDstva = 0#32 then pure (0, ipcDeliver s cur dst value)
  else sendPage M s cur dst value srcva (perm ||| pteU ||| pteP)

theorem sysIpcTrySend_aligned (hdst : envid2env s cur envid false = .ok dst)
    (hrecv : (s.envs dst).envIpcRecving = true) (htop : srcva < utop)
    (halign : srcva % 4096#32 = 0#32) (value perm : Word) (junk : Option Word) :
    sysIpcTrySend M s cur envid value srcva perm junk =
      ipcSrcpte M s cur srcva junk >>= trySendPage M s cur dst value srcva perm := by
  have hnot : ¬ ¬ (s.envs dst).envIpcRecving = true := not_not.mpr hrecv
  unfold sysIpcTrySend
  rw [hdst]
  dsimp only
  rw [if_neg hnot, if_neg (BitVec.not_le.mpr htop), if_neg (not_not.mpr halign)]
  rfl

/-- Calls that stop before they touch the page leave everything as it was. -/
theorem TrySendContract.of_same {r : Int}
    (h : ∀ junk, sysIpcTrySend M s cur envid value srcva perm junk = .ok (r, s))
    (hinvalid : ∀ dst, envid2env s cur envid false = .ok dst →
      (s.envs dst).envIpcRecving = true → srcva < utop → BadTransfer s cur srcva perm →
      r = -eInval) : TrySendContract M s cur envid value srcva perm := by
  refine ⟨fun junk r' s' hcall _ => ?_, fun dst hdst hrecv htop hbad junk => ⟨s, ?_⟩⟩
  · have heq : (r, s) = (r', s') := Except.ok.inj ((h junk).symm.trans hcall)
    cases heq
    exact .refl s
  · rw [h junk, hinvalid dst hdst hrecv htop hbad]

/-- A page that is mapped is read through its entry, whatever `junk` is. -/
theorem PageInv.ipcSrcpte_eq {free : List Nat} {held : Nat → Nat} {d : Nat}
    (h : PageInv M K s.pm s.dirs free held) (hd : s.dirs cur = some d) (hi : pdx srcva < pdxUtop)
    (hne : wordAt s cur srcva ≠ 0#32) (junk : Option Word) :
    ipcSrcpte M s cur srcva junk = .ok (wordAt s cur srcva) := by
  obtain ⟨t, _, hread, hlook⟩ := h.pageLookup_some hd hi hne
  unfold ipcSrcpte
  rw [show (s.envs cur).envPgdir = some d from hd, hlook]
  exact congrArg Except.ok hread

theorem PageInv.ipcSrcpte_unmapped {free : List Nat} {held : Nat → Nat} {d : Nat}
    (h : PageInv M K s.pm s.dirs free held) (hd : s.dirs cur = some d) (hi : pdx srcva < pdxUtop)
    (hz : wordAt s cur srcva = 0#32) :
    ipcSrcpte M s cur srcva none = .error (.panic "page fault in kernel mode") := by
  unfold ipcSrcpte
  rw [show (s.envs cur).envPgdir = some d from hd, h.pageLookup_none hd hi hz]
  rfl

/-- The sender's page takes the place of the one that `env_page_alloc` has mapped. -/
theorem PageInv.envPageMap_over {m m' : PMap} {dirs : Nat → Option Nat} {free' : List Nat}
    {sd dd p : Nat} {dstva : Word} (h' : PageInv M K m' dirs free' fun _ => 0)
    (hsd : dirs cur = some sd) (hdd : dirs dst = some dd) (hsi : pdx srcva < pdxUtop)
    (hdi : pdx dstva < pdxUtop) (hne : pteWord m dirs cur (pdx srcva) (ptx srcva) ≠ 0#32)
    (hw : perm &&& pteW ≠ 0#32 → pteWord m dirs cur (pdx srcva) (ptx srcva) &&& pteW ≠ 0#32)
    (hpte : ∀ e' i' j', pteWord m' dirs e' i' j' =
      if e' = dst ∧ i' = pdx dstva ∧ j' = ptx dstva then
        page2pa p ||| (perm ||| pteU ||| pteP) ||| pteP
      else pteWord m dirs e' i' j') :
    ∃ m'', envPageMap M m' (some sd) srcva (some dd) dstva (perm ||| pteU ||| pteP) =
      .ok (0, m'') := by
  have hnew : page2pa p ||| (perm ||| pteU ||| pteP) ||| pteP ≠ 0#32 := or_pteP_ne_zero _
  have hne' : pteWord m' dirs cur (pdx srcva) (ptx srcva) ≠ 0#32 := by
    rw [hpte]
    split
    · exact hnew
    · exact hne
  have hw' : perm &&& pteW ≠ 0#32 →
      pteWord m' dirs cur (pdx srcva) (ptx srcva) &&& pteW ≠ 0#32 := by
    intro hpw
    rw [hpte]
    split
    · intro hz
      rw [BitVec.and_comm] at hz
      simp only [BitVec.and_or_distrib_left, BitVec.or_eq_zero_iff] at hz
      exact hpw ((BitVec.and_comm _ _).trans hz.1.2.1.1)
    · exact hw hpw
  have hroom : free' = [] → pdeWord m' dirs dst (pdx dstva) ≠ 0#32 := by
    intro _ hz
    have hentry := hpte dst (pdx dstva) (ptx dstva)
    rw [if_pos ⟨rfl, rfl, rfl⟩, pteWord_of_no_pde hz] at hentry
    exact hnew hentry.symm
  obtain ⟨m'', hins, _⟩ := h'.pageInsert_words hdd hdi hroom
    (pgnum (pteWord m' dirs cur (pdx srcva) (ptx srcva))) (pteP ||| pteU ||| perm)
  refine ⟨m'', ?_⟩
  rw [flags_comm, h'.envPageMap_insert hsd hsi hne' hw', hins]

/-- A receiver that asks for the page gets it whenever `env_page_alloc` does not fail. -/
theorem ipcTransfer_cases {free : List Nat} {sd dd : Nat}
    (h : PageInv M K s.pm s.dirs free fun _ => 0) (hsd : s.dirs cur = some sd)
    (hdd : s.dirs dst = some dd) (hsi : pdx srcva < pdxUtop)
    (hdi : pdx (s.envs dst).envIpcDstva < pdxUtop) (hne : wordAt s cur srcva ≠ 0#32)
    (hw : perm &&& pteW ≠ 0#32 → wordAt s cur srcva &&& pteW ≠ 0#32) :
    (∃ r, ¬ LastPage s dst (s.envs dst).envIpcDstva perm ∧ r < 0 ∧ (¬ PermOk perm → r = -eInval) ∧
        ipcTransfer M s cur dst srcva (perm ||| pteU ||| pteP) = .ok (r, s)) ∨
      (LastPage s dst (s.envs dst).envIpcDstva perm ∧ ∃ s', ¬ Restored s s' ∧
        ipcTransfer M s cur dst srcva (perm ||| pteU ||| pteP) = .ok (-eNoMem, s')) ∨
      PermOk perm ∧ ¬ LastPage s dst (s.envs dst).envIpcDstva perm ∧ ∃ s',
        ipcTransfer M s cur dst srcva (perm ||| pteU ||| pteP) = .ok (0, s') := by
  have hout := h.envPageAlloc_outcome hdd hdi perm
  rw [lastPage_iff h hdi]
  unfold ipcTransfer
  dsimp only
  rw [show (s.envs dst).envPgdir = some dd from hdd]
  generalize envPageAlloc M s.pm (some dd) (s.envs dst).envIpcDstva (perm ||| pteU ||| pteP) = x
    at hout ⊢
  cases hout with
  | refused hperm =>
      exact .inl ⟨-eInval, fun hl => hperm hl.1, eInval_neg, fun _ => rfl, rfl⟩
  | empty hperm hfree =>
      refine .inl ⟨-eNoMem, fun hl => ?_, eNoMem_neg, fun hn => absurd hperm hn, rfl⟩
      obtain ⟨p, hp⟩ := hl.2.1
      rw [hfree] at hp
      cases hp
  | lost m' p hperm hfree hpde hinv hunref hpte =>
      rw [hfree] at h
      refine .inr (.inl ⟨⟨hperm, ⟨p, hfree⟩, hpde⟩, { s with pm := m' }, ?_, rfl⟩)
      exact (not_restored_of_lost h hinv hunref : ¬ Restored s { s with pm := m' })
  | mapped m' free' p hperm hp hroom hinv hpte hmem =>
      obtain ⟨m'', hmap⟩ := hinv.envPageMap_over hsd hdd hsi hdi hne hw hpte
      refine .inr (.inr ⟨hperm, fun hl => hroom hl.2.1 hl.2.2, { s with pm := m'' }, ?_⟩)
      show withPm _ (envPageMap M m' (s.envs cur).envPgdir srcva (s.envs dst).envPgdir
        (s.envs dst).envIpcDstva (perm ||| pteU ||| pteP)) = _
      rw [show (s.envs cur).envPgdir = some sd from hsd,
        show (s.envs dst).envPgdir = some dd from hdd, hmap]
      rfl

/-- A send that gets to `sendPage` returns what the transfer returns. -/
theorem sendPage_error {r : Int} {s' : KState} (hr : r < 0)
    (h : ipcTransfer M s cur dst srcva perm = .ok (r, s')) :
    sendPage M s cur dst value srcva perm = .ok (r, s') := by
  unfold sendPage
  rw [h, Except.ok_bind_eq]
  exact if_pos hr

theorem sendPage_zero {s' : KState} (h : ipcTransfer M s cur dst srcva perm = .ok (0, s'))
    (value : Word) :
    ∃ s'', sendPage M s cur dst value srcva perm = .ok (0, s'') := by
  unfold sendPage
  rw [h, Except.ok_bind_eq]
  exact ⟨_, if_neg (lt_irrefl _)⟩

/-- A send of an aligned page keeps to the comment exactly when the transfer is sound. -/
theorem soundTransfer_iff (h : BaseInv M K s) (hcur : (s.envs cur).envPgdir ≠ none)
    (hdst : envid2env s cur envid false = .ok dst) (hrecv : (s.envs dst).envIpcRecving = true)
    (htop : srcva < utop) (halign : srcva % 4096#32 = 0#32) :
    TrySendContract M s cur envid value srcva perm ↔ SoundTransfer s cur dst srcva perm := by
  obtain ⟨sd, hsd⟩ := Option.ne_none_iff_exists'.mp hcur
  obtain ⟨dd, hdd⟩ := Option.ne_none_iff_exists'.mp (h.envid2env_dir hcur hdst)
  obtain ⟨free, hp⟩ := h.pages
  have hva : ¬ badVa srcva := by
    rintro (hle | hmod)
    · exact absurd htop (BitVec.not_lt.mpr hle)
    · exact hmod halign
  have hsi := Calling.pdx_of_not_badVa hva
  have hdi : pdx (s.envs dst).envIpcDstva < pdxUtop := (pdx_lt_pdxUtop_iff _).mpr (h.dstva dst)
  have hmap := mapped_eq_none_iff (e := cur) hp hva
  have hcall := sysIpcTrySend_aligned (M := M) hdst hrecv htop halign
    value perm
  by_cases hz : wordAt s cur srcva = 0#32
  · -- The entry is read through a pointer that was never set.
    refine iff_of_false (fun hc => ?_) fun hs => hs.page (hmap.mpr hz)
    obtain ⟨s', hs'⟩ := hc.invalid dst hdst hrecv htop (.inr (.inl (hmap.mpr hz))) none
    rw [hcall, hp.ipcSrcpte_unmapped hsd hsi hz] at hs'
    cases hs'
  have hpage : mapped s cur srcva ≠ none := fun hn => hz (hmap.mp hn)
  have hread := hp.ipcSrcpte_eq hsd hsi hz
  have hpresent : wordAt s cur srcva &&& pteP ≠ 0#32 := (hp.pte_present _ _).mpr hz
  by_cases hw : perm &&& pteW ≠ 0#32 ∧ wordAt s cur srcva &&& pteW = 0#32
  · refine iff_of_true (.of_same (r := -eInval) (fun junk => ?_) fun _ _ _ _ _ => rfl)
      ⟨hpage, fun hwr => absurd hw.2 (hwr hw.1), fun hwr => absurd hw.2 (hwr hw.1)⟩
    rw [hcall, hread, Except.ok_bind_eq]
    unfold trySendPage
    rw [if_neg fun hx => hpresent hx.2, if_pos hw]
    rfl
  have hwrite : perm &&& pteW ≠ 0#32 → wordAt s cur srcva &&& pteW ≠ 0#32 :=
    fun hpw h0 => hw ⟨hpw, h0⟩
  have hbad : BadTransfer s cur srcva perm ↔ ¬ PermOk perm := by
    constructor
    · rintro (hmod | hn | hperm | hwr)
      · exact absurd halign hmod
      · exact absurd hn hpage
      · exact hperm
      · exact absurd hwr hw
    · exact fun hperm => .inr (.inr (.inl hperm))
  have hread' : ∀ junk, sysIpcTrySend M s cur envid value srcva perm junk =
      if (s.envs dst).envIpcDstva = 0#32 then pure (0, ipcDeliver s cur dst value)
      else sendPage M s cur dst value srcva (perm ||| pteU ||| pteP) := by
    intro junk
    rw [hcall, hread, Except.ok_bind_eq, trySendPage, if_neg fun hx => hpresent hx.2, if_neg hw]
  by_cases hdv : (s.envs dst).envIpcDstva = 0#32
  · -- The receiver wants no page, and the permission is not looked at.
    have hzero : ∀ junk, sysIpcTrySend M s cur envid value srcva perm junk =
        .ok (0, ipcDeliver s cur dst value) := fun junk => (hread' junk).trans (if_pos hdv)
    constructor
    · intro hc
      refine ⟨hpage, fun _ _ => ?_, fun _ hne => absurd hdv hne⟩
      by_contra hperm
      obtain ⟨s', hs'⟩ := hc.invalid dst hdst hrecv htop (hbad.mpr hperm) none
      rw [hzero] at hs'
      have hr : (0 : Int) = -eInval := congrArg Prod.fst (Except.ok.inj hs')
      exact absurd hr (by decide)
    · intro hs
      refine ⟨fun junk r s' hr hneg => ?_, fun dst' hdst' _ _ hb _ => ?_⟩
      · rw [hzero] at hr
        have hr := congrArg Prod.fst (Except.ok.inj hr)
        dsimp only at hr
        omega
      · exact absurd (hs.perm_ok hwrite hdv) (hbad.mp hb)
  · have hsend : ∀ junk, sysIpcTrySend M s cur envid value srcva perm junk =
        sendPage M s cur dst value srcva (perm ||| pteU ||| pteP) :=
      fun junk => (hread' junk).trans (if_neg hdv)
    rcases ipcTransfer_cases (M := M) hp hsd hdd hsi hdi hz hwrite with
      ⟨r, hlast, hneg, hinval, htr⟩ | ⟨hlast, s', hno, htr⟩ | ⟨hperm, hlast, s', htr⟩
    · refine iff_of_true (.of_same (r := r) (fun junk => ?_) fun _ _ _ _ hb => ?_)
        ⟨hpage, fun _ h0 => absurd h0 hdv, fun _ _ => hlast⟩
      · rw [hsend, sendPage_error hneg htr]
      · exact hinval (hbad.mp hb)
    · refine iff_of_false (fun hc => ?_) fun hs => hs.memory hwrite hdv hlast
      refine hno (hc.clean none (-eNoMem) s' ?_ eNoMem_neg)
      rw [hsend, sendPage_error eNoMem_neg htr]
    · obtain ⟨s'', hzero⟩ := sendPage_zero htr value
      refine iff_of_true ⟨fun junk r s₁ hr hneg => ?_, fun _ _ _ _ hb _ => ?_⟩
        ⟨hpage, fun _ h0 => absurd h0 hdv, fun _ _ => hlast⟩
      · rw [hsend, hzero] at hr
        have hr := congrArg Prod.fst (Except.ok.inj hr)
        dsimp only at hr
        omega
      · exact absurd hperm (hbad.mp hb)

/-- `sys_ipc_try_send` keeps to its comment exactly when no transfer that is not sound
gets under way. -/
theorem trySendContract_iff (h : BaseInv M K s) (hcur : (s.envs cur).envPgdir ≠ none)
    (envid value srcva perm : Word) : TrySendContract M s cur envid value srcva perm ↔
      ∀ dst, envid2env s cur envid false = .ok dst → (s.envs dst).envIpcRecving = true →
        srcva < utop → srcva % 4096#32 = 0#32 → SoundTransfer s cur dst srcva perm := by
  cases hdst : envid2env s cur envid false with
  | error r =>
      refine iff_of_true (.of_same (r := r) (fun junk => ?_) fun dst he => ?_) fun dst he => ?_
      · unfold sysIpcTrySend
        rw [hdst]
      · rw [hdst] at he
        cases he
      · cases he
  | ok dst =>
      have hunique : ∀ e, envid2env s cur envid false = .ok e → e = dst := by
        intro e he
        rw [hdst] at he
        exact (Except.ok.inj he).symm
      by_cases hrecv : (s.envs dst).envIpcRecving = true
      · by_cases htop : srcva < utop
        · by_cases halign : srcva % 4096#32 = 0#32
          · rw [soundTransfer_iff h hcur hdst hrecv htop halign]
            constructor
            · rintro hs e he _ _ _
              cases he
              exact hs
            · exact fun hall => hall dst rfl hrecv htop halign
          · refine iff_of_true (.of_same (r := -eInval) (fun junk => ?_) fun _ _ _ _ _ => rfl)
              fun e _ _ _ hmod => absurd hmod halign
            unfold sysIpcTrySend
            rw [hdst]
            dsimp only
            rw [if_neg (not_not.mpr hrecv), if_neg (BitVec.not_le.mpr htop), if_pos halign]
        · refine iff_of_true ⟨fun junk r s' hcall hneg => ?_, fun _ _ _ hlt => absurd hlt htop⟩
            fun e _ _ hlt => absurd hlt htop
          unfold sysIpcTrySend at hcall
          rw [hdst] at hcall
          dsimp only at hcall
          rw [if_neg (not_not.mpr hrecv), if_pos (BitVec.not_lt.mp htop)] at hcall
          have hzero : (0 : Int) = r := congrArg Prod.fst (Except.ok.inj hcall)
          omega
      · refine iff_of_true (.of_same (r := -eIpcNotRecv) (fun junk => ?_) fun e he hr => ?_)
          fun e he hr => ?_
        · unfold sysIpcTrySend
          rw [hdst]
          exact if_pos hrecv
        · rw [hunique e he] at hr
          exact absurd hr hrecv
        · cases he
          exact absurd hr hrecv

end

/-- The first environment waits for a page.  The second sends it its stack, and tries it with a
permission that is none. -/
theorem trySendContract_pc : ∃ s, BaseInv (pc .roundRobin) lowPages s ∧ s.curenv 0 = some 1 ∧
    (s.envs 0).envIpcRecving = true ∧ (s.envs 0).envIpcDstva = 0x800000#32 ∧
    (∃ s', sysIpcTrySend (pc .roundRobin) s 1 0x1000#32 9#32 0xeebfd000#32 7#32 none =
      .ok (0, s')) ∧
    TrySendContract (pc .roundRobin) s 1 0x1000#32 9#32 0xeebfd000#32 7#32 ∧
    ∃ s', sysIpcTrySend (pc .roundRobin) s 1 0x1000#32 9#32 0xeebfd000#32 8#32 none =
      .ok (-eInval, s') ∧ Restored s s' := by
  have hrun : (runCarefully (pc .roundRobin) [.create emptyImage, .create emptyImage, .start 0,
      call 0 12#32 0x800000#32 0#32 0#32 0#32 0#32] pcBoot).any (fun s =>
      s.curenv 0 = some 1 ∧ (s.envs 1).envPgdir ≠ none ∧ (s.envs 0).envIpcRecving = true ∧
        (s.envs 0).envIpcDstva = 0x800000#32 ∧ envid2env s 1 0x1000#32 false = .ok 0 ∧
        mapped s 1 0xeebfd000#32 ≠ none ∧
        s.pm.pageFreeList.bind s.pm.ppLink ≠ none ∧
        (sysIpcTrySend (pc .roundRobin) s 1 0x1000#32 9#32 0xeebfd000#32 7#32 none).toOption.any
          (fun x => x.1 = 0) = true) = true := by decide +kernel
  obtain ⟨s, -, hbase, -, hs⟩ := exists_careful anyEvent (fun _ _ _ _ _ _ => trivial)
    (pcBoot_booted .roundRobin) hrun
  rw [decide_eq_true_eq] at hs
  obtain ⟨hcur, hdir, hrecv, hdstva, hdst, hpage, hmore, hsent⟩ := hs
  have hsound : ∀ perm, SoundTransfer s 1 0 0xeebfd000#32 perm := by
    refine fun perm => ⟨hpage, fun _ hzero => ?_, fun _ _ hlast => ?_⟩
    · rw [hdstva] at hzero
      exact absurd hzero (by decide)
    · obtain ⟨p, hhead, hnext⟩ := hlast.last
      rw [hhead] at hmore
      exact hmore hnext
  have hcontract : ∀ perm,
      TrySendContract (pc .roundRobin) s 1 0x1000#32 9#32 0xeebfd000#32 perm := by
    refine fun perm => (trySendContract_iff hbase hdir _ _ _ _).mpr fun dst he _ _ _ => ?_
    obtain rfl : 0 = dst := Except.ok.inj (hdst.symm.trans he)
    exact hsound perm
  obtain ⟨s', hbad⟩ := (hcontract 8#32).invalid 0 hdst hrecv (by decide)
    (.inr (.inr (.inl (by decide)))) none
  exact ⟨s, hbase, hcur, hrecv, hdstva, exists_outcome hsent, hcontract _, s', hbad,
    (hcontract 8#32).clean none _ _ hbad (by decide)⟩

/-- The first environment waits in `sys_ipc_recv`, and the second sends it a page it does
not have. -/
theorem send_unmapped : ¬ ∀ s cur envid value srcva perm,
    (kernel (pc .roundRobin) lowPages).Reach anyEvent s → s.curenv 0 = some cur →
      TrySendContract (pc .roundRobin) s cur envid value srcva perm := by
  intro hall
  have hrun : (run (pc .roundRobin) [.create emptyImage, .create emptyImage, .start 0,
      call 0 12#32 0x1000#32 0#32 0#32 0#32 0#32] pcBoot).any (fun s =>
      s.curenv 0 = some 1 ∧ (s.envs 0).envIpcRecving = true ∧
        envid2env s 1 0x1000#32 false = .ok 0 ∧ mapped s 1 0#32 = none ∧
        (sysIpcTrySend (pc .roundRobin) s 1 0x1000#32 0#32 0#32 5#32 none).toOption = none) =
        true := by
    decide
  obtain ⟨s, hreach, hs⟩ := reach_of_any (pcBoot_booted .roundRobin) hrun
  rw [decide_eq_true_eq] at hs
  obtain ⟨hcur, hrecv, hdst, hnone, hfault⟩ := hs
  have hc := hall s 1 0x1000#32 0#32 0#32 5#32 hreach hcur
  obtain ⟨s', hs'⟩ := hc.invalid 0 hdst hrecv (by decide) (.inr (.inl hnone)) none
  rw [hs'] at hfault
  cases hfault

end Jos
end Sisop

import Sisop.Jos.ForkStores

/-!
# The handler under copy-on-write

Each step of `pgfault` keeps the invariant: it gets a frame that nobody has at `PFTEMP`,
copies the page of the fault to it word by word, maps it at that page too and takes it from
`PFTEMP`.  The steps that fail or fault leave every place as it was.
-/

namespace Sisop
namespace Jos

open TransitionSystem CopyOnWrite RefCount

section

variable {M : Machine} {K : Nat → Prop} {st : ForkState} {s' : KState} {e d c n p : Nat}
  {t : Thread} {envid : Word} {pc : ForkPc} {wrote : List Word} {h : PgfaultRun}
  {rest : List PgfaultRun}

/-! ## Entries -/

theorem or_and_right_self (u v w : Word) : (u ||| v ||| w) &&& v = v := by
  ext i hi
  simp only [BitVec.getElem_and, BitVec.getElem_or]
  cases u[i] <;> cases v[i] <;> cases w[i] <;> rfl

/-- The entry `pgfault` gives its pages. -/
theorem userWord_pgfault (p : Nat) : UserWord (page2pa p ||| pgfaultPerm) := by
  have hall := or_and_self (page2pa p) pgfaultPerm
  refine ⟨and_of_and hall (by decide), .inl ?_⟩
  rw [and_of_and hall (show pgfaultPerm &&& pteW = pteW by decide)]
  decide

theorem duppagePerm_spec (pte : Word) : (duppagePerm pte ||| pteCow).toNat < 4096 ∧
    (duppagePerm pte ||| pteCow) &&& pteW = 0#32 ∧
    (duppagePerm pte ||| pteCow) &&& pteCow = pteCow := by
  unfold duppagePerm
  split <;> decide

/-- The entries `duppage` makes: copy-on-write, and not to be written. -/
theorem duppage_word (pte : Word) (hp : p < 2 ^ 20) :
    entry (mappedWord p (duppagePerm pte ||| pteCow)) = some p ∧
      UserWord (mappedWord p (duppagePerm pte ||| pteCow)) ∧
      mappedWord p (duppagePerm pte ||| pteCow) &&& pteW = 0#32 := by
  obtain ⟨hlow, hw, hcow⟩ := duppagePerm_spec pte
  have hperm : pgnum (pteP ||| pteU ||| (duppagePerm pte ||| pteCow)) = 0 := by
    rw [pgnum_or, pgnum_eq_zero hlow]
    decide
  have hall : mappedWord p (duppagePerm pte ||| pteCow) &&&
      (pteP ||| pteU ||| (duppagePerm pte ||| pteCow)) =
        pteP ||| pteU ||| (duppagePerm pte ||| pteCow) := or_and_right_self _ _ _
  refine ⟨entry_page hp hperm, ⟨and_of_and hall ?_, .inr ?_⟩, ?_⟩
  · rw [BitVec.or_comm (pteP ||| pteU)]
    exact or_and_self _ _
  · rw [and_of_and hall (show (pteP ||| pteU ||| (duppagePerm pte ||| pteCow)) &&& pteCow =
      pteCow by rw [← BitVec.or_assoc]; exact or_and_self _ _)]
    decide
  · by_contra hne
    exact (writableEntry_share p _).mp hne hw

/-! ## Replacing an entry -/

theorem Replaced.user_words {w : Word} {x₀ : Nat × Nat} (hr : Replaced M K st.kernel s' x₀ w)
    (hi : ForkInv M K st) (hw : w ≠ 0#32 → UserWord w) (x : Nat × Nat)
    (hx : wordOn s' x ≠ 0#32) : UserWord (wordOn s' x) := by
  rw [hr.word] at hx ⊢
  split at hx
  · rename_i heq
    rw [if_pos heq]
    exact hw hx
  · rename_i hne
    rw [if_neg hne]
    exact hi.user x hx

theorem Replaced.guard {w : Word} {x₀ : Nat × Nat} {ex : Nat × Nat → Nat × Nat → Prop}
    (hr : Replaced M K st.kernel s' x₀ w) (hi : ForkInv M K st)
    (hex : ∀ x y, x ≠ x₀ → y ≠ x₀ → excepted st x y → ex x y)
    (hnew : ∀ y q, y ≠ x₀ → entry w = some q → entry (wordOn st.kernel y) = some q →
      (spaces s').Shares x₀ y ∨ ex x₀ y ∨ ex y x₀) : Guarded (spaces s') ex := by
  refine hi.guarded.change (fun x (hx : x ≠ x₀) => ?_) (fun x hx hw => ?_) hex fun y q hy hq hyq => ?_
  · exact congrArg entry (hr.kept hx).1
  · show wordOn st.kernel x &&& pteW ≠ 0#32
    rw [← (hr.kept hx).1]
    exact hw
  · refine hnew y q hy ?_ hyq
    rw [← hr.word_self]
    exact hq

/-- The fork of `e` goes on when one of its own pages is replaced by one that reads the
same, or `fork` does not compare it. -/
theorem Forking.replaced {s : KState} {w : Word} (hf : Forking s e envid pc wrote)
    (hr : Replaced M K s s' (e, n) w)
    (hbyte : n ≠ exstkPage → n ≠ tempPage → ∀ va, pgnum va = n → byteAt s' e va = byteAt s e va) :
    Forking s' e envid pc wrote := by
  have hchild : ∀ m, Kept s s' (envx envid, m) := fun m =>
    hr.kept fun heq => hf.ne (congrArg Prod.fst heq)
  refine hf.frame' (sameEnv_of_envs hr.envs _) (sameEnv_of_envs hr.envs _)
    (fun m => (hchild m).1) (fun _ ha => ha) fun va hex htemp _ => ⟨(hchild _).byteAt_eq, ?_⟩
  by_cases hpage : pgnum va = n
  · exact hbyte (hpage ▸ hex) (hpage ▸ htemp) va hpage
  · exact (hr.kept fun heq => hpage (congrArg Prod.snd heq)).byteAt_eq

/-! ## `pgfault` -/

/-- The place of a page table entry. -/
def Slot.place : Slot → Nat × Nat
  | .pte e i j => (e, i * 1024 + j)
  | _ => (0, 0)

/-- The references to a frame are its places. -/
theorem refs_places (hi : ForkInv M K st) {x : Nat × Nat} {S : Finset (Nat × Nat)}
    (hx : entry (wordOn st.kernel x) = some p)
    (hS : ∀ e i j, e < nenv → i < pdxUtop → j < nptentries → (e, i * 1024 + j) ∈ S) :
    refs slots (target st.kernel.pm st.kernel.dirs) p ≤ refs S (spaces st.kernel).frame p := by
  obtain ⟨free, hinv⟩ := hi.base.pages
  have hpte : ∀ y, y ∈ slots → target st.kernel.pm st.kernel.dirs y = some p →
      ∃ e i j, y = .pte e i j ∧ e < nenv ∧ i < pdxUtop ∧ j < 1024 := fun y hin hy => by
    have hkind : y.isPte := by
      rcases hinv.excl y (.pte x.1 (x.2 / 1024) (x.2 % 1024)) p hy hx with rfl | ⟨h, -⟩
      · trivial
      · exact h
    cases y with
    | dir _ => exact hkind.elim
    | pde _ _ => exact hkind.elim
    | pte e i j => exact ⟨e, i, j, rfl, pte_mem_slots.mp hin⟩
  refine Finset.card_le_card_of_injOn Slot.place (fun y hy => ?_) fun y hy z hz heq => ?_
  · obtain ⟨hin, hyp⟩ := Finset.mem_filter.mp (Finset.mem_coe.mp hy)
    obtain ⟨e, i, j, rfl, he, hlt, hj⟩ := hpte y hin hyp
    refine Finset.mem_coe.mpr (Finset.mem_filter.mpr ⟨hS e i j he hlt hj, ?_⟩)
    show entry (pteWord _ _ e ((i * 1024 + j) / 1024) ((i * 1024 + j) % 1024)) = some p
    rw [show (i * 1024 + j) / 1024 = i by omega, show (i * 1024 + j) % 1024 = j by omega]
    exact hyp
  · obtain ⟨hyin, hyp⟩ := Finset.mem_filter.mp (Finset.mem_coe.mp hy)
    obtain ⟨hzin, hzp⟩ := Finset.mem_filter.mp (Finset.mem_coe.mp hz)
    obtain ⟨e, i, j, rfl, -, -, hj⟩ := hpte y hyin hyp
    obtain ⟨e', i', j', rfl, -, -, hj'⟩ := hpte z hzin hzp
    obtain ⟨rfl, hpage⟩ := Prod.mk.inj heq
    rw [show i = i' by omega, show j = j' by omega]

/-- The places of `a` owners with `b` tables each. -/
theorem exists_places (a b : Nat) : ∃ S : Finset (Nat × Nat),
    (∀ e i j, e < a → i < b → j < nptentries → (e, i * 1024 + j) ∈ S) ∧
      ∀ x ∈ S, x.1 ∈ Finset.range a := by
  refine ⟨Finset.range a ×ˢ Finset.range (b * 1024), fun e i j he hlt hj => ?_,
    fun x hx => (Finset.mem_product.mp hx).1⟩
  refine Finset.mem_product.mpr ⟨Finset.mem_range.mpr he, Finset.mem_range.mpr ?_⟩
  show i * 1024 + j < b * 1024
  unfold nptentries at hj
  omega

/-- Frames are never mapped so often that their count could wrap. -/
theorem ForkInv.count (hi : ForkInv M K st) {x : Nat × Nat}
    (hx : entry (wordOn st.kernel x) = some p) :
    refs slots (target st.kernel.pm st.kernel.dirs) p < 65535 := by
  obtain ⟨S, hS, howner⟩ := exists_places nenv pdxUtop
  have hle := refs_places hi hx hS
  have hrefs : refs S (spaces st.kernel).frame p ≤ 2 * (Finset.range nenv).card := by
    refine hi.guarded.refs_le (t := tempPage) (fun x y hxy hex => ?_) _ howner p
    rcases hex with ⟨⟨envid, pte, wrote, hact, hc⟩, -⟩ | ⟨-, -, ht⟩
    · exact absurd (hc.symm.trans hxy.symm) (hi.forking x.1 envid _ wrote hact).ne
    · exact ht
  rw [Finset.card_range] at hrefs
  unfold nenv at hrefs
  omega

theorem rounddown_page (va : Word) : pgnum (rounddown va) = pgnum va := by
  rw [pgnum_eq, pgnum_eq, toNat_rounddown_eq]
  omega

/-- The entries of the others are no concern of a step on an entry of `e` at `PFTEMP`. -/
theorem remapping_iff_of_faults (hf : (st.threads e).faults = h :: rest) :
    Remapping st e n ↔ h.pc = .pageUnmap ∧ n = pgnum h.utfFaultVa := by
  constructor
  · rintro ⟨h', rest', hf', hpc, hn⟩
    rw [hf] at hf'
    obtain ⟨rfl, rfl⟩ := List.cons.inj hf'
    exact ⟨hpc, hn⟩
  · rintro ⟨hpc, hn⟩
    exact ⟨h, rest, hf, hpc, hn⟩

/-- The `sys_page_alloc` of `pgfault` finds a page: a frame that nobody has is at `PFTEMP`. -/
theorem ForkInv.pageAlloc (hi : ForkInv M K st) (he : Live st.kernel e)
    (hf : (st.threads e).faults = h :: rest) (hpc : h.pc = .pageAlloc)
    (hfresh : ∀ x, entry (wordOn st.kernel x) ≠ some p)
    (hentry : entry (page2pa p ||| pgfaultPerm) = some p)
    (hr : Replaced M K st.kernel s' (e, tempPage) (page2pa p ||| pgfaultPerm)) :
    ForkStep M K st e ∅
      (st.put e s' { st.threads e with faults := { h with pc := .copy 0 } :: rest }) := by
  have hold := hi.faults e h rest hf
  refine hi.put he (hr.stepOf (.inl rfl) (fun q hq => .inl ?_) fun _ _ ht => absurd rfl ht) _ hr.base
    (hr.user_words hi fun _ => userWord_pgfault p) (hr.guard hi (fun x y hx hy hex => ?_) ?_)
    (fun envid pc wrote hact => ?_) fun h' rest' hf' => ?_
  · rw [hentry] at hq
    exact (Option.some.inj hq) ▸ hfresh
  · refine excepted_put hex (fun _ hb => betweenMaps_put.mpr hb) fun _ _ hrem => ?_
    rw [remapping_iff_of_faults hf, hpc] at hrem
    exact absurd hrem.1 PgfaultPc.noConfusion
  · intro y q _ hq hyq
    rw [hentry] at hq
    exact absurd hyq ((Option.some.inj hq) ▸ hfresh y)
  · obtain ⟨hfork, hc⟩ := hi.envs_same hact
    exact ⟨hfork.replaced hr fun _ ht => absurd rfl ht, .inl hc⟩
  · obtain ⟨rfl, rfl⟩ := List.cons.inj hf'
    refine ⟨fun _ => ⟨p, hr.word_self, by rw [hr.word_self]; exact hentry, fun x hx => ?_⟩,
      fun _ _ _ hw => absurd hw (Nat.lt_irrefl 0), Nat.zero_le _,
      fun hn => ⟨PgfaultPc.noConfusion, fun hva => ?_⟩⟩
    · by_contra hne
      rw [(hr.kept hne).1] at hx
      exact hfresh x hx
    · obtain ⟨htemp, hz, -⟩ := (hold.stuck hn).2 hva
      exact ⟨htemp, (hr.kept fun heq => htemp (congrArg Prod.snd heq)).1.trans hz, rfl⟩

/-- The `sys_page_map` of `pgfault`: its copy is at the page of the fault too, which reads as
it did. -/
theorem ForkInv.pageMap (hi : ForkInv M K st) (he : Live st.kernel e)
    (hf : (st.threads e).faults = h :: rest) (hpc : h.pc = .pageMap) (hva : h.utfFaultVa < utop)
    (hp : entry (wordOn st.kernel (e, tempPage)) = some p)
    (hr : Replaced M K st.kernel s' (e, pgnum h.utfFaultVa) (mappedWord p pgfaultPerm)) :
    ForkStep M K st e ∅
      (st.put e s' { st.threads e with faults := { h with pc := .pageUnmap } :: rest }) := by
  have hold := hi.faults e h rest hf
  obtain ⟨p', ht⟩ := hold.temp (by rw [hpc]; trivial)
  obtain rfl : p = p' := Option.some.inj (hp.symm.trans ht.frame)
  rw [mappedWord, (pgfault_word p).2] at hr
  have hentry : entry (page2pa p ||| pgfaultPerm) = some p := ht.word ▸ ht.frame
  -- The run has interrupted no other one, since it has got this far.
  have hnested : ¬ rest ≠ [] := fun hn => by
    have hwords := ((hold.stuck hn).2 hva).2.2
    rw [hpc] at hwords
    cases hwords
  have hsame : pgnum h.utfFaultVa ≠ exstkPage → pgnum h.utfFaultVa ≠ tempPage → ∀ va,
      pgnum va = pgnum h.utfFaultVa → byteAt s' e va = byteAt st.kernel e va := by
    intro hex htemp va hpage
    obtain ⟨q, hq, hcopy⟩ := hold.copied hva htemp hex (by rw [hpc]; decide)
    unfold byteAt
    rw [hpage, hr.word_self, hentry, hq, Option.map_some, Option.map_some, PMap.byte, PMap.byte,
      hr.mem _ p hp, hcopy p hp _ ?_]
    rw [hpc]
    show va.toNat % pgsize / 4 < nptentries
    unfold pgsize nptentries
    omega
  refine hi.put he (hr.stepOf (.inl rfl) (fun q hq => .inr ⟨tempPage, ?_⟩) fun _ => hsame) _ hr.base
    (hr.user_words hi fun _ => userWord_pgfault p) (hr.guard hi (fun x y hx hy hex => ?_) ?_)
    (fun envid pc wrote hact => ?_) fun h' rest' hf' => ?_
  · rw [hentry] at hq
    exact (Option.some.inj hq) ▸ hp
  · refine excepted_put hex (fun _ hb => betweenMaps_put.mpr hb) fun _ _ hrem => ?_
    rw [remapping_iff_of_faults hf, hpc] at hrem
    exact absurd hrem.1 PgfaultPc.noConfusion
  · intro y q _ hq hyq
    rw [hentry] at hq
    obtain rfl := Option.some.inj hq
    obtain rfl := ht.alone y hyq
    exact .inr (.inr (.inr ⟨remapping_put.mpr ⟨_, rest, rfl, rfl, rfl⟩, rfl, rfl⟩))
  · obtain ⟨hfork, hc⟩ := hi.envs_same hact
    exact ⟨hfork.replaced hr hsame, .inl hc⟩
  · obtain ⟨rfl, rfl⟩ := List.cons.inj hf'
    exact ⟨fun hc => absurd hc id, fun _ _ _ hw => absurd hw (Nat.lt_irrefl 0), Nat.zero_le _,
      fun hn => absurd hn hnested⟩

/-- The end of `pgfault`. -/
theorem ForkInv.pageUnmap (hi : ForkInv M K st) (he : Live st.kernel e)
    (hf : (st.threads e).faults = h :: rest) (hpc : h.pc = .pageUnmap)
    (hr : Replaced M K st.kernel s' (e, tempPage) 0#32) :
    ForkStep M K st e ∅ (st.put e s' { st.threads e with faults := rest }) := by
  have hold := hi.faults e h rest hf
  have hrest : rest = [] := by
    by_contra hn
    exact (hold.stuck hn).1 hpc
  refine hi.put he (hr.stepOf (.inl rfl) (fun q hq => ?_) fun _ _ ht => absurd rfl ht) _ hr.base
    (hr.user_words hi fun hz => absurd rfl hz) (hr.guard hi (fun x y hx hy hex => ?_) ?_)
    (fun envid pc wrote hact => ?_) fun h' rest' hf' => ?_
  · rw [entry_zero] at hq
    cases hq
  · exact excepted_put hex (fun _ hb => betweenMaps_put.mpr hb)
      fun hxe htemp _ => absurd (Prod.ext hxe htemp) hx
  · intro y q _ hq
    rw [entry_zero] at hq
    cases hq
  · obtain ⟨hfork, hc⟩ := hi.envs_same hact
    exact ⟨hfork.replaced hr fun _ ht => absurd rfl ht, .inl hc⟩
  · rw [hrest] at hf'
    cases hf'

/-! ## The copy -/

/-- The program reads every page that is there. -/
theorem ForkInv.readable (hi : ForkInv M K st) (hd : st.kernel.dirs e = some d) {va : Word}
    (hva : va < utop) :
    translate st.kernel.pm d userLoad va = entry (wordOn st.kernel (e, pgnum va)) := by
  obtain ⟨free, hp⟩ := hi.base.pages
  rw [translate_place hp hd hva (by decide) (by decide)]
  by_cases hz : wordOn st.kernel (e, pgnum va) = 0#32
  · rw [hz, if_neg (by decide), entry_zero]
  · rw [if_pos (hi.user _ hz).1, entry_of_ne hz]

/-- The words of a page. -/
theorem word_page {va : Word} {k : Nat} (hal : va.toNat % 4096 = 0) (hk : k < nptentries) :
    pgnum (va + BitVec.ofNat 32 (4 * k)) = pgnum va ∧
      (va + BitVec.ofNat 32 (4 * k)).toNat % pgsize / 4 = k := by
  have hto := toNat_wordVa hal hk
  unfold nptentries at hk
  rw [pgnum_eq, pgnum_eq, hto]
  unfold pgsize
  constructor <;> omega

/-- A word of the copy goes through: it is from the page of the fault to `PFTEMP`. -/
theorem ForkInv.copyWord (hi : ForkInv M K st) (he : Live st.kernel e)
    (hd : st.kernel.dirs e = some d) (hf : (st.threads e).faults = h :: rest) {k : Nat}
    (hpc : h.pc = .copy k) (hk : k < nptentries) {w : Word}
    (hw : wordOf st.kernel.pm d (rounddown h.utfFaultVa + BitVec.ofNat 32 (4 * k)) = some w)
    (hp : TempAt st.kernel e p) :
    ∃ m, setWordOf st.kernel.pm d (pftemp + BitVec.ofNat 32 (4 * k)) w = some m ∧
      ForkStep M K st e ∅ (st.put e { st.kernel with pm := m }
        { st.threads e with faults := { h with pc := .copy (k + 1) } :: rest }) := by
  have hold := hi.faults e h rest hf
  obtain ⟨free, hinv⟩ := hi.base.pages
  have hal : pftemp.toNat % 4096 = 0 := by decide
  obtain ⟨htpage, htoff⟩ := word_page hal hk
  obtain ⟨hspage, hsoff⟩ := word_page (rounddown_aligned h.utfFaultVa) hk
  rw [rounddown_page] at hspage
  have htemp : (pftemp + BitVec.ofNat 32 (4 * k)) < utop := by
    have hto := toNat_wordVa hal hk
    rw [show pftemp.toNat = 8384512 by decide] at hto
    rw [BitVec.lt_def, hto, show utop.toNat = 4005560320 from rfl]
    unfold nptentries at hk
    omega
  have hand : wordOn st.kernel (e, tempPage) &&& userStore = userStore := by
    rw [hp.word, pgfaultPerm_eq]
    exact or_and_self _ _
  have hwrites : (spaces st.kernel).writes (e, tempPage) := by
    show wordOn st.kernel (e, tempPage) &&& pteW ≠ 0#32
    rw [and_of_and hand (show userStore &&& pteW = pteW by decide)]
    decide
  have htrans : translate st.kernel.pm d userStore (pftemp + BitVec.ofNat 32 (4 * k)) = some p := by
    rw [translate_place hinv hd htemp (by decide) (by decide), htpage,
      show pgnum pftemp = tempPage from rfl, if_pos hand]
    exact congrArg some (entry_eq_some.mp hp.frame).2
  obtain ⟨hset, hframe⟩ := hinv.setWordOf_spec hd ((pdx_lt_pdxUtop_iff _).mpr htemp) htrans w
  rw [htoff] at hset hframe
  refine ⟨_, hset, ?_⟩
  have hwr : Written M K st.kernel
      { st.kernel with pm := st.kernel.pm.write ⟨p, k⟩ w } p :=
    ⟨hi.base.setPm ⟨free, hframe.inv⟩, rfl, fun x => hframe.pte _ _ _, hframe.mem⟩
  have hkept : ∀ x, x ≠ (e, tempPage) → Kept st.kernel
      { st.kernel with pm := st.kernel.pm.write ⟨p, k⟩ w } x := fun x hx =>
    hwr.kept fun hq => hx (hp.alone x hq)
  have hown : ∀ va, pgnum va ≠ exstkPage → pgnum va ≠ tempPage → va ∉ (∅ : Set Word) →
      byteAt { st.kernel with pm := st.kernel.pm.write ⟨p, k⟩ w } e va = byteAt st.kernel e va :=
    fun va _ ht _ => (hkept _ fun heq => ht (congrArg Prod.snd heq)).byteAt_eq
  refine hi.put he (hi.written_stepOf he hwrites hp.frame hwr hown) _ hwr.base
    (user_same hi hwr.word)
    (hi.guard_same hwr.word (fun c n hb => betweenMaps_put.mpr hb) fun n hr => ?_)
    (fun envid pc wrote hact => ?_) fun h' rest' hf' => ?_
  · rw [remapping_iff_of_faults hf, hpc] at hr
    exact absurd hr.1 PgfaultPc.noConfusion
  · obtain ⟨hfork, hc⟩ := hi.envs_same hact
    exact ⟨hfork.frame' (.refl _) (.refl _) (fun n => hwr.word _) (fun _ ha => ha)
      fun va hex ht _ => ⟨(hkept _ fun heq => hfork.ne (congrArg Prod.fst heq)).byteAt_eq,
        hown va hex ht (Set.notMem_empty va)⟩, .inl hc⟩
  · obtain ⟨rfl, rfl⟩ := List.cons.inj hf'
    -- What has been read is from a page that is there.
    have hread : h.utfFaultVa < utop → ∃ q,
        entry (wordOn st.kernel (e, pgnum h.utfFaultVa)) = some q ∧ w = st.kernel.pm.mem q k := by
      intro hva
      have hsrc : rounddown h.utfFaultVa + BitVec.ofNat 32 (4 * k) < utop := by
        have hto := toNat_wordVa (rounddown_aligned h.utfFaultVa) hk
        have hround := toNat_rounddown_eq h.utfFaultVa
        rw [BitVec.lt_def, show utop.toNat = 4005560320 from rfl] at hva ⊢
        unfold nptentries at hk
        omega
      unfold wordOf at hw
      rw [hi.readable hd hsrc, hspage, hsoff] at hw
      obtain ⟨q, hq, rfl⟩ := Option.map_eq_some_iff.mp hw
      exact ⟨q, hq, rfl⟩
    refine ⟨fun _ => ⟨p, (hwr.word _).trans hp.word, by rw [hwr.word]; exact hp.frame,
      fun x hx => hp.alone x (by rwa [hwr.word] at hx)⟩, fun hva ht hex _ => ?_, ?_, fun hn => ?_⟩
    · obtain ⟨q, hq, rfl⟩ := hread hva
      refine ⟨q, by rw [hwr.word]; exact hq, fun r hr i hlt => ?_⟩
      rw [hwr.word] at hr
      obtain rfl : p = r := Option.some.inj (hp.frame.symm.trans hr)
      have hqp : q ≠ p := by
        rintro rfl
        exact ht (congrArg Prod.snd (hp.alone _ hq))
      rw [hframe.mem q hqp]
      rcases Nat.lt_succ_iff_lt_or_eq.mp (show i < k + 1 from hlt) with hlt | rfl
      · rw [mem_write_of_index_ne (Nat.ne_of_lt hlt)]
        have hcopied := hold.copied hva ht hex (by rw [hpc]; show 0 < k; omega)
        obtain ⟨q', hq', hcopy⟩ := hcopied
        obtain rfl : q = q' := Option.some.inj (hq.symm.trans hq')
        exact hcopy p hp.frame i (by rw [hpc]; exact hlt)
      · exact mem_write_self
    · exact hk
    · refine ⟨PgfaultPc.noConfusion, fun hva => ?_⟩
      obtain ⟨q, hq, -⟩ := hread hva
      obtain ⟨-, hz, -⟩ := (hold.stuck hn).2 hva
      rw [hz, entry_zero] at hq
      cases hq

/-! ## Turns of the handler -/

theorem checkCall_eq_some {α : Type} {call : Except Stop (Int × KState)} {panics goes : KState → α}
    {x : α} (hs : checkCall call panics goes = some x) :
    ∃ r s, call = .ok (r, s) ∧ x = if r < 0 then panics s else goes s := by
  cases call with
  | error => cases hs
  | ok y => exact ⟨y.1, y.2, rfl, (Option.some.inj hs).symm⟩

/-- What a turn of the handler comes to. -/
def PgfaultTurn.Keeps (M : Machine) (K : Nat → Prop) (st : ForkState) (e : Nat) (h : PgfaultRun)
    (rest : List PgfaultRun) : PgfaultTurn → Prop
  | .goes s pc =>
      ForkStep M K st e ∅ (st.put e s { st.threads e with faults := { h with pc := pc } :: rest })
  | .returns s => ForkStep M K st e ∅ (st.put e s { st.threads e with faults := rest })
  | .panics s => ForkStep M K st e ∅ (st.put e s { st.threads e with panicked := true })
  | .faults va => h.pc ≠ .pageUnmap ∧
      (va < utop → pgnum va ≠ tempPage ∧ wordOn st.kernel (e, pgnum va) = 0#32)

/-- A step of the handler that changes nothing but where it is. -/
theorem ForkInv.handlerMove (hi : ForkInv M K st) (he : Live st.kernel e)
    (hf : (st.threads e).faults = h :: rest) (hpc : h.pc ≠ .pageUnmap) {pc' : PgfaultPc}
    (hpc' : pc' ≠ .pageUnmap) (hcopy : pc'.Copying → h.pc.Copying) (hwords : pc'.words = h.pc.words) :
    ForkStep M K st e ∅
      (st.put e st.kernel { st.threads e with faults := { h with pc := pc' } :: rest }) := by
  have hold := hi.faults e h rest hf
  refine hi.move he _ (fun c n hb => betweenMaps_put.mpr hb) (fun n hr => ?_)
    (fun envid pc wrote hact => hi.envs_same hact) fun h' rest' hf' => ?_
  · exact absurd ((remapping_iff_of_faults hf).mp hr).1 hpc
  · obtain ⟨rfl, rfl⟩ := List.cons.inj hf'
    refine ⟨fun hc => hold.temp (hcopy hc), fun hlow ht hex hw => ?_, ?_, fun hn => ⟨hpc', fun hva => ?_⟩⟩
    · show ∃ q, _ ∧ ∀ p, _ → ∀ i, i < pc'.words → _
      rw [hwords]
      exact hold.copied hlow ht hex (hwords ▸ hw)
    · exact hwords ▸ hold.bound
    · show _ ∧ _ ∧ pc'.words = 0
      rw [hwords]
      exact (hold.stuck hn).2 hva

theorem utop_le_uvptVa (n : Nat) (hn : n < 2 ^ 20) : ¬ uvptVa n < utop := by
  have hva : (uvptVa n).toNat = 4013948928 + 4 * n := by
    simp only [uvptVa, BitVec.toNat_add, BitVec.toNat_ofNat]
    omega
  rw [BitVec.lt_def, hva, show utop.toNat = 4005560320 from rfl]
  omega

theorem ForkInv.panic_unchanged (hi : ForkInv M K st) (he : Live st.kernel e)
    (hs : Unchanged M K st.kernel s') :
    ForkStep M K st e ∅ (st.put e s' { st.threads e with panicked := true }) :=
  hi.panic he hs fun h rest hf => (hi.faults e h rest hf).kept (fun _ => hs.kept _)
    fun x _ _ hx => by rwa [(hs.kept x).1] at hx

theorem ForkInv.checkTurn (hi : ForkInv M K st) (he : Live st.kernel e)
    (hf : (st.threads e).faults = h :: rest) (hpc : h.pc = .check) {turn : PgfaultTurn}
    (hs : pgfaultTurn M st.kernel e d h = some turn) : turn.Keeps M K st e h rest := by
  unfold pgfaultTurn at hs
  rw [hpc] at hs
  dsimp only at hs
  cases hu : uvpt st.kernel.pm d (pgnum h.utfFaultVa) with
  | none =>
      rw [hu] at hs
      cases hs
      have hlt : pgnum h.utfFaultVa < 2 ^ 20 := by
        have := h.utfFaultVa.isLt
        rw [pgnum_eq]
        omega
      exact ⟨by rw [hpc]; exact PgfaultPc.noConfusion,
        fun hva => absurd hva (utop_le_uvptVa _ hlt)⟩
  | some pte =>
      rw [hu] at hs
      dsimp only at hs
      -- The guard of the handler never holds.
      rw [if_neg (not_not.mpr (guard_eq_zero h.utfErr (pte &&& pteCow)))] at hs
      cases hs
      exact hi.handlerMove he hf (by rw [hpc]; exact PgfaultPc.noConfusion) PgfaultPc.noConfusion
        (fun hc => absurd hc id) (by rw [hpc]; rfl)

theorem ForkInv.pageAllocTurn (hi : ForkInv M K st) (he : Live st.kernel e)
    (hd : st.kernel.dirs e = some d) (hf : (st.threads e).faults = h :: rest)
    (hpc : h.pc = .pageAlloc) {turn : PgfaultTurn}
    (hs : pgfaultTurn M st.kernel e d h = some turn) : turn.Keeps M K st e h rest := by
  unfold pgfaultTurn at hs
  rw [hpc] at hs
  obtain ⟨r, s₁, hcall, rfl⟩ := checkCall_eq_some hs
  rcases sysPageAlloc_places hi.base (envid2env_zero true) hd pftemp_ok hcall with
    ⟨hneg, hun⟩ | ⟨hpos, p, hfresh, hentry, hr⟩
  · rw [if_pos hneg]
    exact hi.panic_unchanged he hun
  · rw [if_neg (not_lt.mpr hpos)]
    exact hi.pageAlloc he hf hpc hfresh hentry hr

theorem ForkInv.copyTurn (hi : ForkInv M K st) (he : Live st.kernel e)
    (hd : st.kernel.dirs e = some d) (hf : (st.threads e).faults = h :: rest) {k : Nat}
    (hpc : h.pc = .copy k) {turn : PgfaultTurn}
    (hs : pgfaultTurn M st.kernel e d h = some turn) : turn.Keeps M K st e h rest := by
  have hold := hi.faults e h rest hf
  have hnext : h.pc ≠ .pageUnmap := by
    rw [hpc]
    exact PgfaultPc.noConfusion
  unfold pgfaultTurn at hs
  rw [hpc] at hs
  obtain rfl := Option.some.inj hs
  by_cases hk : k = nptentries
  · rw [if_pos hk]
    refine hi.handlerMove he hf hnext PgfaultPc.noConfusion (fun _ => ?_) ?_
    · rw [hpc]
      trivial
    · rw [hpc]
      exact hk.symm
  rw [if_neg hk]
  have hlt : k < nptentries := by
    have hb := hold.bound
    rw [hpc] at hb
    exact lt_of_le_of_ne hb hk
  obtain ⟨p, hp⟩ := hold.temp (by rw [hpc]; trivial)
  unfold Jos.copyTurn
  cases hw : wordOf st.kernel.pm d (rounddown h.utfFaultVa + BitVec.ofNat 32 (4 * k)) with
  | none =>
      refine ⟨hnext, fun hva => ?_⟩
      -- A page that is there can be read.
      unfold wordOf at hw
      rw [hi.readable hd hva] at hw
      have hz := entry_eq_none.mp (Option.map_eq_none_iff.mp hw)
      refine ⟨fun htemp => ?_, hz⟩
      rw [htemp] at hz
      exact (entry_eq_some.mp hp.frame).1 hz
  | some w =>
      obtain ⟨m, hset, hinv⟩ := hi.copyWord he hd hf hpc hlt hw hp
      dsimp only
      rw [hset]
      exact hinv

theorem ForkInv.pageMapTurn (hi : ForkInv M K st) (he : Live st.kernel e)
    (hd : st.kernel.dirs e = some d) (hf : (st.threads e).faults = h :: rest)
    (hpc : h.pc = .pageMap) {turn : PgfaultTurn}
    (hs : pgfaultTurn M st.kernel e d h = some turn) : turn.Keeps M K st e h rest := by
  obtain ⟨q, ht⟩ := (hi.faults e h rest hf).temp (by rw [hpc]; trivial)
  unfold pgfaultTurn at hs
  rw [hpc] at hs
  obtain ⟨r, s₁, hcall, rfl⟩ := checkCall_eq_some hs
  have hand : wordOn st.kernel (e, tempPage) &&& pgfaultPerm = pgfaultPerm := by
    rw [ht.word]
    exact or_and_self _ _
  rcases sysPageMap_places hi.base (envid2env_zero true) (envid2env_zero true) hd hd
    (fun _ _ => by
      show wordOn st.kernel (e, tempPage) &&& pteW ≠ 0#32
      rw [and_of_and hand (show pgfaultPerm &&& pteW = pteW by decide)]
      decide)
    (by decide) (fun p hp => hi.count hp) hcall with
    ⟨hneg, rfl, -⟩ | ⟨hpos, hbad, p, hp, hr⟩
  · rw [if_pos hneg]
    exact hi.panic_unchanged he (.refl hi.base)
  · rw [if_neg (not_lt.mpr hpos)]
    rw [rounddown_page] at hr
    have hva : h.utfFaultVa < utop := by
      by_contra hge
      exact hbad ((rounddown_badVa _).mpr (BitVec.not_lt.mp hge))
    exact hi.pageMap he hf hpc hva hp hr

theorem ForkInv.pageUnmapTurn (hi : ForkInv M K st) (he : Live st.kernel e)
    (hd : st.kernel.dirs e = some d) (hf : (st.threads e).faults = h :: rest)
    (hpc : h.pc = .pageUnmap) {turn : PgfaultTurn}
    (hs : pgfaultTurn M st.kernel e d h = some turn) : turn.Keeps M K st e h rest := by
  unfold pgfaultTurn at hs
  rw [hpc] at hs
  obtain ⟨r, s₁, hcall, rfl⟩ := checkCall_eq_some hs
  obtain ⟨hpos, hr⟩ := sysPageUnmap_places hi.base (envid2env_zero true) hd pftemp_ok hcall
  rw [if_neg (not_lt.mpr hpos)]
  exact hi.pageUnmap he hf hpc hr

/-- Every turn of the handler keeps the invariant, or faults where no page is. -/
theorem ForkInv.pgfaultTurn (hi : ForkInv M K st) (he : Live st.kernel e)
    (hd : st.kernel.dirs e = some d) (hf : (st.threads e).faults = h :: rest) {turn : PgfaultTurn}
    (hs : pgfaultTurn M st.kernel e d h = some turn) : turn.Keeps M K st e h rest := by
  cases hpc : h.pc with
  | check => exact hi.checkTurn he hf hpc hs
  | pageAlloc => exact hi.pageAllocTurn he hd hf hpc hs
  | copy k => exact hi.copyTurn he hd hf hpc hs
  | pageMap => exact hi.pageMapTurn he hd hf hpc hs
  | pageUnmap => exact hi.pageUnmapTurn he hd hf hpc hs

theorem ForkInv.handler (hi : ForkInv M K st) (he : Live st.kernel e)
    (hd : st.kernel.dirs e = some d) (hf : (st.threads e).faults = h :: rest) {upcall : Word}
    {tf : Trapframe} {st' : ForkState} (hs : go M upcall st e d c tf = some st') :
    ForkStep M K st e ∅ st' := by
  unfold go at hs
  dsimp only at hs
  rw [hf] at hs
  dsimp only at hs
  cases hturn : Jos.pgfaultTurn M st.kernel e d h with
  | none =>
      rw [hturn] at hs
      cases hs
  | some turn =>
      have hkeeps := hi.pgfaultTurn he hd hf hturn
      rw [hturn] at hs
      cases turn with
      | goes s pc | returns s =>
          cases hs
          exact hkeeps
      | panics s =>
          cases hs
          rw [← hf]
          exact hkeeps
      | faults va =>
          refine hi.raise he hd (fun h' rest' hf' => ?_) (fun _ => hkeeps.2) hs
          rw [hf] at hf'
          obtain ⟨rfl, rfl⟩ := List.cons.inj hf'
          exact hkeeps.1

end

end Jos
end Sisop

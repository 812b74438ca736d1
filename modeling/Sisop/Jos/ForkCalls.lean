import Sisop.Jos.ForkHandler

/-!
# `fork` under copy-on-write

Each step of `fork` keeps the invariant.  `duppage` gives the child a page of the parent
copy-on-write, and then the parent has it so as well; in between the page is one that the
guard excepts, and the parent may have stored to it.
-/

namespace Sisop
namespace Jos

open TransitionSystem CopyOnWrite RefCount

section

variable {M : Machine} {K : Nat → Prop} {st : ForkState} {s s' : KState} {e d c n p : Nat}
  {t : Thread} {act : Activity} {envid pte : Word} {pc pc' : ForkPc} {wrote : List Word}

/-! ## Steps of a thread without faults -/

/-- What a turn of `fork` comes to. -/
def ForkTurn.Keeps (M : Machine) (K : Nat → Prop) (st : ForkState) (e : Nat) : ForkTurn → Prop
  | .goes s act => ForkStep M K st e ∅ (st.put e s { st.threads e with act := act })
  | .panics s => ForkStep M K st e ∅ (st.put e s { st.threads e with panicked := true })
  | .faults _ => True

theorem not_remapping (hf : (st.threads e).faults = []) (n : Nat) : ¬ Remapping st e n := by
  rintro ⟨h, rest, hf', -⟩
  rw [hf] at hf'
  cases hf'

theorem not_betweenMaps (hact : ∀ envid n pte wrote, act ≠ .forking envid (.parentMap n pte) wrote)
    (ha : (st.threads e).act = act) (c n : Nat) : ¬ BetweenMaps st e c n := by
  rintro ⟨envid, pte, wrote, hact', -⟩
  exact hact envid n pte wrote (ha.symm.trans hact')

/-- The invariant after a step of a thread that is in no fault. -/
theorem ForkInv.putAct (hi : ForkInv M K st) (he : Live st.kernel e)
    (hf : (st.threads e).faults = []) (hstep : StepOf st.kernel s' e (ChildOf st e) ∅)
    (hbase : BaseInv M K s') (huser : ∀ x, wordOn s' x ≠ 0#32 → UserWord (wordOn s' x))
    (hguarded : Guarded (spaces s')
      (excepted (st.put e s' { st.threads e with act := act })))
    (hown : ∀ envid pc wrote, act = .forking envid pc wrote →
      Forking s' e envid pc wrote ∧ (ChildOf st e (envx envid) ∨ st.kernel.dirs (envx envid) = none)) :
    ForkStep M K st e ∅ (st.put e s' { st.threads e with act := act }) :=
  hi.put he hstep _ hbase huser hguarded hown fun h rest hf' => by
    rw [hf] at hf'
    cases hf'

/-- The pairs that are excepted, after a step of a thread that was between no calls. -/
theorem excepted_putAct {x y : Nat × Nat} (hx : excepted st x y)
    (hf : (st.threads e).faults = []) (hb : ∀ c n, ¬ BetweenMaps st e c n) :
    excepted (st.put e s' { st.threads e with act := act }) x y :=
  excepted_put hx (fun _ h => absurd h (hb _ _)) fun _ _ h => absurd h (not_remapping hf _)

/-- A step that leaves every place as it is, by a thread between no calls. -/
theorem ForkInv.sameAct (hi : ForkInv M K st) (he : Live st.kernel e)
    (hf : (st.threads e).faults = []) (hb : ∀ c n, ¬ BetweenMaps st e c n)
    (hstep : StepOf st.kernel s' e (ChildOf st e) ∅) (hbase : BaseInv M K s')
    (hword : ∀ x, wordOn s' x = wordOn st.kernel x)
    (hown : ∀ envid pc wrote, act = .forking envid pc wrote →
      Forking s' e envid pc wrote ∧ (ChildOf st e (envx envid) ∨ st.kernel.dirs (envx envid) = none)) :
    ForkStep M K st e ∅ (st.put e s' { st.threads e with act := act }) :=
  hi.putAct he hf hstep hbase (user_same hi hword)
    (hi.guard_same hword (fun _ _ h => absurd h (hb _ _)) fun _ h => absurd h (not_remapping hf _))
    hown

/-- The exception stack of `e` or of its child gets a frame that nobody has. -/
theorem ForkInv.freshAct (hi : ForkInv M K st) (he : Live st.kernel e)
    (hf : (st.threads e).faults = []) (hb : ∀ c n, ¬ BetweenMaps st e c n) {x₀ : Nat × Nat}
    (hx₀ : x₀.1 = e ∨ ChildOf st e x₀.1) (hstk : x₀.2 = exstkPage)
    (hfresh : ∀ x, entry (wordOn st.kernel x) ≠ some p)
    (hentry : entry (page2pa p ||| pgfaultPerm) = some p)
    (hr : Replaced M K st.kernel s' x₀ (page2pa p ||| pgfaultPerm))
    (hown : ∀ envid pc wrote, act = .forking envid pc wrote →
      Forking s' e envid pc wrote ∧ (ChildOf st e (envx envid) ∨ st.kernel.dirs (envx envid) = none)) :
    ForkStep M K st e ∅ (st.put e s' { st.threads e with act := act }) := by
  refine hi.putAct he hf (hr.stepOf hx₀ (fun q hq => .inl ?_) fun _ hex => absurd hstk hex) hr.base
    (hr.user_words hi fun _ => userWord_pgfault p)
    (hr.guard hi (fun x y _ _ hex => excepted_putAct hex hf hb) fun y q _ hq hyq => ?_) hown
  · rw [hentry] at hq
    exact (Option.some.inj hq) ▸ hfresh
  · rw [hentry] at hq
    exact absurd hyq ((Option.some.inj hq) ▸ hfresh y)

/-! ## Before the child is there -/

theorem exstkPerm : pteU ||| pteP ||| pteW = pgfaultPerm := by decide

theorem exstk_ok : ¬ badVa exstk := by decide

theorem ForkInv.allocExstk (hi : ForkInv M K st) (he : Live st.kernel e)
    (hd : st.kernel.dirs e = some d) (hf : (st.threads e).faults = [])
    (hact : (st.threads e).act = .allocExstk) {upcall : Word} {turn : ForkTurn}
    (hs : forkTurn M upcall c st.kernel e d .allocExstk = some turn) : turn.Keeps M K st e := by
  have hb := not_betweenMaps (fun _ _ _ _ => Activity.noConfusion) hact
  obtain ⟨r, s₁, hcall, rfl⟩ := checkCall_eq_some hs
  rw [exstkPerm] at hcall
  rcases sysPageAlloc_places hi.base (envid2env_zero true) hd exstk_ok hcall with
    ⟨hneg, hun⟩ | ⟨hpos, p, hfresh, hentry, hr⟩
  · rw [if_pos hneg]
    exact hi.sameAct he hf hb (hun.stepOf e _) hun.base (fun x => (hun.kept x).1)
      fun _ _ _ h => Activity.noConfusion h
  · rw [if_neg (not_lt.mpr hpos)]
    exact hi.freshAct he hf hb (.inl rfl) rfl hfresh hentry hr fun _ _ _ h => Activity.noConfusion h

/-- Only a field of one slot differs, that no other environment looks at. -/
theorem setUpcall_stepOf (h : BaseInv M K s) (y : Nat) (func : Word) (e : Nat) (child : Nat → Prop) :
    let s' := s.setEnv y fun x => { x with envPgfaultUpcall := func }
    BaseInv M K s' ∧ (∀ x, wordOn s' x = wordOn s x) ∧ StepOf s s' e child ∅ ∧
      ∀ y', SameEnv (s.envs y') (s'.envs y') := by
  intro s'
  have hdirs : s'.dirs = s.dirs := KState.dirs_setEnv (h := rfl)
  have hword : ∀ x, wordOn s' x = wordOn s x := fun x => by
    unfold wordOn
    rw [hdirs]
    rfl
  have hsame : ∀ y', SameEnv (s.envs y') (s'.envs y') := fun y' => by
    rw [KState.envs_setEnv]
    split
    · rename_i heq
      rw [heq]
      exact ⟨rfl, rfl, rfl, rfl⟩
    · exact .refl _
  have hkept : ∀ x, Kept s s' x := fun x => ⟨hword x, fun _ _ => rfl⟩
  exact ⟨h.setEnv ⟨rfl, rfl, rfl, Iff.rfl, id⟩, hword, ⟨fun y n _ _ => hkept _,
    fun y' _ _ => hsame y', fun x p hx => .inl (by rwa [hword] at hx),
    fun _ _ _ _ => (hkept _).byteAt_eq⟩, hsame⟩

theorem ForkInv.setUpcall (hi : ForkInv M K st) (he : Live st.kernel e)
    (hd : st.kernel.dirs e = some d) (hf : (st.threads e).faults = [])
    (hact : (st.threads e).act = .setUpcall) {upcall : Word} {turn : ForkTurn}
    (hs : forkTurn M upcall c st.kernel e d .setUpcall = some turn) : turn.Keeps M K st e := by
  have hdir : (st.kernel.envs e).envPgdir ≠ none := by
    rw [show (st.kernel.envs e).envPgdir = some d from hd]
    exact Option.some_ne_none d
  unfold forkTurn at hs
  dsimp only at hs
  split at hs
  · cases hs
  rename_i hnot
  obtain ⟨r, s₁, hcall, rfl⟩ := checkCall_eq_some hs
  unfold upcallDestroys at hnot
  rw [envid2env_zero] at hnot
  rw [sysEnvSetPgfaultUpcall_passes hi.base hdir (envid2env_zero true)
    (Bool.eq_false_iff.mpr hnot)] at hcall
  cases hcall
  obtain ⟨hbase, hword, hstep, -⟩ := setUpcall_stepOf hi.base e upcall e (ChildOf st e)
  exact hi.sameAct he hf (not_betweenMaps (fun _ _ _ _ => Activity.noConfusion) hact) hstep hbase
    hword fun _ _ _ h => Activity.noConfusion h

/-- `sys_exofork`: the child has no page. -/
theorem ForkInv.exofork (hi : ForkInv M K st) (he : Live st.kernel e)
    (hd : st.kernel.dirs e = some d) (hf : (st.threads e).faults = [])
    (hact : (st.threads e).act = .exofork) {upcall : Word} {turn : ForkTurn}
    (hs : forkTurn M upcall c st.kernel e d .exofork = some turn) : turn.Keeps M K st e := by
  unfold forkTurn at hs
  dsimp only at hs
  have hdir : st.kernel.dirs e ≠ none := by
    rw [hd]
    exact Option.some_ne_none d
  rcases hi.base.sysExofork_cases hdir with ⟨r, hcall, hr⟩ | ⟨y, s₁, hcall, hx⟩
  · have hneg : r < 0 := by
      rcases hr with ⟨rfl, -⟩ | ⟨rfl, -⟩ <;> decide
    rw [hcall] at hs
    dsimp only at hs
    rw [if_pos hneg] at hs
    cases hs
    exact hi.panic_unchanged he (.refl hi.base)
  rw [hcall] at hs
  dsimp only at hs
  rw [if_neg (not_lt.mpr (le_of_lt hx.pos)), BitVec.ofInt_toInt] at hs
  cases hs
  have hid : envx (s₁.envs y).envId = y := hx.base.ids y hx.dir
  have hword : ∀ x, wordOn s₁ x = wordOn st.kernel x := fun x => (hx.kept hi.base x).1
  have hempty : ∀ n, wordOn s₁ (y, n) = 0#32 := fun n =>
    (hword _).trans (wordOn_of_no_dir hx.fresh n)
  have hstep : StepOf st.kernel s₁ e (ChildOf st e) ∅ := by
    refine ⟨fun z n _ _ => hx.kept hi.base _, fun z _ hz => ?_, fun x p hxp => .inl ?_,
      fun va _ _ _ => (hx.kept hi.base _).byteAt_eq⟩
    · rw [hx.others z]
      · exact .refl _
      · rintro rfl
        exact hz ((hi.base.status_iff z (hx.base.lt hx.dir)).mpr hx.fresh)
    · rwa [hword] at hxp
  refine hi.sameAct he hf (not_betweenMaps (fun _ _ _ _ => Activity.noConfusion) hact) hstep hx.base
    hword fun envid pc wrote hact' => ?_
  cases hact'
  refine ⟨⟨hid.symm ▸ hx.child, hid.symm ▸ hx.ne, hid.symm ▸ hx.dir, hid.symm ▸ hx.held hi.base hcall,
    fun va hlt => absurd hlt (Nat.not_lt_zero _), fun n _ => ?_, fun n _ _ => ?_, Nat.zero_le _⟩,
    .inr (hid.symm ▸ hx.fresh)⟩
  · show ¬ wordOn s₁ (envx _, n) &&& pteW ≠ 0#32
    rw [hid, hempty, BitVec.zero_and]
    exact fun h => h rfl
  · rw [hid]
    exact hempty n

/-! ## The pages -/

/-- The fork of `e` has got from `pc` to `pc'`, and nothing else has changed. -/
theorem Forking.goes (h : Forking s e envid pc wrote)
    (hsame : ∀ va, pgnum va < pc'.done → ¬ pgnum va < pc.done → pgnum va ≠ exstkPage →
      byteAt s (envx envid) va = byteAt s e va) (hdone : pc.done ≤ pc'.done) (hsound : pc'.Sound) :
    Forking s e envid pc' wrote where
  lookup := h.lookup
  ne := h.ne
  dir := h.dir
  held := h.held
  same := fun va hlt hex ht hw => by
    by_cases hlt' : pgnum va < pc.done
    · exact h.same va hlt' hex ht hw
    · exact hsame va hlt hlt' hex
  readOnly := h.readOnly
  pending := fun n hle hn => h.pending n (hdone.trans hle) hn
  sound := hsound

/-- A page that the parent does not have is done. -/
theorem Forking.skip (h : Forking s e envid (.pages n) wrote) (hn : n < pnumEnd)
    (hz : n ≠ exstkPage → wordOn s (e, n) = 0#32) :
    Forking s e envid (.pages (n + 1)) wrote := by
  refine h.goes (fun va hlt hge hex => ?_) (Nat.le_succ n) hn
  have hva : pgnum va = n := Nat.le_antisymm (Nat.le_of_lt_succ hlt) (Nat.not_lt.mp hge)
  rw [hva] at hex
  unfold byteAt
  rw [hva, hz hex, h.pending n (le_refl n) hex]

/-- Every page is done. -/
theorem Forking.last (h : Forking s e envid pc wrote) (hpc : pc.done = pnumEnd)
    (hpc' : pc'.done = pnumEnd) (hs : pc'.Sound) : Forking s e envid pc' wrote :=
  h.goes (fun _ hlt hge => absurd (hpc'.symm ▸ hlt) (hpc ▸ hge)) (le_of_eq (hpc.trans hpc'.symm)) hs

/-- The page tables tell `fork` which pages its environment has. -/
theorem ForkInv.notUsers (hi : ForkInv M K st) (hd : st.kernel.dirs e = some d) (hn : n < pnumEnd) :
    (NotUsers (uvpd st.kernel.pm d (n / 1024)) → wordOn st.kernel (e, n) = 0#32) ∧
      ∀ pte, uvpt st.kernel.pm d n = some pte → pte = wordOn st.kernel (e, n) ∧
        (NotUsers pte ↔ wordOn st.kernel (e, n) = 0#32) := by
  obtain ⟨free, hp⟩ := hi.base.pages
  obtain ⟨hword, hperm, htest⟩ := uvpd_test hp hd hn
  refine ⟨fun hnot => pteWord_of_no_pde (hword.trans (htest.mp hnot)), fun pte hpte => ?_⟩
  have hne : uvpd st.kernel.pm d (n / 1024) ≠ 0#32 := by
    intro hz
    unfold uvpt at hpte
    rw [hz, if_neg (by decide)] at hpte
    cases hpte
  rw [uvpt_eq hp hd hn hne] at hpte
  obtain rfl := Option.some.inj hpte
  refine ⟨rfl, fun hnot => ?_, fun hz => .inl ?_⟩
  · by_contra hz
    have hload := (hi.user (e, n) hz).1
    rcases hnot with h0 | h0
    · exact absurd ((and_of_and hload (show userLoad &&& pteP = pteP by decide)).symm.trans h0)
        (by decide)
    · exact absurd ((and_of_and hload (show userLoad &&& pteU = pteU by decide)).symm.trans h0)
        (by decide)
  · show wordOn st.kernel (e, n) &&& pteP = 0#32
    rw [hz]
    exact BitVec.zero_and

/-- A step of `fork` that only finds out where to go. -/
theorem ForkInv.forkMove (hi : ForkInv M K st) (he : Live st.kernel e)
    (hf : (st.threads e).faults = []) (hact : (st.threads e).act = .forking envid pc wrote)
    (hpc : ∀ n pte, pc ≠ .parentMap n pte) (hgo : Forking st.kernel e envid pc' wrote) :
    ForkStep M K st e ∅
      (st.put e st.kernel { st.threads e with act := .forking envid pc' wrote }) := by
  refine hi.sameAct he hf (not_betweenMaps (fun x n pte w heq => ?_) hact)
    ((Unchanged.refl hi.base).stepOf e _) hi.base (fun _ => rfl) fun x p w heq => ?_
  · exact hpc n pte (Activity.forking.inj heq).2.1
  · cases heq
    exact ⟨hgo, .inl ⟨envid, pc, wrote, hact, rfl⟩⟩

theorem ForkInv.pages (hi : ForkInv M K st) (he : Live st.kernel e)
    (hd : st.kernel.dirs e = some d) (hf : (st.threads e).faults = [])
    (hact : (st.threads e).act = .forking envid (.pages n) wrote) {turn : ForkTurn}
    (hs : forkingTurn M c st.kernel e d envid (.pages n) wrote = some turn) :
    turn.Keeps M K st e := by
  have hfork := hi.forking e envid _ wrote hact
  have hgo : ∀ {pc'}, Forking st.kernel e envid pc' wrote →
      ForkStep M K st e ∅ (st.put e st.kernel { st.threads e with act := .forking envid pc' wrote }) :=
    fun hg => hi.forkMove he hf hact (fun _ _ => ForkPc.noConfusion) hg
  unfold forkingTurn at hs
  dsimp only at hs
  cases hturn : pagesTurn st.kernel d n with
  | none =>
      rw [hturn] at hs
      cases hs
      trivial
  | some pc' =>
      rw [hturn] at hs
      cases hs
      refine hgo ?_
      unfold pagesTurn at hturn
      by_cases hend : n = pnumEnd
      · rw [if_pos hend] at hturn
        cases hturn
        exact hfork.last hend rfl trivial
      have hn : n < pnumEnd := lt_of_le_of_ne hfork.sound hend
      obtain ⟨hpd, hpt⟩ := hi.notUsers hd hn
      rw [if_neg hend] at hturn
      by_cases hex : n = exstkPage
      · rw [if_pos hex] at hturn
        cases hturn
        exact hfork.skip hn fun hne => absurd hex hne
      rw [if_neg hex] at hturn
      by_cases hnot : NotUsers (uvpd st.kernel.pm d (n / 1024))
      · rw [if_pos hnot] at hturn
        cases hturn
        exact hfork.skip hn fun _ => hpd hnot
      rw [if_neg hnot] at hturn
      obtain ⟨pte, hpte, rfl⟩ := Option.map_eq_some_iff.mp hturn
      split
      · rename_i hnot'
        exact hfork.skip hn fun _ => ((hpt pte hpte).2).mp hnot'
      · exact hfork.goes (fun _ hlt hge => absurd hlt hge) (le_refl n) ⟨hn, hex⟩

/-- `duppage` up to its first call. -/
theorem ForkInv.duppage (hi : ForkInv M K st) (he : Live st.kernel e)
    (hd : st.kernel.dirs e = some d) (hf : (st.threads e).faults = [])
    (hact : (st.threads e).act = .forking envid (.duppage n) wrote) {turn : ForkTurn}
    (hs : forkingTurn M c st.kernel e d envid (.duppage n) wrote = some turn) :
    turn.Keeps M K st e := by
  have hfork := hi.forking e envid _ wrote hact
  obtain ⟨hn, hex⟩ := hfork.sound
  unfold forkingTurn at hs
  dsimp only at hs
  cases hpte : uvpt st.kernel.pm d n with
  | none =>
      rw [hpte] at hs
      cases hs
      trivial
  | some pte =>
      rw [hpte] at hs
      cases hs
      obtain ⟨rfl, hnot⟩ := (hi.notUsers hd hn).2 pte hpte
      split
      · exact hi.panic_unchanged he (.refl hi.base)
      · rename_i hp
        refine hi.forkMove he hf hact (fun _ _ => ForkPc.noConfusion) ?_
        exact hfork.goes (fun _ hlt hge => absurd hlt hge) (le_refl n)
          ⟨hn, hex, (hi.user _ fun hz => hp (hnot.mpr hz)).2⟩

/-! ## `duppage` -/

/-- Places that have the frame of page `n` of `e`, which is in no fault, are that page of
others and not to be written, or excepted. -/
theorem ForkInv.places (hi : ForkInv M K st) (he : Live st.kernel e)
    (hf : (st.threads e).faults = []) (hp : entry (wordOn st.kernel (e, n)) = some p)
    {y : Nat × Nat} (hy : y ≠ (e, n)) (hyp : entry (wordOn st.kernel y) = some p) :
    (spaces st.kernel).Shares (e, n) y ∨ BetweenMaps st e y.1 n ∧ y.2 = n := by
  rcases hi.guarded (e, n) y p hy.symm hp hyp with
    hs | (hb | ⟨hr, -⟩) | (⟨⟨x, pte, w, hact, hc⟩, -⟩ | ⟨hr, heq, -⟩)
  · exact .inl hs
  · exact .inr hb
  · exact absurd hr (not_remapping hf _)
  · exact absurd he (hi.not_live ⟨x, _, w, hact, hc⟩)
  · rw [← heq] at hr
    exact absurd hr (not_remapping hf _)

/-- The first `sys_page_map` of `duppage`: the child has the page too, and reads what the
parent does. -/
theorem ForkInv.childMap (hi : ForkInv M K st) (he : Live st.kernel e)
    (hf : (st.threads e).faults = [])
    (hact : (st.threads e).act = .forking envid (.childMap n pte) wrote) (hlt : p < 2 ^ 20)
    (hp : entry (wordOn st.kernel (e, n)) = some p)
    (hr : Replaced M K st.kernel s' (envx envid, n) (mappedWord p (duppagePerm pte ||| pteCow))) :
    ForkStep M K st e ∅
      (st.put e s' { st.threads e with act := .forking envid (.parentMap n pte) wrote }) := by
  have hfork := hi.forking e envid _ wrote hact
  have hchild : ChildOf st e (envx envid) := ⟨envid, _, wrote, hact, rfl⟩
  have hb : ∀ c m, ¬ BetweenMaps st e c m :=
    not_betweenMaps (fun _ _ _ _ heq => ForkPc.noConfusion (Activity.forking.inj heq).2.1) hact
  obtain ⟨hentry, huser, hro⟩ := duppage_word pte hlt
  have hwrites : ¬ (spaces s').writes (envx envid, n) := by
    show ¬ wordOn s' (envx envid, n) &&& pteW ≠ 0#32
    rw [hr.word_self, hro]
    exact fun h => h rfl
  have hkept : ∀ x, x ≠ (envx envid, n) → ((spaces s').writes x ↔ (spaces st.kernel).writes x) := by
    intro x hx
    show wordOn s' x &&& pteW ≠ 0#32 ↔ _
    rw [(hr.kept hx).1]
    exact Iff.rfl
  have hself : ∀ m, (e, m) ≠ (envx envid, n) := fun m heq => hfork.ne (congrArg Prod.fst heq).symm
  refine hi.putAct he hf (hr.stepOf (.inr hchild) (fun q hq => .inr ⟨n, ?_⟩) fun heq =>
      absurd heq hfork.ne) hr.base
    (hr.user_words hi fun _ => huser)
    (hr.guard hi (fun x y _ _ hex => excepted_putAct hex hf hb) fun y q hy hq hyq => ?_)
    fun x pc w heq => ?_
  · rw [hentry] at hq
    exact Option.some.inj hq ▸ hp
  · rw [hentry] at hq
    obtain rfl := Option.some.inj hq
    by_cases hyn : y = (e, n)
    · -- The page of the parent, until it is copy-on-write as well.
      subst hyn
      exact .inr (.inr (.inl ⟨betweenMaps_put.mpr ⟨envid, pte, wrote, rfl, rfl⟩, rfl⟩))
    · rcases hi.places he hf hp hyn hyq with ⟨hne, hpage, -, hyw⟩ | ⟨hm, -⟩
      · refine .inl ⟨fun heq => hy (Prod.ext heq.symm hpage.symm), hpage, hwrites, fun hw => ?_⟩
        exact hyw ((hkept y hy).mp hw)
      · exact absurd hm (hb _ _)
  · cases heq
    refine ⟨⟨(envid2env_congr (sameEnv_of_envs hr.envs _) (sameEnv_of_envs hr.envs _) true).trans
      hfork.lookup, hfork.ne, ?_, ?_, fun va hva hex ht hw => ?_, fun m hm => ?_, fun m hm hex => ?_,
      hfork.sound⟩, .inl hchild⟩
    · rw [KState.dirs, hr.envs]
      exact hfork.dir
    · rw [hr.envs]
      exact hfork.held
    · have hown := (hr.kept (hself (pgnum va))).byteAt_eq
      rcases Nat.lt_succ_iff_lt_or_eq.mp (show pgnum va < n + 1 from hva) with hva | hva
      · rw [hown, (hr.kept fun heq => Nat.ne_of_lt hva (congrArg Prod.snd heq)).byteAt_eq]
        exact hfork.same va hva hex ht hw
      · rw [hown]
        unfold byteAt
        rw [hva, hr.word_self, hentry, hp, Option.map_some, Option.map_some, PMap.byte, PMap.byte,
          hr.mem _ p hp]
    · by_cases hmn : m = n
      · exact hmn ▸ hwrites
      · rw [hkept _ fun heq => hmn (congrArg Prod.snd heq)]
        exact hfork.readOnly m hm
    · have hle : n + 1 ≤ m := hm
      rw [(hr.kept fun heq => absurd (congrArg Prod.snd heq) (by omega)).1]
      exact hfork.pending m (Nat.le_of_succ_le hle) hex

/-- The second one: now the parent may not write the page either. -/
theorem ForkInv.parentMap (hi : ForkInv M K st) (he : Live st.kernel e)
    (hf : (st.threads e).faults = [])
    (hact : (st.threads e).act = .forking envid (.parentMap n pte) wrote) (hlt : p < 2 ^ 20)
    (hp : entry (wordOn st.kernel (e, n)) = some p)
    (hr : Replaced M K st.kernel s' (e, n) (mappedWord p (duppagePerm pte ||| pteCow))) :
    ForkStep M K st e ∅
      (st.put e s' { st.threads e with act := .forking envid (.pages (n + 1)) wrote }) := by
  have hfork := hi.forking e envid _ wrote hact
  have hchild : ChildOf st e (envx envid) := ⟨envid, _, wrote, hact, rfl⟩
  obtain ⟨hentry, huser, hro⟩ := duppage_word pte hlt
  have hwrites : ¬ (spaces s').writes (e, n) := by
    show ¬ wordOn s' (e, n) &&& pteW ≠ 0#32
    rw [hr.word_self, hro]
    exact fun h => h rfl
  have hkept : ∀ x, x ≠ (e, n) → (spaces s').writes x → (spaces st.kernel).writes x := by
    intro x hx hw
    show wordOn st.kernel x &&& pteW ≠ 0#32
    rw [← (hr.kept hx).1]
    exact hw
  have hbetween : ∀ {c m}, BetweenMaps st e c m → c = envx envid ∧ m = n := by
    rintro c m ⟨x, pte', w, hact', rfl⟩
    rw [hact] at hact'
    obtain ⟨rfl, hpc, -⟩ := Activity.forking.inj hact'
    exact ⟨rfl, (ForkPc.parentMap.inj hpc).1.symm⟩
  have hsame : n ≠ exstkPage → n ≠ tempPage → ∀ va, pgnum va = n →
      byteAt s' e va = byteAt st.kernel e va := by
    intro _ _ va hva
    unfold byteAt
    rw [hva, hr.word_self, hentry, hp, Option.map_some, Option.map_some, PMap.byte, PMap.byte,
      hr.mem _ p hp]
  refine hi.putAct he hf (hr.stepOf (.inl rfl) (fun q hq => .inr ⟨n, ?_⟩) fun _ => hsame) hr.base
    (hr.user_words hi fun _ => huser) (hr.guard hi (fun x y hx hy hex => ?_) fun y q hy hq hyq => ?_)
    fun x pc w heq => ?_
  · rw [hentry] at hq
    exact Option.some.inj hq ▸ hp
  · exact excepted_put hex (fun hxe hm => absurd (Prod.ext hxe (hbetween hm).2) hx)
      fun _ _ hrem => absurd hrem (not_remapping hf _)
  · rw [hentry] at hq
    obtain rfl := Option.some.inj hq
    rcases hi.places he hf hp hy hyq with ⟨hne, hpage, -, hyw⟩ | ⟨hm, hpage⟩
    · exact .inl ⟨hne, hpage, hwrites, fun hw => hyw (hkept y hy hw)⟩
    · -- The page of the child has been copy-on-write since the first call.
      have hyc : y = (envx envid, n) := Prod.ext (hbetween hm).1 hpage
      subst hyc
      exact .inl ⟨hfork.ne.symm, rfl, hwrites, fun hw => hfork.readOnly n hfork.sound.2.1 (hkept _ hy hw)⟩
  · cases heq
    exact ⟨(hfork.replaced hr hsame).goes (fun _ hlt' hge => absurd hlt' hge) (le_refl (n + 1))
      hfork.sound.1, .inl hchild⟩

theorem frame_lt (h : BaseInv M K s) {x : Nat × Nat} (hp : entry (wordOn s x) = some p) :
    p < 2 ^ 20 := by
  obtain ⟨free, hinv⟩ := h.pages
  exact (frame_data hinv hp).2.1.lt

theorem pnumAddr_page (hn : n < pnumEnd) : pgnum (pnumAddr n) = n := by
  rw [pgnum_eq, toNat_pnumAddr hn]
  omega

theorem ForkInv.childMapTurn (hi : ForkInv M K st) (he : Live st.kernel e)
    (hd : st.kernel.dirs e = some d) (hf : (st.threads e).faults = [])
    (hact : (st.threads e).act = .forking envid (.childMap n pte) wrote) {turn : ForkTurn}
    (hs : forkingTurn M c st.kernel e d envid (.childMap n pte) wrote = some turn) :
    turn.Keeps M K st e := by
  have hfork := hi.forking e envid _ wrote hact
  obtain ⟨hn, -, hcow⟩ := hfork.sound
  obtain ⟨dd, hdd⟩ := Option.ne_none_iff_exists'.mp hfork.dir
  obtain ⟨hlow, hro, -⟩ := duppagePerm_spec pte
  unfold forkingTurn at hs
  dsimp only at hs
  rw [if_pos hcow] at hs
  obtain ⟨r, s₁, hcall, rfl⟩ := checkCall_eq_some hs
  rcases sysPageMap_places hi.base (envid2env_zero true) hfork.lookup hd hdd
    (fun hw => absurd hro hw) hlow (fun p hp => hi.count hp) hcall with
    ⟨hneg, rfl, -⟩ | ⟨hpos, -, p, hp, hr⟩
  · rw [if_pos hneg]
    exact hi.panic_unchanged he (.refl hi.base)
  · rw [if_neg (not_lt.mpr hpos)]
    rw [pnumAddr_page hn] at hp hr
    exact hi.childMap he hf hact (frame_lt hi.base hp) hp hr

theorem ForkInv.parentMapTurn (hi : ForkInv M K st) (he : Live st.kernel e)
    (hd : st.kernel.dirs e = some d) (hf : (st.threads e).faults = [])
    (hact : (st.threads e).act = .forking envid (.parentMap n pte) wrote) {turn : ForkTurn}
    (hs : forkingTurn M c st.kernel e d envid (.parentMap n pte) wrote = some turn) :
    turn.Keeps M K st e := by
  obtain ⟨hn, -⟩ := (hi.forking e envid _ wrote hact).sound
  obtain ⟨hlow, hro, -⟩ := duppagePerm_spec pte
  obtain ⟨r, s₁, hcall, rfl⟩ := checkCall_eq_some hs
  rcases sysPageMap_places hi.base (envid2env_zero true) (envid2env_zero true) hd hd
    (fun hw => absurd hro hw) hlow (fun p hp => hi.count hp) hcall with
    ⟨hneg, rfl, -⟩ | ⟨hpos, -, p, hp, hr⟩
  · rw [if_pos hneg]
    exact hi.panic_unchanged he (.refl hi.base)
  · rw [if_neg (not_lt.mpr hpos)]
    rw [pnumAddr_page hn] at hp hr
    exact hi.parentMap he hf hact (frame_lt hi.base hp) hp hr

/-! ## The end of `fork` -/

/-- The child gets an exception stack of its own. -/
theorem ForkInv.exstkTurn (hi : ForkInv M K st) (he : Live st.kernel e)
    (hf : (st.threads e).faults = [])
    (hact : (st.threads e).act = .forking envid .exstk wrote) {turn : ForkTurn}
    (hs : forkingTurn M c st.kernel e d envid .exstk wrote = some turn) : turn.Keeps M K st e := by
  have hfork := hi.forking e envid _ wrote hact
  have hchild : ChildOf st e (envx envid) := ⟨envid, _, wrote, hact, rfl⟩
  obtain ⟨dd, hdd⟩ := Option.ne_none_iff_exists'.mp hfork.dir
  obtain ⟨r, s₁, hcall, rfl⟩ := checkCall_eq_some hs
  rw [exstkPerm] at hcall
  rcases sysPageAlloc_places hi.base hfork.lookup hdd exstk_ok hcall with
    ⟨hneg, hun⟩ | ⟨hpos, p, hfresh, hentry, hr⟩
  · rw [if_pos hneg]
    exact hi.panic_unchanged he hun
  rw [if_neg (not_lt.mpr hpos)]
  refine hi.freshAct he hf (not_betweenMaps (fun _ _ _ _ heq =>
    ForkPc.noConfusion (Activity.forking.inj heq).2.1) hact) (.inr hchild) rfl hfresh hentry hr
    fun x pc w heq => ?_
  cases heq
  have hother : ∀ m, m ≠ exstkPage → Kept st.kernel s₁ (envx envid, m) := fun m hm =>
    hr.kept fun heq => hm (congrArg Prod.snd heq)
  have hself : ∀ m, Kept st.kernel s₁ (e, m) := fun m =>
    hr.kept fun heq => hfork.ne (congrArg Prod.fst heq).symm
  refine ⟨⟨(envid2env_congr (sameEnv_of_envs hr.envs _) (sameEnv_of_envs hr.envs _) true).trans
    hfork.lookup, hfork.ne, ?_, ?_, fun va hva hex ht hw => ?_, fun m hm => ?_, fun m hle hm => ?_,
    trivial⟩, .inl hchild⟩
  · rw [KState.dirs, hr.envs]
    exact hfork.dir
  · rw [hr.envs]
    exact hfork.held
  · rw [(hself _).byteAt_eq, (hother _ hex).byteAt_eq]
    exact hfork.same va hva hex ht hw
  · show ¬ wordOn s₁ (envx envid, m) &&& pteW ≠ 0#32
    rw [(hother m hm).1]
    exact hfork.readOnly m hm
  · rw [(hother m hm).1]
    exact hfork.pending m hle hm

theorem ForkInv.upcallTurn (hi : ForkInv M K st) (he : Live st.kernel e)
    (hf : (st.threads e).faults = [])
    (hact : (st.threads e).act = .forking envid .upcall wrote) {turn : ForkTurn}
    (hs : forkingTurn M c st.kernel e d envid .upcall wrote = some turn) : turn.Keeps M K st e := by
  have hfork := hi.forking e envid _ wrote hact
  have hchild : ChildOf st e (envx envid) := ⟨envid, _, wrote, hact, rfl⟩
  unfold forkingTurn at hs
  dsimp only at hs
  split at hs
  · cases hs
  rename_i hnot
  obtain ⟨r, s₁, hcall, rfl⟩ := checkCall_eq_some hs
  unfold upcallDestroys at hnot
  rw [hfork.lookup] at hnot
  rw [sysEnvSetPgfaultUpcall_passes hi.base hfork.dir hfork.lookup
    (Bool.eq_false_iff.mpr hnot)] at hcall
  cases hcall
  obtain ⟨hbase, hword, hstep, hsame⟩ := setUpcall_stepOf hi.base (envx envid)
    (st.kernel.envs e).envPgfaultUpcall e (ChildOf st e)
  refine hi.sameAct he hf (not_betweenMaps (fun _ _ _ _ heq =>
    ForkPc.noConfusion (Activity.forking.inj heq).2.1) hact) hstep hbase hword fun x pc w heq => ?_
  cases heq
  have hlast : Forking st.kernel e envid .status wrote := hfork.last rfl rfl trivial
  exact ⟨hlast.frame (hsame _) (hsame _) (fun _ => ⟨hword _, fun _ _ => rfl⟩)
    fun _ => ⟨hword _, fun _ _ => rfl⟩, .inl hchild⟩

/-- `sys_env_set_status`: from now on the child runs. -/
theorem ForkInv.statusTurn (hi : ForkInv M K st) (he : Live st.kernel e)
    (hf : (st.threads e).faults = [])
    (hact : (st.threads e).act = .forking envid .status wrote) {turn : ForkTurn}
    (hs : forkingTurn M c st.kernel e d envid .status wrote = some turn) : turn.Keeps M K st e := by
  have hfork := hi.forking e envid _ wrote hact
  have hchild : ChildOf st e (envx envid) := ⟨envid, _, wrote, hact, rfl⟩
  have hcall : sysEnvSetStatus st.kernel e envid 2#32 =
      (0, st.kernel.setStatus (envx envid) .runnable) := by
    unfold sysEnvSetStatus
    rw [hfork.lookup]
    rfl
  unfold forkingTurn at hs
  dsimp only at hs
  rw [hcall] at hs
  cases hs
  have hdirs : (st.kernel.setStatus (envx envid) .runnable).dirs = st.kernel.dirs :=
    KState.dirs_setEnv (h := rfl)
  have hword : ∀ x, wordOn (st.kernel.setStatus (envx envid) .runnable) x = wordOn st.kernel x := by
    intro x
    unfold wordOn
    rw [hdirs]
    rfl
  have hkept : ∀ x, Kept st.kernel (st.kernel.setStatus (envx envid) .runnable) x := fun x =>
    ⟨hword x, fun _ _ => rfl⟩
  have hstep : StepOf st.kernel (st.kernel.setStatus (envx envid) .runnable) e (ChildOf st e) ∅ := by
    refine ⟨fun y m _ _ => hkept _, fun y hy _ => ?_, fun x p hx => .inl ?_,
      fun _ _ _ _ => (hkept _).byteAt_eq⟩
    · rw [KState.setStatus, KState.envs_setEnv, if_neg fun heq : y = envx envid => hy (heq ▸ hchild)]
      exact .refl _
    · rwa [hword] at hx
  refine hi.sameAct he hf (not_betweenMaps (fun _ _ _ _ heq =>
    ForkPc.noConfusion (Activity.forking.inj heq).2.1) hact) hstep
    (hi.base.setStatus EnvStatus.noConfusion ?_) hword fun _ _ _ heq => Activity.noConfusion heq
  rw [hfork.held]
  exact EnvStatus.noConfusion

/-! ## Turns of `fork` -/

/-- Every turn of `fork` keeps the invariant. -/
theorem ForkInv.forkTurn (hi : ForkInv M K st) (he : Live st.kernel e)
    (hd : st.kernel.dirs e = some d) (hf : (st.threads e).faults = []) {upcall : Word}
    {turn : ForkTurn} (hs : Jos.forkTurn M upcall c st.kernel e d (st.threads e).act = some turn) :
    turn.Keeps M K st e := by
  cases hact : (st.threads e).act with
  | program =>
      rw [hact] at hs
      cases hs
  | allocExstk =>
      rw [hact] at hs
      exact hi.allocExstk he hd hf hact hs
  | setUpcall =>
      rw [hact] at hs
      exact hi.setUpcall he hd hf hact hs
  | exofork =>
      rw [hact] at hs
      exact hi.exofork he hd hf hact hs
  | forking envid pc wrote =>
      rw [hact] at hs
      have hs' : forkingTurn M c st.kernel e d envid pc wrote = some turn := hs
      cases pc with
      | pages n => exact hi.pages he hd hf hact hs'
      | duppage n => exact hi.duppage he hd hf hact hs'
      | childMap n pte => exact hi.childMapTurn he hd hf hact hs'
      | parentMap n pte => exact hi.parentMapTurn he hd hf hact hs'
      | exstk => exact hi.exstkTurn he hf hact hs'
      | upcall => exact hi.upcallTurn he hf hact hs'
      | status => exact hi.statusTurn he hf hact hs'

/-- Every turn of a library function keeps the invariant. -/
theorem ForkInv.go (hi : ForkInv M K st) (he : Live st.kernel e) (hd : st.kernel.dirs e = some d)
    {upcall : Word} {tf : Trapframe} {st' : ForkState}
    (hs : Jos.go M upcall st e d c tf = some st') : ForkStep M K st e ∅ st' := by
  cases hf : (st.threads e).faults with
  | cons h rest => exact hi.handler he hd hf hs
  | nil =>
      unfold Jos.go at hs
      dsimp only at hs
      rw [hf] at hs
      dsimp only at hs
      cases hturn : Jos.forkTurn M upcall c st.kernel e d (st.threads e).act with
      | none =>
          rw [hturn] at hs
          cases hs
      | some turn =>
          have hkeeps := hi.forkTurn he hd hf hturn
          rw [hturn] at hs
          cases turn with
          | goes s act | panics s =>
              cases hs
              rw [← hf]
              exact hkeeps
          | faults va =>
              refine hi.raise he hd (fun h rest hf' => ?_) (fun hne => absurd hf hne) hs
              rw [hf] at hf'
              cases hf'

/-- The addresses a step stores to for its program. -/
def UserEvent.stored : UserEvent → Set Word
  | .store va _ => {va}
  | _ => ∅

/-- Every step of every environment keeps the invariant. -/
theorem ForkInv.next (hi : ForkInv M K st) (he : Live st.kernel e)
    (hd : st.kernel.dirs e = some d) {upcall : Word} {ev : UserEvent} {st' : ForkState}
    (hs : Jos.next M upcall st e d ev = some st') : ForkStep M K st e ev.stored st' := by
  unfold Jos.next at hs
  cases ev with
  | store va b =>
      dsimp only at hs
      split at hs
      · rename_i hcond
        obtain ⟨m, hm, rfl⟩ := Option.map_eq_some_iff.mp hs
        exact hi.store he hd hcond.1 hcond.2 hm
      · cases hs
  | stackStore va b =>
      dsimp only at hs
      split at hs
      · rename_i hcond
        obtain ⟨m, hm, rfl⟩ := Option.map_eq_some_iff.mp hs
        exact hi.stackStore he hd hcond.2 hm
      · cases hs
  | fault va tf =>
      dsimp only at hs
      split at hs
      · rename_i hcond
        refine hi.raise he hd (fun h rest hf => ?_) (fun hne => absurd hcond.1 hne) hs
        rw [hcond.1] at hf
        cases hf
      · cases hs
  | fork first =>
      dsimp only at hs
      split at hs
      · rename_i hcond
        cases hs
        obtain ⟨hf, hact⟩ := hcond
        refine hi.sameAct he hf (not_betweenMaps (fun _ _ _ _ => Activity.noConfusion) hact)
          ((Unchanged.refl hi.base).stepOf e _) hi.base (fun _ => rfl) fun x pc w heq => ?_
        split at heq <;> cases heq
      · cases hs
  | go c tf => exact hi.go he hd hs

end

end Jos
end Sisop

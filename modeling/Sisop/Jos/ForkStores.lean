import Sisop.Jos.ForkInv

/-!
# Stores and faults under copy-on-write

A store of a program changes a frame that only its child can have as well, and a fault
stores to the exception stack, which nobody shares.
-/

namespace Sisop
namespace Jos

open TransitionSystem CopyOnWrite RefCount

section

variable {M : Machine} {K : Nat → Prop} {st : ForkState} {s' : KState} {e d c n p : Nat}
  {t : Thread} {envid : Word} {pc : ForkPc} {wrote : List Word} {h : PgfaultRun}
  {rest : List PgfaultRun}

/-! ## The guard -/

theorem betweenMaps_put : BetweenMaps (st.put e s' t) e c n ↔
    ∃ envid pte wrote, t.act = .forking envid (.parentMap n pte) wrote ∧ c = envx envid := by
  unfold BetweenMaps
  rw [put_self]

theorem remapping_put : Remapping (st.put e s' t) e n ↔
    ∃ h rest, t.faults = h :: rest ∧ h.pc = .pageUnmap ∧ n = pgnum h.utfFaultVa := by
  unfold Remapping
  rw [put_self]

/-- A pair stays excepted when the thread of the step is still where it was. -/
theorem excepted_put {x y : Nat × Nat} (hx : excepted st x y)
    (hb : x.1 = e → BetweenMaps st e y.1 x.2 → BetweenMaps (st.put e s' t) e y.1 x.2)
    (hr : x.1 = e → x.2 = tempPage → Remapping st e y.2 → Remapping (st.put e s' t) e y.2) :
    excepted (st.put e s' t) x y := by
  by_cases hxe : x.1 = e
  · rcases hx with ⟨hm, hy⟩ | ⟨hm, hy, htemp⟩
    · rw [hxe] at hm
      exact .inl ⟨by rw [hxe]; exact hb hxe hm, hy⟩
    · rw [hxe] at hm
      exact .inr ⟨by rw [hxe]; exact hr hxe htemp hm, hy, htemp⟩
  · rcases hx with ⟨⟨envid, pte, wrote, hact, hc⟩, hy⟩ | ⟨⟨h, rest, hf, hpc, hn⟩, hy, htemp⟩
    · exact .inl ⟨⟨envid, pte, wrote, by rw [put_ne hxe]; exact hact, hc⟩, hy⟩
    · exact .inr ⟨⟨h, rest, by rw [put_ne hxe]; exact hf, hpc, hn⟩, hy, htemp⟩

theorem spaces_eq {s : KState} (hword : ∀ x, wordOn s' x = wordOn s x) : spaces s' = spaces s := by
  unfold spaces
  simp only [hword]

/-- The guard of a step that changes no place. -/
theorem ForkInv.guard_same (hi : ForkInv M K st) (hword : ∀ x, wordOn s' x = wordOn st.kernel x)
    (hb : ∀ c n, BetweenMaps st e c n → BetweenMaps (st.put e s' t) e c n)
    (hr : ∀ n, Remapping st e n → Remapping (st.put e s' t) e n) :
    Guarded (spaces s') (excepted (st.put e s' t)) := by
  rw [spaces_eq hword]
  exact hi.guarded.weaken fun x y f _ _ _ hx =>
    .inr (excepted_put hx (fun _ => hb _ _) fun _ _ => hr _)

theorem user_same (hi : ForkInv M K st) (hword : ∀ x, wordOn s' x = wordOn st.kernel x)
    (x : Nat × Nat) (hx : wordOn s' x ≠ 0#32) : UserWord (wordOn s' x) := by
  rw [hword] at hx ⊢
  exact hi.user x hx

theorem ForkInv.envs_same (hi : ForkInv M K st) (hact : (st.threads e).act = .forking envid pc wrote) :
    Forking st.kernel e envid pc wrote ∧ ChildOf st e (envx envid) :=
  ⟨hi.forking e envid pc wrote hact, ⟨envid, pc, wrote, hact, rfl⟩⟩

/-! ## Steps that change no place -/

/-- A step that changes nothing but the thread. -/
theorem ForkInv.move (hi : ForkInv M K st) (he : Live st.kernel e) (t : Thread)
    (hb : ∀ c n, BetweenMaps st e c n → BetweenMaps (st.put e st.kernel t) e c n)
    (hr : ∀ n, Remapping st e n → Remapping (st.put e st.kernel t) e n)
    (hown : ∀ envid pc wrote, t.act = .forking envid pc wrote →
      Forking st.kernel e envid pc wrote ∧ ChildOf st e (envx envid))
    (hfaults : ∀ h rest, t.faults = h :: rest → FaultInv st.kernel e h (rest ≠ [])) :
    ForkStep M K st e ∅ (st.put e st.kernel t) :=
  hi.put he ((Unchanged.refl hi.base).stepOf e _) t hi.base hi.user
    (hi.guard_same (fun _ => rfl) hb hr)
    (fun envid pc wrote hact => (hown envid pc wrote hact).imp_right .inl) hfaults

/-- `panic` stops the thread where it is. -/
theorem ForkInv.panic (hi : ForkInv M K st) (he : Live st.kernel e)
    (hs : Unchanged M K st.kernel s') (hfaults : ∀ h rest, (st.threads e).faults = h :: rest →
      FaultInv s' e h (rest ≠ [])) :
    ForkStep M K st e ∅ (st.put e s' { st.threads e with panicked := true }) := by
  refine hi.put he (hs.stepOf e _) _ hs.base (user_same hi fun x => (hs.kept x).1)
    (hi.guard_same (fun x => (hs.kept x).1) (fun c n hm => ?_) fun n hm => ?_)
    (fun envid pc wrote hact => ?_) hfaults
  · rw [betweenMaps_put]
    exact hm
  · rw [remapping_put]
    exact hm
  · obtain ⟨hf, hc⟩ := hi.envs_same hact
    exact ⟨hf.frame (sameEnv_of_envs hs.envs _) (sameEnv_of_envs hs.envs _)
      (fun n => hs.kept _) fun n => hs.kept _, .inl hc⟩

/-! ## Stores of the program -/

/-- The frame of a page of `e` is at no other page of `e`, unless its handler is between its
last two calls. -/
theorem ForkInv.ne_own (hi : ForkInv M K st) (hp : entry (wordOn st.kernel (e, n)) = some p)
    {m : Nat} (hm : m ≠ n)
    (h₁ : ¬ (Remapping st e m ∧ n = tempPage)) (h₂ : ¬ (Remapping st e n ∧ m = tempPage)) :
    entry (wordOn st.kernel (e, m)) ≠ some p := by
  intro hq
  rcases hi.guarded (e, n) (e, m) p (fun heq => hm (congrArg Prod.snd heq).symm) hp hq with
    hs | (⟨-, heq⟩ | ⟨hr, -, ht⟩) | (⟨-, heq⟩ | ⟨hr, -, ht⟩)
  · exact hs.1 rfl
  · exact hm heq
  · exact h₁ ⟨hr, ht⟩
  · exact hm heq.symm
  · exact h₂ ⟨hr, ht⟩

/-- The frame of a page that `e` may write is not its child's, unless `duppage` is between its
calls. -/
theorem ForkInv.ne_child (hi : ForkInv M K st) (he : Live st.kernel e)
    (hw : (spaces st.kernel).writes (e, n)) (hp : entry (wordOn st.kernel (e, n)) = some p)
    (hc : ChildOf st e c) {m : Nat} (h : ¬ (BetweenMaps st e c n ∧ m = n)) :
    entry (wordOn st.kernel (c, m)) ≠ some p := by
  have hce := hi.child_ne hc he
  refine hi.guarded.ne_of_writes (x := (e, n)) (y := (c, m)) hw hp
    (fun heq => hce (congrArg Prod.fst heq).symm) ?_ ?_
  · rintro (hx | ⟨-, heq, -⟩)
    · exact h hx
    · exact hce heq
  · rintro (⟨⟨envid, pte, wrote, hact, hchild⟩, -⟩ | ⟨-, heq, -⟩)
    · exact hi.not_live ⟨envid, _, wrote, hact, hchild⟩ he
    · exact hce heq.symm

/-- A store of the program, also while it forks. -/
theorem ForkInv.store (hi : ForkInv M K st) (he : Live st.kernel e)
    (hd : st.kernel.dirs e = some d) {va : Word} {b : BitVec 8} {m : PMap}
    (hfaults : (st.threads e).faults = []) (hva : va < utop)
    (hs : storeByte st.kernel.pm d userStore va b = some m) :
    ForkStep M K st e {va} (st.put e { st.kernel with pm := m }
      { st.threads e with act := (st.threads e).act.store va }) := by
  obtain ⟨p, hand, hp, hm, hw⟩ := storeByte_written hi.base hd hva (by decide) (by decide) hs
  have hwrites : (spaces st.kernel).writes (e, pgnum va) := by
    show wordOn st.kernel (e, pgnum va) &&& pteW ≠ 0#32
    have hbit : wordOn st.kernel (e, pgnum va) &&& pteW = pteW := and_of_and hand (by decide)
    rw [hbit]
    decide
  have hrem : ∀ n, ¬ Remapping st e n := by
    rintro n ⟨h, rest, hf, -⟩
    rw [hfaults] at hf
    cases hf
  have hown : ∀ va', pgnum va' ≠ exstkPage → pgnum va' ≠ tempPage → va' ∉ ({va} : Set Word) →
      byteAt { st.kernel with pm := m } e va' = byteAt st.kernel e va' := by
    intro va' _ _ hnot
    refine byteAt_store hw hm fun hq hoff => hnot (eq_of_page ?_ hoff)
    by_contra hpage
    exact hi.ne_own hp hpage (fun hr => hrem _ hr.1) (fun hr => hrem _ hr.1) hq
  refine hi.put he (hi.written_stepOf he hwrites hp hw hown) _ hw.base (user_same hi hw.word)
    (hi.guard_same hw.word (fun c n hbm => ?_) fun n hr => absurd hr (hrem n))
    (fun envid pc wrote' hact => ?_) fun h rest hf => ?_
  · obtain ⟨envid, pte, wrote, hact, hc⟩ := hbm
    refine betweenMaps_put.mpr ⟨envid, pte, va :: wrote, ?_, hc⟩
    show (st.threads e).act.store va = _
    rw [hact]
    rfl
  · cases ha : (st.threads e).act with
    | forking envid₀ pc₀ wrote =>
        rw [show (st.threads e).act.store va = .forking envid₀ pc₀ (va :: wrote) by rw [ha]; rfl]
          at hact
        cases hact
        obtain ⟨hf, hc⟩ := hi.envs_same ha
        refine ⟨hf.frame' (.refl _) (.refl _) (fun n => hw.word _)
(fun a ha => List.mem_cons_of_mem va ha) fun va' hex htemp hnot => ⟨?_, hown va' hex htemp ?_⟩,
          .inl hc⟩
        · -- The byte at `va` is not the child's, unless the page is.
          refine byteAt_store hw hm fun hq hoff => hnot (eq_of_page ?_ hoff ▸ List.mem_cons_self)
          by_contra hpage
          exact hi.ne_child he hwrites hp hc (fun hb => hpage hb.2) hq
        · rintro rfl
          exact hnot List.mem_cons_self
    | program | allocExstk | setUpcall | exofork =>
        rw [show (st.threads e).act.store va = (st.threads e).act by rw [ha]; rfl, ha] at hact
        cases hact
  · rw [show ({ st.threads e with act := (st.threads e).act.store va } : Thread).faults =
      (st.threads e).faults from rfl, hfaults] at hf
    cases hf

/-! ## The exception stack -/

/-- What a step on the exception stack of `e` leaves alone: the pages `fork` compares, and
those `pgfault` copies. -/
structure OnStack (M : Machine) (K : Nat → Prop) (st : ForkState) (e p : Nat) (s' : KState) :
    Prop where
  written : Written M K st.kernel s' p
  frame : entry (wordOn st.kernel (e, exstkPage)) = some p
  writes : (spaces st.kernel).writes (e, exstkPage)

theorem exstkPage_ne_tempPage : exstkPage ≠ tempPage := by decide

theorem OnStack.kept (ho : OnStack M K st e p s') (hi : ForkInv M K st) (hn : n ≠ exstkPage)
    (ht : n ≠ tempPage) : Kept st.kernel s' (e, n) :=
  ho.written.kept (hi.ne_own ho.frame hn (fun hr => exstkPage_ne_tempPage hr.2)
    fun hr => ht hr.2)

theorem OnStack.own (ho : OnStack M K st e p s') (hi : ForkInv M K st) (va : Word)
    (hex : pgnum va ≠ exstkPage) (htemp : pgnum va ≠ tempPage) (_ : va ∉ (∅ : Set Word)) :
    byteAt s' e va = byteAt st.kernel e va := (ho.kept hi hex htemp).byteAt_eq

theorem OnStack.kept_child (ho : OnStack M K st e p s') (hi : ForkInv M K st)
    (he : Live st.kernel e) (hc : ChildOf st e c) (n : Nat) : Kept st.kernel s' (c, n) := by
  refine ho.written.kept (hi.ne_child he ho.writes ho.frame hc ?_)
  rintro ⟨⟨envid, pte, wrote, hact, -⟩, -⟩
  exact (hi.forking e envid _ wrote hact).sound.2.1 rfl

theorem OnStack.forking (ho : OnStack M K st e p s') (hi : ForkInv M K st) (he : Live st.kernel e)
    (hact : (st.threads e).act = .forking envid pc wrote) :
    Forking s' e envid pc wrote ∧ (ChildOf st e (envx envid) ∨ st.kernel.dirs (envx envid) = none) := by
  obtain ⟨hf, hc⟩ := hi.envs_same hact
  refine ⟨hf.frame' (sameEnv_of_envs ho.written.envs _) (sameEnv_of_envs ho.written.envs _)
    (fun n => ho.written.word _) (fun _ ha => ha) fun va hex htemp _ => ?_, .inl hc⟩
  exact ⟨(ho.kept_child hi he hc _).byteAt_eq, (ho.kept hi hex htemp).byteAt_eq⟩

/-- A store of the handler to its stack. -/
theorem OnStack.fault (ho : OnStack M K st e p s') (hi : ForkInv M K st) {nested : Prop}
    (hf : FaultInv st.kernel e h nested) : FaultInv s' e h nested where
  temp := fun hc => by
    obtain ⟨q, ht⟩ := hf.temp hc
    exact ⟨q, (ho.written.word _).trans ht.word, by rw [ho.written.word]; exact ht.frame,
      fun x hx => ht.alone x (by rwa [ho.written.word] at hx)⟩
  copied := fun hlow htemp hex hw => by
    obtain ⟨q, hq, hcopy⟩ := hf.copied hlow htemp hex hw
    refine ⟨q, by rw [ho.written.word]; exact hq, fun r hr i hlt => ?_⟩
    rw [ho.written.word] at hr
    have hcopying : h.pc.Copying := .of_words hw
    obtain ⟨p', ht⟩ := hf.temp hcopying
    have hrp : r = p' := Option.some.inj (hr.symm.trans ht.frame)
    have htemp' : Kept st.kernel s' (e, tempPage) := by
      refine ho.written.kept fun hpt => ?_
      have hpp : p = p' := Option.some.inj (hpt.symm.trans ht.frame)
      exact exstkPage_ne_tempPage (congrArg Prod.snd (ht.alone _ (hpp ▸ ho.frame)))
    rw [htemp'.2 r hr, (ho.kept hi hex htemp).2 q hq]
    exact hcopy r hr i hlt
  bound := hf.bound
  stuck := fun hn => by
    obtain ⟨hpc, hlow⟩ := hf.stuck hn
    refine ⟨hpc, fun hva => ?_⟩
    obtain ⟨htemp, hz, hw⟩ := hlow hva
    exact ⟨htemp, (ho.written.word _).trans hz, hw⟩

theorem ForkInv.stackStore (hi : ForkInv M K st) (he : Live st.kernel e)
    (hd : st.kernel.dirs e = some d) {va : Word} {b : BitVec 8} {m : PMap}
    (hpage : pgnum va = exstkPage) (hs : storeByte st.kernel.pm d userStore va b = some m) :
    ForkStep M K st e ∅ (st.put e { st.kernel with pm := m } (st.threads e)) := by
  have hva : va < utop := by
    rw [BitVec.lt_def, show utop.toNat = 4005560320 from rfl]
    rw [pgnum_eq, show exstkPage = 977919 by decide] at hpage
    omega
  obtain ⟨p, hand, hp, -, hw⟩ := storeByte_written hi.base hd hva (by decide) (by decide) hs
  rw [hpage] at hand hp
  have hwrites : (spaces st.kernel).writes (e, exstkPage) := by
    show wordOn st.kernel (e, exstkPage) &&& pteW ≠ 0#32
    have hbit : wordOn st.kernel (e, exstkPage) &&& pteW = pteW := and_of_and hand (by decide)
    rw [hbit]
    decide
  have ho : OnStack M K st e p { st.kernel with pm := m } := ⟨hw, hp, hwrites⟩
  refine hi.put he (hi.written_stepOf he hwrites hp hw (ho.own hi)) _ hw.base
    (user_same hi hw.word)
    (hi.guard_same hw.word (fun c n hb => betweenMaps_put.mpr hb) fun n hr => remapping_put.mpr hr)
    (fun envid pc wrote hact => ho.forking hi he hact) fun h rest hf => ?_
  exact ho.fault hi (hi.faults e h rest hf)

/-! ## Faults -/

/-- The pages of the frame of a fault that fits. -/
theorem utf_page {esp : Word} (hfit : ¬ (utfAddr esp < exstk ∨ exstkTop < utfAddr esp)) :
    (∀ k, k < 52 → pgnum (utfAddr esp + BitVec.ofNat 32 k) = exstkPage) ∧
      (¬ (esp < exstk ∨ exstkTop < esp) →
        ∀ k, k < 4 → pgnum (esp - 4#32 + BitVec.ofNat 32 k) = exstkPage) := by
  have hexstk : exstk.toNat = 4005556224 := by decide
  have htop : exstkTop.toNat = 4005560319 := by decide
  have hpage : exstkPage = 977919 := by decide
  have hlt := esp.isLt
  unfold utfAddr at hfit ⊢
  by_cases hout : esp < exstk ∨ exstkTop < esp
  · rw [if_pos hout]
    refine ⟨fun k hk => ?_, fun hno => absurd hout hno⟩
    rw [pgnum_eq, hpage, BitVec.toNat_add, BitVec.toNat_sub, htop]
    simp only [BitVec.toNat_ofNat]
    omega
  · rw [if_neg hout] at hfit ⊢
    rw [BitVec.lt_def, BitVec.lt_def, hexstk, htop] at hout hfit
    simp only [BitVec.toNat_sub, BitVec.toNat_ofNat] at hfit
    refine ⟨fun k hk => ?_, fun _ k hk => ?_⟩
    · rw [pgnum_eq, hpage]
      simp only [BitVec.toNat_add, BitVec.toNat_sub, BitVec.toNat_ofNat]
      omega
    · rw [pgnum_eq, hpage]
      simp only [BitVec.toNat_add, BitVec.toNat_sub, BitVec.toNat_ofNat]
      omega

/-- A store by the kernel that goes through finds a page it can write. -/
theorem kernelStoreBytes_writes {s : KState} (hb : BaseInv M K s) (hd : s.dirs e = some d) {va : Word}
    {b : BitVec 8} {bs : List (BitVec 8)} {m : PMap}
    (hs : kernelStoreBytes s.pm d va (b :: bs) = .ok m) :
    ∃ p, entry (wordOn s (e, pgnum va)) = some p ∧ (spaces s).writes (e, pgnum va) := by
  unfold kernelStoreBytes at hs
  by_cases hlow : va < utop
  swap
  · rw [if_neg hlow] at hs
    split at hs <;> cases hs
  rw [if_pos hlow] at hs
  cases hb₁ : storeByte s.pm d kernelStore va b with
  | none =>
      rw [hb₁] at hs
      cases hs
  | some m₁ =>
      obtain ⟨p, hand, hp, -⟩ := storeByte_written hb hd hlow (by decide) (by decide) hb₁
      refine ⟨p, hp, ?_⟩
      show wordOn s (e, pgnum va) &&& pteW ≠ 0#32
      have hbit : wordOn s (e, pgnum va) &&& pteW = pteW := and_of_and hand (by decide)
      rw [hbit]
      decide

/-- A fault that is delivered stores to the exception stack alone. -/
theorem ForkInv.deliver_onStack (hi : ForkInv M K st) (hd : st.kernel.dirs e = some d)
    {upcall va : Word} {tf tf' : Trapframe} {m : PMap}
    (hs : deliver d upcall va st.kernel.pm tf = some (tf', m)) :
    ∃ p, OnStack M K st e p { st.kernel with pm := m } := by
  unfold deliver at hs
  cases hpush : pushUtf st.kernel.pm d (utfOf tf va) with
  | error stop =>
      rw [hpush] at hs
      cases hs
  | ok m' =>
  rw [hpush] at hs
  dsimp only at hs
  split at hs
  · cases hs
  rename_i hfit
  obtain ⟨-, rfl⟩ := Prod.mk.inj (Option.some.inj hs)
  obtain ⟨hframe, hscratch⟩ := utf_page hfit
  have hzero : pgnum (utfAddr tf.esp) = exstkPage := by
    have h0 := hframe 0 (by decide)
    rwa [show utfAddr tf.esp + BitVec.ofNat 32 0 = utfAddr tf.esp from BitVec.add_zero _] at h0
  -- What is at the page decides both stores.
  have hpage : ∀ {s : KState}, (∀ x, wordOn s x = wordOn st.kernel x) → ∀ {a : Word} {len : Nat},
      (∀ k, k < len → pgnum (a + BitVec.ofNat 32 k) = exstkPage) → ∀ k, k < len → ∀ q,
      entry (wordOn s (e, pgnum (a + BitVec.ofNat 32 k))) = some q →
        q = pgnum (wordOn st.kernel (e, exstkPage)) := by
    intro s hword a len hin k hk q hq
    rw [hin k hk, hword] at hq
    exact ((entry_eq_some.mp hq).2).symm
  unfold pushUtf at hpush
  cases hsc : pushScratch st.kernel.pm d tf.esp with
  | error stop =>
      rw [show (utfOf tf va).utfEsp = tf.esp from rfl, hsc] at hpush
      cases hpush
  | ok m₁ =>
  rw [show (utfOf tf va).utfEsp = tf.esp from rfl, hsc, Except.ok_bind_eq] at hpush
  have hw₁ : Written M K st.kernel { st.kernel with pm := m₁ }
      (pgnum (wordOn st.kernel (e, exstkPage))) := by
    unfold pushScratch at hsc
    split at hsc
    · cases hsc
      exact ⟨hi.base, rfl, fun _ => rfl, fun _ _ => rfl⟩
    · rename_i hin
      have hin' : ∀ k, k < (wordBytes 0#32).length →
          pgnum (tf.esp - 4#32 + BitVec.ofNat 32 k) = exstkPage := hscratch hin
      exact kernelStoreBytes_written hi.base hd _ (hpage (fun _ => rfl) hin') hsc
  have hlen : (utfOf tf va).bytes.length = 52 := length_bytes _
  have hw₂ := kernelStoreBytes_written (s := { st.kernel with pm := m₁ }) hw₁.base hd
    (utfOf tf va).bytes (hpage hw₁.word (fun k hk => hframe k (hlen ▸ hk))) hpush
  obtain ⟨b, bs, hbs⟩ : ∃ b bs, (utfOf tf va).bytes = b :: bs :=
    List.exists_cons_of_ne_nil fun hnil => by rw [hnil] at hlen; cases hlen
  rw [hbs] at hpush
  obtain ⟨q, hq, hwrites⟩ := kernelStoreBytes_writes (s := { st.kernel with pm := m₁ }) hw₁.base hd
    hpush
  rw [hzero, hw₁.word] at hq
  rw [hzero, spaces_eq hw₁.word] at hwrites
  have hqp : pgnum (wordOn st.kernel (e, exstkPage)) = q := (entry_eq_some.mp hq).2
  rw [hqp] at hw₁ hw₂
  exact ⟨q, ⟨hw₂.base, rfl, fun x => (hw₂.word x).trans (hw₁.word x),
    fun r hr => (hw₂.mem r hr).trans (hw₁.mem r hr)⟩, hq, hwrites⟩

/-- A fault starts `pgfault`.  When it interrupts another run, it is on a page that is not
there, or above `UTOP`. -/
theorem ForkInv.raise (hi : ForkInv M K st) (he : Live st.kernel e)
    (hd : st.kernel.dirs e = some d) {va : Word} {tf : Trapframe} {st' : ForkState}
    (hpc : ∀ h rest, (st.threads e).faults = h :: rest → h.pc ≠ .pageUnmap)
    (hstuck : (st.threads e).faults ≠ [] → va < utop →
      pgnum va ≠ tempPage ∧ wordOn st.kernel (e, pgnum va) = 0#32)
    (hs : Jos.raise M st e d va tf = some st') : ForkStep M K st e ∅ st' := by
  unfold Jos.raise at hs
  dsimp only at hs
  split at hs
  · cases hs
  obtain ⟨⟨tf', m⟩, hdel, rfl⟩ := Option.map_eq_some_iff.mp hs
  obtain ⟨p, ho⟩ := hi.deliver_onStack hd hdel
  refine hi.put he (hi.written_stepOf he ho.writes ho.frame ho.written (ho.own hi))
    { st.threads e with faults := ⟨va, tf.err, .check⟩ :: (st.threads e).faults } ho.written.base
    (user_same hi ho.written.word)
    (hi.guard_same ho.written.word (fun c n hb => betweenMaps_put.mpr hb) fun n hr => ?_)
    (fun envid pc wrote hact => ho.forking hi he hact) fun h rest hf => ?_
  · obtain ⟨h, rest, hf, hun, -⟩ := hr
    exact absurd hun (hpc h rest hf)
  · obtain ⟨rfl, rfl⟩ := List.cons.inj hf
    refine ⟨fun hc => absurd hc id, fun _ _ _ hw => absurd hw (Nat.lt_irrefl 0), Nat.zero_le _,
      fun hn => ⟨PgfaultPc.noConfusion, fun hva => ?_⟩⟩
    obtain ⟨htemp, hz⟩ := hstuck hn hva
    exact ⟨htemp, by rw [ho.written.word]; exact hz, rfl⟩

end

end Jos
end Sisop

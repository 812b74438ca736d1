import Sisop.Jos.Fork
import Sisop.Jos.Spaces

/-!
# The invariant of copy-on-write

No frame that may be written is at a second place, up to two pairs of places: the page of a
parent that is between the two calls of `duppage`, with the same page of its child, and
`PFTEMP` with the page `pgfault` has just mapped its copy at.  The child reads what the
parent does at the pages done so far, and a run of `pgfault` has its copy at `PFTEMP`, at no
other place, equal so far to the page it copies.

A fault of the handler itself never ends: it is on a page that is not there, or above `UTOP`,
where `sys_page_map` maps nothing.  So the run of `pgfault` that another one interrupted
does not go on.
-/

namespace Sisop
namespace Jos

open TransitionSystem CopyOnWrite

/-- `PFTEMP` as a page. -/
def tempPage : Nat := pgnum pftemp

/-- Environment `c` is the child that `e` is forking. -/
def ChildOf (st : ForkState) (e c : Nat) : Prop :=
  ∃ envid pc wrote, (st.threads e).act = .forking envid pc wrote ∧ c = envx envid

/-- Environment `e` is between the two calls of `duppage` for page `n` and child `c`. -/
def BetweenMaps (st : ForkState) (e c n : Nat) : Prop :=
  ∃ envid pte wrote, (st.threads e).act = .forking envid (.parentMap n pte) wrote ∧ c = envx envid

/-- The handler of `e` has mapped its copy at page `n`, and still has it at `PFTEMP`. -/
def Remapping (st : ForkState) (e n : Nat) : Prop :=
  ∃ h rest, (st.threads e).faults = h :: rest ∧ h.pc = .pageUnmap ∧ n = pgnum h.utfFaultVa

/-- The pairs of places that may have one frame although it may be written. -/
def excepted (st : ForkState) (x y : Nat × Nat) : Prop :=
  BetweenMaps st x.1 y.1 x.2 ∧ y.2 = x.2 ∨ Remapping st x.1 y.2 ∧ y.1 = x.1 ∧ x.2 = tempPage

/-- The entry is of a page the program may read, and one `duppage` makes copy-on-write. -/
def UserWord (w : Word) : Prop := w &&& userLoad = userLoad ∧ WritableOrCow w

/-- Below this page the child has what `duppage` gave it. -/
def ForkPc.done : ForkPc → Nat
  | .pages n => n
  | .duppage n => n
  | .childMap n _ => n
  | .parentMap n _ => n + 1
  | .exstk => pnumEnd
  | .upcall => pnumEnd
  | .status => pnumEnd

/-- The page `fork` is at is one it duplicates. -/
def ForkPc.Sound : ForkPc → Prop
  | .pages n => n ≤ pnumEnd
  | .duppage n => n < pnumEnd ∧ n ≠ exstkPage
  | .childMap n pte => n < pnumEnd ∧ n ≠ exstkPage ∧ WritableOrCow pte
  | .parentMap n pte => n < pnumEnd ∧ n ≠ exstkPage ∧ WritableOrCow pte
  | _ => True

/-- What holds while `fork` of environment `e` is at `pc` and its child has id `envid`. -/
structure Forking (s : KState) (e : Nat) (envid : Word) (pc : ForkPc) (wrote : List Word) :
    Prop where
  lookup : envid2env s e envid true = .ok (envx envid)
  ne : envx envid ≠ e
  dir : s.dirs (envx envid) ≠ none
  held : (s.envs (envx envid)).envStatus = .notRunnable
  same : ∀ va, pgnum va < pc.done → pgnum va ≠ exstkPage → pgnum va ≠ tempPage → va ∉ wrote →
    byteAt s (envx envid) va = byteAt s e va
  readOnly : ∀ n, n ≠ exstkPage → ¬ (spaces s).writes (envx envid, n)
  pending : ∀ n, pc.done ≤ n → n ≠ exstkPage → wordOn s (envx envid, n) = 0#32
  sound : pc.Sound

/-- `pgfault` has a page at `PFTEMP` that it has not mapped elsewhere yet. -/
def PgfaultPc.Copying : PgfaultPc → Prop
  | .copy _ => True
  | .pageMap => True
  | _ => False

/-- The words copied so far. -/
def PgfaultPc.words : PgfaultPc → Nat
  | .copy k => k
  | .pageMap => nptentries
  | _ => 0

theorem PgfaultPc.Copying.of_words {pc : PgfaultPc} (h : 0 < pc.words) : pc.Copying := by
  cases pc with
  | copy | pageMap => trivial
  | check | pageAlloc | pageUnmap => exact absurd h (Nat.lt_irrefl 0)

/-- Frame `p` is at `PFTEMP` of environment `e` and at no other place. -/
structure TempAt (s : KState) (e p : Nat) : Prop where
  word : wordOn s (e, tempPage) = page2pa p ||| pgfaultPerm
  frame : entry (wordOn s (e, tempPage)) = some p
  alone : ∀ x, entry (wordOn s x) = some p → x = (e, tempPage)

/-- What holds of the last run of `pgfault` of environment `e`, which has interrupted another
one if `nested`. -/
structure FaultInv (s : KState) (e : Nat) (h : PgfaultRun) (nested : Prop) : Prop where
  temp : h.pc.Copying → ∃ p, TempAt s e p
  copied : h.utfFaultVa < utop → pgnum h.utfFaultVa ≠ tempPage → pgnum h.utfFaultVa ≠ exstkPage →
    0 < h.pc.words → ∃ q, entry (wordOn s (e, pgnum h.utfFaultVa)) = some q ∧
      ∀ p, entry (wordOn s (e, tempPage)) = some p → ∀ i, i < h.pc.words →
        s.pm.mem p i = s.pm.mem q i
  bound : h.pc.words ≤ nptentries
  stuck : nested → h.pc ≠ .pageUnmap ∧ (h.utfFaultVa < utop →
    pgnum h.utfFaultVa ≠ tempPage ∧ wordOn s (e, pgnum h.utfFaultVa) = 0#32 ∧ h.pc.words = 0)

structure ForkInv (M : Machine) (K : Nat → Prop) (st : ForkState) : Prop where
  base : BaseInv M K st.kernel
  user : ∀ x, wordOn st.kernel x ≠ 0#32 → UserWord (wordOn st.kernel x)
  guarded : Guarded (spaces st.kernel) (excepted st)
  live : ∀ e, st.threads e ≠ .start → Live st.kernel e
  forking : ∀ e envid pc wrote, (st.threads e).act = .forking envid pc wrote →
    Forking st.kernel e envid pc wrote
  unique : ∀ e e' c, ChildOf st e c → ChildOf st e' c → e = e'
  faults : ∀ e h rest, (st.threads e).faults = h :: rest → FaultInv st.kernel e h (rest ≠ [])

/-! ## What a step leaves to the others -/

/-- The slot is of the same environment, with the status it had. -/
structure SameEnv (a b : Env) : Prop where
  envId : b.envId = a.envId
  envParentId : b.envParentId = a.envParentId
  envStatus : b.envStatus = a.envStatus
  envPgdir : b.envPgdir = a.envPgdir

/-- What a step of environment `e`, with children `child`, leaves as it is: the places and the
slots of the others, and its own bytes but for those it has `stored` to.  A frame that a
place gets was of `e`, or nobody's. -/
structure StepOf (s s' : KState) (e : Nat) (child : Nat → Prop) (stored : Set Word) : Prop where
  kept : ∀ y n, y ≠ e → ¬ child y → Kept s s' (y, n)
  slot : ∀ y, ¬ child y → (s.envs y).envStatus ≠ .free → SameEnv (s.envs y) (s'.envs y)
  origin : ∀ x p, entry (wordOn s' x) = some p → entry (wordOn s x) = some p ∨
    (∀ y, entry (wordOn s y) ≠ some p) ∨ ∃ n, entry (wordOn s (e, n)) = some p
  own : ∀ va, pgnum va ≠ exstkPage → pgnum va ≠ tempPage → va ∉ stored →
    byteAt s' e va = byteAt s e va

/-- A step of environment `e` keeps the invariant, and leaves the others alone. -/
structure ForkStep (M : Machine) (K : Nat → Prop) (st : ForkState) (e : Nat) (stored : Set Word)
    (st' : ForkState) : Prop where
  inv : ForkInv M K st'
  stepOf : StepOf st.kernel st'.kernel e (ChildOf st e) stored

section

variable {M : Machine} {K : Nat → Prop} {s s' : KState} {st : ForkState} {e c n d : Nat}
  {child : Nat → Prop} {stored : Set Word} {envid w : Word} {pc : ForkPc} {wrote : List Word}
  {x₀ : Nat × Nat}

theorem SameEnv.refl (a : Env) : SameEnv a a := ⟨rfl, rfl, rfl, rfl⟩

theorem envid2env_congr {e : Nat} (he : SameEnv (s.envs e) (s'.envs e))
    (hc : SameEnv (s.envs (envx envid)) (s'.envs (envx envid))) (checkperm : Bool) :
    envid2env s' e envid checkperm = envid2env s e envid checkperm := by
  unfold envid2env
  dsimp only
  rw [hc.envStatus, hc.envId, hc.envParentId, he.envId]

/-- What a step has to leave alone for the fork of `e` to stay as it is. -/
theorem Forking.frame' {wrote' : List Word} (h : Forking s e envid pc wrote)
    (he : SameEnv (s.envs e) (s'.envs e))
    (hc : SameEnv (s.envs (envx envid)) (s'.envs (envx envid)))
    (hword : ∀ n, wordOn s' (envx envid, n) = wordOn s (envx envid, n))
    (hsub : ∀ va, va ∈ wrote → va ∈ wrote')
    (hbyte : ∀ va, pgnum va ≠ exstkPage → pgnum va ≠ tempPage → va ∉ wrote' →
      byteAt s' (envx envid) va = byteAt s (envx envid) va ∧ byteAt s' e va = byteAt s e va) :
    Forking s' e envid pc wrote' where
  lookup := (envid2env_congr he hc true).trans h.lookup
  ne := h.ne
  dir := by
    rw [KState.dirs, hc.envPgdir]
    exact h.dir
  held := hc.envStatus.trans h.held
  same := fun va hlt hex htemp hw => by
    obtain ⟨hchild, hself⟩ := hbyte va hex htemp hw
    rw [hchild, hself]
    exact h.same va hlt hex htemp fun hin => hw (hsub va hin)
  readOnly := fun n hn => by
    show ¬ wordOn s' _ &&& pteW ≠ 0#32
    rw [hword]
    exact h.readOnly n hn
  pending := fun n hle hn => (hword n).trans (h.pending n hle hn)
  sound := h.sound

theorem Forking.frame (h : Forking s e envid pc wrote) (he : SameEnv (s.envs e) (s'.envs e))
    (hc : SameEnv (s.envs (envx envid)) (s'.envs (envx envid))) (hkept : ∀ n, Kept s s' (e, n))
    (hchild : ∀ n, Kept s s' (envx envid, n)) : Forking s' e envid pc wrote :=
  h.frame' he hc (fun n => (hchild n).1) (fun _ hva => hva)
    fun _ _ _ _ => ⟨(hchild _).byteAt_eq, (hkept _).byteAt_eq⟩

/-- The copy a handler is making is in nobody's way. -/
theorem FaultInv.kept {h : PgfaultRun} {nested : Prop} (hf : FaultInv s e h nested)
    (hkept : ∀ n, Kept s s' (e, n))
    (hplace : ∀ x p, TempAt s e p → entry (wordOn s' x) = some p → entry (wordOn s x) = some p) :
    FaultInv s' e h nested where
  temp := fun hc => by
    obtain ⟨p, ht⟩ := hf.temp hc
    exact ⟨p, (hkept _).1.trans ht.word, by rw [(hkept _).1]; exact ht.frame,
      fun x hx => ht.alone x (hplace x p ht hx)⟩
  copied := fun hlow htemp hex hw => by
    obtain ⟨q, hq, hcopy⟩ := hf.copied hlow htemp hex hw
    refine ⟨q, by rw [(hkept _).1]; exact hq, fun p hp i hi => ?_⟩
    rw [(hkept _).1] at hp
    rw [(hkept _).2 p hp, (hkept _).2 q hq]
    exact hcopy p hp i hi
  bound := hf.bound
  stuck := fun hn => by
    obtain ⟨hpc, hlow⟩ := hf.stuck hn
    refine ⟨hpc, fun hva => ?_⟩
    obtain ⟨htemp, hz, hw⟩ := hlow hva
    exact ⟨htemp, by rw [(hkept _).1]; exact hz, hw⟩

theorem FaultInv.frame {h : PgfaultRun} {nested : Prop} (hf : FaultInv s e h nested)
    (hkept : ∀ n, Kept s s' (e, n)) {y : Nat} (hy : e ≠ y)
    (horigin : ∀ x p, entry (wordOn s' x) = some p → entry (wordOn s x) = some p ∨
      (∀ z, entry (wordOn s z) ≠ some p) ∨ ∃ n, entry (wordOn s (y, n)) = some p) :
    FaultInv s' e h nested := by
  refine hf.kept hkept fun x p ht hx => ?_
  rcases horigin x p hx with hold | hfresh | ⟨n, hn⟩
  · exact hold
  · exact absurd ht.frame (hfresh _)
  · exact absurd (congrArg Prod.fst (ht.alone _ hn)) hy.symm

theorem Live.not_free (h : Live s e) : (s.envs e).envStatus ≠ .free := by
  rcases h with h | h <;> rw [h] <;> decide

/-- A child that is being made does not run. -/
theorem ForkInv.not_live (h : ForkInv M K st) (hc : ChildOf st e c) : ¬ Live st.kernel c := by
  obtain ⟨envid, pc, wrote, hact, rfl⟩ := hc
  have hheld := (h.forking e envid pc wrote hact).held
  rintro (hl | hl) <;> rw [hheld] at hl <;> cases hl

theorem ForkInv.child_ne (h : ForkInv M K st) (hc : ChildOf st e c) (he : Live st.kernel n) :
    c ≠ n := by
  rintro rfl
  exact h.not_live hc he

theorem put_kernel (st : ForkState) (e : Nat) (s : KState) (t : Thread) :
    (st.put e s t).kernel = s := rfl

theorem put_self (st : ForkState) (e : Nat) (s : KState) (t : Thread) :
    (st.put e s t).threads e = t := Function.update_self _ _ _

theorem put_ne {y : Nat} (hy : y ≠ e) (s : KState) (t : Thread) :
    (st.put e s t).threads y = st.threads y := Function.update_of_ne hy _ _

/-- The invariant after a step of `e`, from what the step leaves to the others and what holds
of `e` itself. -/
theorem ForkInv.put (h : ForkInv M K st) (he : Live st.kernel e)
    (hstep : StepOf st.kernel s' e (ChildOf st e) stored) (t : Thread) (hbase : BaseInv M K s')
    (huser : ∀ x, wordOn s' x ≠ 0#32 → UserWord (wordOn s' x))
    (hguarded : Guarded (spaces s') (excepted (st.put e s' t)))
    (hown : ∀ envid pc wrote, t.act = .forking envid pc wrote →
      Forking s' e envid pc wrote ∧ (ChildOf st e (envx envid) ∨ st.kernel.dirs (envx envid) = none))
    (hfaults : ∀ h rest, t.faults = h :: rest → FaultInv s' e h (rest ≠ [])) :
    ForkStep M K st e stored (st.put e s' t) := by
  have hself : SameEnv (st.kernel.envs e) (s'.envs e) :=
    hstep.slot e (fun hc => h.not_live hc he) he.not_free
  have hlive : ∀ y, Live st.kernel y → Live s' y := fun y hy => by
    have hsame := hstep.slot y (fun hc => h.not_live hc hy) hy.not_free
    unfold Live
    rw [hsame.envStatus]
    exact hy
  -- Another environment that is forking, and its child, are none of the step's.
  have hother : ∀ y, y ≠ e → ∀ envid pc wrote, (st.threads y).act = .forking envid pc wrote →
      Live st.kernel y ∧ ¬ ChildOf st e y ∧ envx envid ≠ e ∧ ¬ ChildOf st e (envx envid) := by
    intro y hy envid pc wrote hact
    have hy' : Live st.kernel y := h.live y fun heq => by rw [heq] at hact; cases hact
    have hchild : ChildOf st y (envx envid) := ⟨envid, pc, wrote, hact, rfl⟩
    exact ⟨hy', fun hc => h.not_live hc hy', h.child_ne hchild he,
      fun hc => hy (h.unique y e _ hchild hc)⟩
  refine ⟨⟨hbase, huser, hguarded, fun y hy => ?_, fun y envid pc wrote hact => ?_,
    fun y y' c hy hy' => ?_, fun y f rest hf => ?_⟩, hstep⟩
  · by_cases hye : y = e
    · exact hye ▸ hlive e he
    · rw [put_ne hye] at hy
      exact hlive y (h.live y hy)
  · by_cases hye : y = e
    · subst hye
      rw [put_self] at hact
      exact (hown envid pc wrote hact).1
    · rw [put_ne hye] at hact
      obtain ⟨hy', hny, hce, hnc⟩ := hother y hye envid pc wrote hact
      have hfork := h.forking y envid pc wrote hact
      refine hfork.frame (hstep.slot y hny hy'.not_free) (hstep.slot _ hnc ?_)
        (fun n => hstep.kept y n hye hny) fun n => hstep.kept _ n hce hnc
      rw [hfork.held]
      decide
  · -- A child that `e` has from this step on had no page directory before.
    have hnew : ∀ y, y ≠ e → ChildOf (st.put e s' t) e c → ChildOf (st.put e s' t) y c → False := by
      rintro y hye ⟨envid, pc, wrote, hact, rfl⟩ ⟨envid', pc', wrote', hact', hc⟩
      rw [put_self] at hact
      rw [put_ne hye] at hact'
      rcases (hown envid pc wrote hact).2 with hold | hnone
      · exact hye (h.unique y e _ ⟨envid', pc', wrote', hact', hc⟩ hold)
      · rw [hc] at hnone
        exact (h.forking y envid' pc' wrote' hact').dir hnone
    by_cases hye : y = e
    · by_cases hye' : y' = e
      · rw [hye, hye']
      · subst hye
        exact (hnew y' hye' hy hy').elim
    · by_cases hye' : y' = e
      · subst hye'
        exact (hnew y hye hy' hy).elim
      · obtain ⟨envid, pc, wrote, hact, rfl⟩ := hy
        obtain ⟨envid', pc', wrote', hact', hc⟩ := hy'
        rw [put_ne hye] at hact
        rw [put_ne hye'] at hact'
        exact h.unique y y' _ ⟨envid, pc, wrote, hact, rfl⟩ ⟨envid', pc', wrote', hact', hc⟩
  · by_cases hye : y = e
    · subst hye
      rw [put_self] at hf
      exact hfaults f rest hf
    · rw [put_ne hye] at hf
      have hy' : Live st.kernel y := h.live y fun heq => by rw [heq] at hf; cases hf
      exact (h.faults y f rest hf).frame (fun n => hstep.kept y n hye fun hc => h.not_live hc hy')
        hye hstep.origin

/-! ## The kinds of steps -/

/-- Slots of an equal table are the same. -/
theorem sameEnv_of_envs (h : s'.envs = s.envs) (y : Nat) : SameEnv (s.envs y) (s'.envs y) := by
  rw [h]
  exact .refl _

theorem Unchanged.refl (h : BaseInv M K s) : Unchanged M K s s := ⟨h, rfl, fun x => .refl s x⟩

theorem Unchanged.stepOf (h : Unchanged M K s s') (e : Nat) (child : Nat → Prop) :
    StepOf s s' e child stored where
  kept := fun y n _ _ => h.kept (y, n)
  slot := fun y _ _ => sameEnv_of_envs h.envs y
  origin := fun x p hx => .inl (by rwa [(h.kept x).1] at hx)
  own := fun _ _ _ _ => (h.kept _).byteAt_eq

/-- A place of `e` or its child has got a frame of `e`, or of nobody, or lost its own. -/
theorem Replaced.stepOf (h : Replaced M K s s' x₀ w) (hx₀ : x₀.1 = e ∨ child x₀.1)
    (hw : ∀ p, entry w = some p →
      (∀ y, entry (wordOn s y) ≠ some p) ∨ ∃ n, entry (wordOn s (e, n)) = some p)
    (hown : x₀.1 = e → x₀.2 ≠ exstkPage → x₀.2 ≠ tempPage → ∀ va, pgnum va = x₀.2 →
      byteAt s' e va = byteAt s e va) : StepOf s s' e child stored where
  kept := fun y n hy hc => h.kept fun heq => by
    rw [← heq] at hx₀
    exact hx₀.elim hy hc
  slot := fun y _ _ => sameEnv_of_envs h.envs y
  origin := fun x p hx => by
    rw [h.word] at hx
    split at hx
    · exact .inr (hw p hx)
    · exact .inl hx
  own := fun va hex htemp _ => by
    by_cases hx : (e, pgnum va) = x₀
    · subst hx
      exact hown rfl hex htemp va rfl
    · exact (h.kept hx).byteAt_eq

/-- What `e` may write, only its child has as well. -/
theorem ForkInv.alone (h : ForkInv M K st) (he : Live st.kernel e) {p : Nat}
    (hw : (spaces st.kernel).writes (e, n)) (hp : entry (wordOn st.kernel (e, n)) = some p)
    {y m : Nat} (hy : y ≠ e) (hc : ¬ ChildOf st e y) : entry (wordOn st.kernel (y, m)) ≠ some p := by
  refine h.guarded.ne_of_writes (x := (e, n)) (y := (y, m)) hw hp
    (fun heq => hy (congrArg Prod.fst heq).symm) ?_ ?_
  · rintro (⟨⟨envid, pte, wrote, hact, hchild⟩, -⟩ | ⟨-, heq, -⟩)
    · exact hc ⟨envid, _, wrote, hact, hchild⟩
    · exact hy heq
  · rintro (⟨⟨envid, pte, wrote, hact, hchild⟩, -⟩ | ⟨-, heq, -⟩)
    · exact h.not_live ⟨envid, _, wrote, hact, hchild⟩ he
    · exact hy heq.symm

/-- The contents of a frame that `e` may write have changed. -/
theorem ForkInv.written_stepOf (h : ForkInv M K st) (he : Live st.kernel e) {p : Nat}
    (hw : (spaces st.kernel).writes (e, n)) (hp : entry (wordOn st.kernel (e, n)) = some p)
    (hwritten : Written M K st.kernel s' p)
    (hown : ∀ va, pgnum va ≠ exstkPage → pgnum va ≠ tempPage → va ∉ stored →
      byteAt s' e va = byteAt st.kernel e va) : StepOf st.kernel s' e (ChildOf st e) stored where
  kept := fun _ _ hy hc => hwritten.kept (h.alone he hw hp hy hc)
  slot := fun y _ _ => sameEnv_of_envs hwritten.envs y
  origin := fun x p hx => .inl (by rwa [hwritten.word] at hx)
  own := hown

end

end Jos
end Sisop

import Sisop.Jos.Pgfault
import Sisop.Jos.ForkV0
import Sisop.Jos.LoadIcode
import Sisop.Jos.SetUpcall

/-!
# `fork` among other programs

`fork` and `pgfault` of `lib/fork.c` as the programs run them, one system call, one store or
one word of a copy at a time, with the steps of all environments in any order.  Between
`sys_exofork` and the end of `fork` the parent goes on storing, and each store may fault and
start `pgfault` on its exception stack; a fault of the handler starts it once more, above.

Any environment that has been made runnable takes the next step.  The scheduler is not part
of this model, and neither is an environment that the kernel destroys: a step that would end
in `env_destroy` is none.  Loads change nothing and are no steps, but the faults they cause are.
-/

namespace Sisop
namespace Jos

open TransitionSystem

/-! ## Threads -/

/-- Where a run of `pgfault` is: at its look at `uvpt`, at one of its system calls, or at
word `k` of the copy. -/
inductive PgfaultPc
  | check
  | pageAlloc
  | copy (k : Nat)
  | pageMap
  | pageUnmap
  deriving DecidableEq, Repr

/-- A run of `pgfault`, with the two words of its frame that it reads. -/
structure PgfaultRun where
  utfFaultVa : Word
  utfErr : Word
  pc : PgfaultPc

/-- Where `fork` is, once it has a child.  `duppage` has its page at `childMap` and
`parentMap`, which are its two calls of `sys_page_map`. -/
inductive ForkPc
  | pages (pnum : Nat)
  | duppage (pnum : Nat)
  | childMap (pnum : Nat) (pte : Word)
  | parentMap (pnum : Nat) (pte : Word)
  | exstk
  | upcall
  | status
  deriving DecidableEq, Repr

/-- What an environment is doing: its own code, `set_pgfault_handler`, `sys_exofork`, or the
rest of `fork`.  `wrote` has the addresses the parent has stored to since `sys_exofork`; the
program keeps no such record. -/
inductive Activity
  | program
  | allocExstk
  | setUpcall
  | exofork
  | forking (envid : Word) (pc : ForkPc) (wrote : List Word)
  deriving DecidableEq, Repr

/-- An environment's activity, and the runs of `pgfault` above it, the last one first. -/
structure Thread where
  act : Activity
  faults : List PgfaultRun
  panicked : Bool

def Thread.start : Thread where
  act := .program
  faults := []
  panicked := false

structure ForkState where
  kernel : KState
  threads : Nat → Thread

inductive UserEvent
  | store (va : Word) (b : BitVec 8)
  | stackStore (va : Word) (b : BitVec 8)
  | fault (va : Word) (tf : Trapframe)
  | fork (first : Bool)
  | go (c : Nat) (tf : Trapframe)

/-! ## `pgfault` -/

/-- What comes of a system call whose error ends in `panic`.  A call that does not come back
is no step. -/
def checkCall {α : Type} (call : Except Stop (Int × KState)) (panics goes : KState → α) :
    Option α :=
  match call with
  | .error _ => none
  | .ok (r, s) => some (if r < 0 then panics s else goes s)

inductive PgfaultTurn
  | goes (s : KState) (pc : PgfaultPc)
  | returns (s : KState)
  | panics (s : KState)
  | faults (va : Word)

/-- Word `k` of the copy of `pgfault`, from `addr` on. -/
def copyTurn (s : KState) (d : Nat) (addr : Word) (k : Nat) : PgfaultTurn :=
  match wordOf s.pm d (addr + BitVec.ofNat 32 (4 * k)) with
  | none => .faults (addr + BitVec.ofNat 32 (4 * k))
  | some w =>
      match setWordOf s.pm d (pftemp + BitVec.ofNat 32 (4 * k)) w with
      | none => .faults (pftemp + BitVec.ofNat 32 (4 * k))
      | some m => .goes { s with pm := m } (.copy (k + 1))

/-- The next step of `pgfault` in environment `e`, with page directory `d`. -/
def pgfaultTurn (M : Machine) (s : KState) (e d : Nat) (h : PgfaultRun) : Option PgfaultTurn :=
  match h.pc with
  | .check =>
      match uvpt s.pm d (pgnum h.utfFaultVa) with
      | none => some (.faults (uvptVa (pgnum h.utfFaultVa)))
      | some pte =>
          if (h.utfErr &&& fecWr) &&& lnot (pte &&& pteCow) ≠ 0#32 then some (.panics s)
          else some (.goes s .pageAlloc)
  | .pageAlloc =>
      checkCall (sysPageAlloc M s e 0#32 pftemp pgfaultPerm) .panics (.goes · (.copy 0))
  | .copy k =>
      some (if k = nptentries then .goes s .pageMap
        else copyTurn s d (rounddown h.utfFaultVa) k)
  | .pageMap =>
      checkCall (sysPageMap M s e 0#32 pftemp 0#32 (rounddown h.utfFaultVa) pgfaultPerm) .panics
        (.goes · .pageUnmap)
  | .pageUnmap => checkCall (sysPageUnmap M s e 0#32 pftemp) .panics .returns

/-! ## `fork` -/

inductive ForkTurn
  | goes (s : KState) (act : Activity)
  | panics (s : KState)
  | faults (va : Word)

/-- The entry is of a page that is not there, or not the program's. -/
def NotUsers (w : Word) : Prop := w &&& pteP = 0#32 ∨ w &&& pteU = 0#32

/-- The entry is of a page that `duppage` makes copy-on-write. -/
def WritableOrCow (w : Word) : Prop := w &&& pteW ≠ 0#32 ∨ w &&& pteCow ≠ 0#32

instance (w : Word) : Decidable (NotUsers w) := inferInstanceAs (Decidable (_ ∨ _))
instance (w : Word) : Decidable (WritableOrCow w) := inferInstanceAs (Decidable (_ ∨ _))

/-- `perm` of `duppage`. -/
def duppagePerm (pte : Word) : Word :=
  if pte &&& (ptePcd ||| ptePwt) ≠ 0#32 then pteU ||| pteP ||| (ptePcd ||| ptePwt)
  else pteU ||| pteP

/-- The page of the exception stack. -/
def exstkPage : Nat := pgnum exstk

/-- The turn of the loop of `fork` for page `pnum`, up to the call of `duppage`. -/
def pagesTurn (s : KState) (d pnum : Nat) : Option ForkPc :=
  if pnum = pnumEnd then some .exstk
  else if pnum = exstkPage then some (.pages (pnum + 1))
  else if NotUsers (uvpd s.pm d (pnum / 1024)) then some (.pages (pnum + 1))
  else
    (uvpt s.pm d pnum).map fun pte =>
      if NotUsers pte then .pages (pnum + 1) else .duppage pnum

/-- `sys_env_set_pgfault_upcall` would destroy its target. -/
def upcallDestroys (M : Machine) (s : KState) (e : Nat) (envid func : Word) : Bool :=
  match envid2env s e envid true with
  | .error _ => false
  | .ok env => upcallFails M s env func

/-- The next step of `fork` in environment `e`, which has a child. -/
def forkingTurn (M : Machine) (c : Nat) (s : KState) (e d : Nat) (envid : Word) (pc : ForkPc)
    (wrote : List Word) : Option ForkTurn :=
  let goes pc s := ForkTurn.goes s (.forking envid pc wrote)
  match pc with
  | .pages pnum =>
      match pagesTurn s d pnum with
      | none => some (.faults (uvptVa pnum))
      | some pc => some (goes pc s)
  | .duppage pnum =>
      match uvpt s.pm d pnum with
      | none => some (.faults (uvptVa pnum))
      | some pte => some (if NotUsers pte then .panics s else goes (.childMap pnum pte) s)
  | .childMap pnum pte =>
      if WritableOrCow pte then
        checkCall (sysPageMap M s e 0#32 (pnumAddr pnum) envid (pnumAddr pnum)
          (duppagePerm pte ||| pteCow)) .panics (goes (.parentMap pnum pte))
      else
        checkCall (sysPageMap M s e 0#32 (pnumAddr pnum) envid (pnumAddr pnum) (duppagePerm pte))
          .panics (goes (.pages (pnum + 1)))
  | .parentMap pnum pte =>
      checkCall (sysPageMap M s e 0#32 (pnumAddr pnum) 0#32 (pnumAddr pnum)
        (duppagePerm pte ||| pteCow)) .panics (goes (.pages (pnum + 1)))
  | .exstk =>
      checkCall (sysPageAlloc M s e envid exstk (pteU ||| pteP ||| pteW)) .panics (goes .upcall)
  | .upcall =>
      if upcallDestroys M s e envid (s.envs e).envPgfaultUpcall then none
      else
        checkCall (sysEnvSetPgfaultUpcall M s c e envid (s.envs e).envPgfaultUpcall) .panics
          (goes .status)
  | .status => checkCall (.ok (sysEnvSetStatus s e envid 2#32)) .panics (.goes · .program)

/-- The next step of `fork` in environment `e`.  `set_pgfault_handler` returns when one of
its calls fails, and `fork` goes on. -/
def forkTurn (M : Machine) (upcall : Word) (c : Nat) (s : KState) (e d : Nat) :
    Activity → Option ForkTurn
  | .program => none
  | .allocExstk =>
      let call := sysPageAlloc M s e 0#32 exstk (pteU ||| pteP ||| pteW)
      checkCall call (.goes · .exofork) (.goes · .setUpcall)
  | .setUpcall =>
      if upcallDestroys M s e 0#32 upcall then none
      else
        checkCall (sysEnvSetPgfaultUpcall M s c e 0#32 upcall) (.goes · .exofork)
          (.goes · .exofork)
  | .exofork =>
      match sysExofork M s e with
      | (r, s) =>
          some (if r < 0 then .panics s
            else .goes s (.forking (BitVec.ofInt 32 r) (.pages 0) []))
  | .forking envid pc wrote => forkingTurn M c s e d envid pc wrote

/-! ## The system -/

/-- The environment may run. -/
def Live (s : KState) (e : Nat) : Prop :=
  (s.envs e).envStatus = .runnable ∨ (s.envs e).envStatus = .running

instance (s : KState) (e : Nat) : Decidable (Live s e) := inferInstanceAs (Decidable (_ ∨ _))

/-- A store of the parent goes to the record of its `fork`. -/
def Activity.store (va : Word) : Activity → Activity
  | .forking envid pc wrote => .forking envid pc (va :: wrote)
  | act => act

/-- The state once environment `e`, at thread `t`, has taken a turn. -/
def ForkState.put (st : ForkState) (e : Nat) (s : KState) (t : Thread) : ForkState where
  kernel := s
  threads := Function.update st.threads e t

/-- A page fault of environment `e`: the frame goes to the exception stack, and `pgfault`
starts.  Without an upcall, an exception stack, or room on it there is no step. -/
def raise (M : Machine) (st : ForkState) (e d : Nat) (va : Word) (tf : Trapframe) :
    Option ForkState :=
  let s := st.kernel
  let t := st.threads e
  if (s.envs e).envPgfaultUpcall = 0#32 ∨ checkFails M s e exstk 4096#32 (pteU ||| pteW) then none
  else
    (deliver d (s.envs e).envPgfaultUpcall va s.pm tf).map fun x =>
      st.put e { s with pm := x.2 } { t with faults := ⟨va, tf.err, .check⟩ :: t.faults }

/-- The access of a program that faults: a store or a load, as the error code says. -/
def accessOf (err : Word) : Word := if err &&& fecWr ≠ 0#32 then userStore else userLoad

/-- The next step of an environment in a library function. -/
def go (M : Machine) (upcall : Word) (st : ForkState) (e d c : Nat) (tf : Trapframe) :
    Option ForkState :=
  let t := st.threads e
  match t.faults with
  | h :: rest =>
      match pgfaultTurn M st.kernel e d h with
      | none => none
      | some (.goes s pc) => some (st.put e s { t with faults := { h with pc := pc } :: rest })
      | some (.returns s) => some (st.put e s { t with faults := rest })
      | some (.panics s) => some (st.put e s { t with panicked := true })
      | some (.faults va) => raise M st e d va tf
  | [] =>
      match forkTurn M upcall c st.kernel e d t.act with
      | none => none
      | some (.goes s act) => some (st.put e s { t with act := act })
      | some (.panics s) => some (st.put e s { t with panicked := true })
      | some (.faults va) => raise M st e d va tf

/-- A step of environment `e`, with page directory `d`.  `upcall` is the address of
`_pgfault_upcall`.  A program stores anywhere, also between the steps of its `fork`; the
handler stores on its exception stack, and its copies are steps of its own. -/
def next (M : Machine) (upcall : Word) (st : ForkState) (e d : Nat) : UserEvent → Option ForkState
  | .store va b =>
      if (st.threads e).faults = [] ∧ va < utop then
        (storeByte st.kernel.pm d userStore va b).map fun m =>
          st.put e { st.kernel with pm := m }
            { st.threads e with act := (st.threads e).act.store va }
      else none
  | .stackStore va b =>
      if (st.threads e).faults ≠ [] ∧ pgnum va = exstkPage then
        (storeByte st.kernel.pm d userStore va b).map fun m =>
          st.put e { st.kernel with pm := m } (st.threads e)
      else none
  | .fault va tf =>
      if (st.threads e).faults = [] ∧
          (va < utop → translate st.kernel.pm d (accessOf tf.err) va = none) then
        raise M st e d va tf
      else none
  | .fork first =>
      if (st.threads e).faults = [] ∧ (st.threads e).act = .program then
        some (st.put e st.kernel
          { st.threads e with act := if first then .allocExstk else .exofork })
      else none
  | .go c tf => go M upcall st e d c tf

/-- The programs of the environments that boot creates, and of their children. -/
def forkSystem (M : Machine) (K : Nat → Prop) (upcall : Word) :
    TransitionSystem ForkState (Nat × UserEvent) where
  init st := Initialised M K st.kernel ∧ ∀ e, st.threads e = Thread.start
  step st ev st' := Live st.kernel ev.1 ∧ (st.threads ev.1).panicked = false ∧
    ∃ d, st.kernel.dirs ev.1 = some d ∧ next M upcall st ev.1 d ev.2 = some st'

end Jos
end Sisop

import Sisop.Lib.Monitor
import Sisop.Jos.Dying
import Sisop.Jos.Recving

/-!
# Delivery of messages

A receive is two steps of the receiver, the call of `sys_ipc_recv` and the return
from it, with the send of another environment between them.  The record of a run
keeps, for each environment, the receive it has made since it last ran and the
messages that sends which returned 0 have sent it since.

The comment of `sys_ipc_try_send` says that `env_ipc_perm` is 0 if no page was
transferred.  The code writes it when no page is offered and when one is mapped.  A
page that is offered to a receiver that asks for none leaves the permission of an
earlier message.
-/

namespace Sisop
namespace Jos

open TransitionSystem Exit

/-- What a send that returned 0 sent. -/
structure Message where
  sender : Word
  value : Word
  perm : Word

/-- The receive an environment has made and not yet followed by another trap, with
the messages sent to it since then. -/
structure Mail where
  receiving : Option Word
  messages : List Message

def Mail.idle : Mail := ⟨none, []⟩

/-- The permission of the page a send maps at the receiver's address, and 0 if it maps
none. -/
def grantedPerm (s : KState) (dst : Nat) (srcva perm : Word) : Word :=
  if srcva < utop ∧ (s.envs dst).envIpcDstva ≠ 0#32 then perm ||| pteU ||| pteP else 0#32

def messageOf (s : KState) (cur dst : Nat) (tf : Trapframe) : Message :=
  { sender := (s.envs cur).envId
    value := tf.regs.ecx
    perm := grantedPerm s dst tf.regs.ebx tf.regs.edi }

/-- The target of a `sys_ipc_try_send` that returns 0. -/
def sentTo (M : Machine) (s : KState) (cur : Nat) (tf : Trapframe) (inp : Inputs) : Option Nat :=
  if tf.trapno = tSyscall ∧ sysno tf.regs.eax = some .ipcTrySend then
    match sysIpcTrySend M s cur tf.regs.edx tf.regs.ecx tf.regs.ebx tf.regs.edi inp.junk with
    | .ok (r, _) => if r = 0 then (envid2env s cur tf.regs.edx false).toOption else none
    | .error _ => none
  else none

/-- What a call of `cur` adds to the record: a receive, if its address is one
`sys_ipc_recv` takes, or a message. -/
def recordCall (M : Machine) (s : KState) (cur : Nat) (tf : Trapframe) (inp : Inputs)
    (r : Nat → Mail) : Nat → Mail :=
  match recvVa tf with
  | some va => if badVa va then r else Function.update r cur ⟨some va, []⟩
  | none =>
      match sentTo M s cur tf inp with
      | some dst =>
          Function.update r dst
            ⟨(r dst).receiving, (r dst).messages ++ [messageOf s cur dst tf]⟩
      | none => r

/-- An environment that traps has run, and its record starts anew. -/
def recordTrap (M : Machine) (s : KState) : Event → (Nat → Mail) → Nat → Mail
  | .trap c tf inp, r =>
      match s.curenv c with
      | some cur =>
          if (s.envs cur).envStatus = .dying then r
          else recordCall M (trapState s c cur tf) cur tf inp (Function.update r cur .idle)
      | none => r
  | _, r => r

/-- The record after a step.  That of an environment that is freed is dropped. -/
def observeMail (M : Machine) (s : KState) (ev : Event) (s' : KState) (r : Nat → Mail) :
    Nat → Mail :=
  fun e => if (s'.envs e).envStatus = .free then .idle else recordTrap M s ev r e

/-- The kernel with the record of its messages. -/
def mailSystem (M : Machine) (K : Nat → Prop) : TransitionSystem (KState × (Nat → Mail)) Event :=
  (kernel M K).monitored (fun _ => Mail.idle) (observeMail M)

/-- The fields of an environment show a message, and its receive returns 0. -/
structure Shows (env : Env) (msg : Message) : Prop where
  value : env.envIpcValue = msg.value
  sender : env.envIpcFrom = msg.sender
  perm : env.envIpcPerm = msg.perm
  eax : env.envTf.regs.eax = 0#32

/-- Every message that was sent is the only one for one receive of its target, whose
fields show it until the target traps again, and a receive that has returned has a
message. -/
structure Delivery (s : KState) (r : Nat → Mail) : Prop where
  once : ∀ e, (r e).messages ≠ [] →
    ∃ va msg, r e = ⟨some va, [msg]⟩ ∧ Shows (s.envs e) msg
  answered : ∀ c e, s.curenv c = some e → (r e).receiving ≠ none → (r e).messages ≠ []

/-- No page is offered to a receiver that asks for none and still has the permission
of an earlier one. -/
def ClearsPerm (s : KState) : Event → Prop
  | .trap c tf _ => ∀ cur, s.curenv c = some cur → (s.envs cur).envStatus ≠ .dying →
      ∀ dst, sendsTo (trapState s c cur tf) cur tf = some dst → tf.regs.ebx < utop →
        (s.envs dst).envIpcDstva = 0#32 → (s.envs dst).envIpcPerm = 0#32
  | _ => True

/-- What the record of an environment says of its fields. -/
inductive Holds (env : Env) : Mail → Prop
  | free (h : env.envStatus = .free) : Holds env .idle
  | idle (h : env.envIpcRecving = false) : Holds env .idle
  | waiting {va : Word} (hst : env.envStatus ≠ .free) (h : env.envIpcRecving = true)
      (hva : env.envIpcDstva = va) : Holds env ⟨some va, []⟩
  | answered {va : Word} {msg : Message} (hst : env.envStatus ≠ .free)
      (h : env.envIpcRecving = false) (hs : Shows env msg) : Holds env ⟨some va, [msg]⟩

/-- The fields of a message and of the wait for it are the same. -/
structure SameMail (env env' : Env) : Prop where
  recving : env'.envIpcRecving = env.envIpcRecving
  dstva : env'.envIpcDstva = env.envIpcDstva
  value : env'.envIpcValue = env.envIpcValue
  sender : env'.envIpcFrom = env.envIpcFrom
  perm : env'.envIpcPerm = env.envIpcPerm
  eax : env'.envTf.regs.eax = env.envTf.regs.eax

/-- An environment keeps the fields of its message, or is freed, or is taken from the
free list. -/
def Moves (env env' : Env) : Prop :=
  env'.envStatus ≠ .free → env.envStatus = .free ∧ env'.envIpcRecving = false ∨
    env.envStatus ≠ .free ∧ SameMail env env'

/-- The record of a run holds of a state. -/
def MailInv (s : KState) (r : Nat → Mail) : Prop := ∀ e, Holds (s.envs e) (r e)

section

variable {M : Machine} {K : Nat → Prop} {s s₁ s₂ s' : KState} {c cur e : Nat} {tf : Trapframe}
  {inp : Inputs} {fault : Prop} {env env' : Env} {mail : Mail} {r : Nat → Mail}

theorem SameMail.refl (env : Env) : SameMail env env := ⟨rfl, rfl, rfl, rfl, rfl, rfl⟩

theorem SameMail.trans {env₁ env₂ env₃ : Env} (h : SameMail env₁ env₂) (h' : SameMail env₂ env₃) :
    SameMail env₁ env₃ :=
  ⟨h'.recving.trans h.recving, h'.dstva.trans h.dstva, h'.value.trans h.value,
    h'.sender.trans h.sender, h'.perm.trans h.perm, h'.eax.trans h.eax⟩

namespace Holds

theorem of_free (h : Holds env mail) (hst : env.envStatus = .free) : mail = .idle := by
  cases h with
  | free _ => rfl
  | idle _ => rfl
  | waiting hlive _ _ => exact absurd hst hlive
  | answered hlive _ _ => exact absurd hst hlive

theorem same (h : Holds env mail) (hsame : SameMail env env') (hst : env.envStatus ≠ .free)
    (hst' : env'.envStatus ≠ .free) : Holds env' mail := by
  cases h with
  | free hfree => exact absurd hfree hst
  | idle hno => exact .idle (hsame.recving.trans hno)
  | waiting _ hrecv hva => exact .waiting hst' (hsame.recving.trans hrecv) (hsame.dstva.trans hva)
  | answered _ hno hs =>
      exact .answered hst' (hsame.recving.trans hno)
        ⟨hsame.value.trans hs.value, hsame.sender.trans hs.sender, hsame.perm.trans hs.perm,
          hsame.eax.trans hs.eax⟩

/-- An environment that waits has no message yet. -/
theorem of_recving (h : Holds env mail) (hst : env.envStatus ≠ .free)
    (hrecv : env.envIpcRecving = true) : ∃ va, mail = ⟨some va, []⟩ := by
  cases h with
  | free hfree => exact absurd hfree hst
  | idle hno => exact absurd (hno.symm.trans hrecv) Bool.false_ne_true
  | waiting _ _ _ => exact ⟨_, rfl⟩
  | answered _ hno _ => exact absurd (hno.symm.trans hrecv) Bool.false_ne_true

end Holds

/-! ## What leaves the fields of a message alone -/

theorem Tweaked.sameMail (h : Tweaked s s') (x : Nat) : SameMail (s.envs x) (s'.envs x) := by
  obtain ⟨p, henv⟩ := h.envs x
  rw [henv]
  exact ⟨rfl, rfl, rfl, rfl, rfl, rfl⟩

theorem Resched.sameMail (hr : Resched M c fault s s') (x : Nat) :
    SameMail (s.envs x) (s'.envs x) := by
  cases hr with
  | @run s₁ e d ht he hr =>
      refine (ht.sameMail x).trans ?_
      by_cases hx : x = e
      · subst hx
        rw [hr.self]
        exact ⟨rfl, rfl, rfl, rfl, rfl, rfl⟩
      · rw [hr.other x hx]
        split
        · exact ⟨rfl, rfl, rfl, rfl, rfl, rfl⟩
        · exact .refl _
  | halt ht _ hh =>
      rw [hh.envs]
      exact ht.sameMail x

theorem Quiet.sameMail (hq : Quiet cur s s') {x : Nat} (hx : x ≠ cur) :
    SameMail (s.envs x) (s'.envs x) := by
  obtain ⟨tf, u, henv, htf⟩ := hq.envs x
  rw [henv]
  refine ⟨rfl, rfl, rfl, rfl, rfl, ?_⟩
  rw [htf hx]

theorem trapState_of_ne (s : KState) (c : Nat) (tf : Trapframe) {x : Nat} (hx : x ≠ cur) :
    (trapState s c cur tf).envs x = s.envs x := by
  rw [trapState, saveTf, KState.envs_setEnv_of_ne _ _ _ _ hx]
  rfl

theorem setEnv_sameMail {f : Env → Env} (hf : SameMail (s.envs e) (f (s.envs e))) (x : Nat) :
    SameMail (s.envs x) ((s.setEnv e f).envs x) := by
  rw [KState.envs_setEnv]
  split
  · rename_i hx
    rw [hx]
    exact hf
  · exact .refl _

theorem Moves.same (h : Moves env env') {env'' : Env} (hsame : SameMail env' env'')
    (hst : env''.envStatus ≠ .free → env'.envStatus ≠ .free) : Moves env env'' := by
  intro hst''
  rcases h (hst hst'') with ⟨hfree, hno⟩ | ⟨hlive, hkeep⟩
  · exact .inl ⟨hfree, hsame.recving.trans hno⟩
  · exact .inr ⟨hlive, hkeep.trans hsame⟩

theorem Holds.moves (h : Holds env mail) (hmove : Moves env env')
    (hst' : env'.envStatus ≠ .free) : Holds env' mail := by
  rcases hmove hst' with ⟨hfree, hno⟩ | ⟨hlive, hsame⟩
  · rw [h.of_free hfree]
    exact .idle hno
  · exact h.same hsame hlive hst'

theorem SameMail.moves (h : SameMail env env') (hst : env'.envStatus = env.envStatus) :
    Moves env env' := by
  intro hst'
  rw [hst] at hst'
  exact .inr ⟨hst', h⟩

/-- An entry that neither sends nor receives moves the other environments. -/
theorem Act.moves (ha : Act M c cur tf s s') (hsend : sendsTo s cur tf = .none)
    (hrecv : recvVa tf = .none) (hfree : ∀ x, s.envFreeList = some x → (s.envs x).envStatus = .free)
    {x : Nat} (hx : x ≠ cur) : Moves (s.envs x) (s'.envs x) := by
  cases ha with
  | none _ => exact (SameMail.refl _).moves rfl
  | @fork e s₁ _ halloc =>
      by_cases he : x = e
      · obtain ⟨d, hself⟩ := halloc.self
        rw [he, forked, KState.envs_setEnv_self, hself]
        exact fun _ => .inl ⟨hfree e halloc.head, rfl⟩
      · rw [forked, KState.envs_setEnv_of_ne _ _ _ _ he, halloc.other x he]
        exact (SameMail.refl _).moves rfl
  | @setStatus e st hset =>
      refine fun hst' => .inr ⟨?_, setEnv_sameMail ⟨rfl, rfl, rfl, rfl, rfl, rfl⟩ x⟩
      by_cases he : x = e
      · rw [he]
        exact (setsStatus_ok hset).resolve_left fun hcur => hx (he.trans hcur)
      · rw [KState.setStatus, KState.envs_setEnv_of_ne _ _ _ _ he] at hst'
        exact hst'
  | @setPriority e p _ _ =>
      obtain ⟨p', henv⟩ := (prioritized_tweaked s e p).envs x
      exact ((prioritized_tweaked s e p).sameMail x).moves (by rw [henv])
  | @dying e _ hrun _ =>
      refine fun hst' => .inr ⟨?_, setEnv_sameMail ⟨rfl, rfl, rfl, rfl, rfl, rfl⟩ x⟩
      by_cases he : x = e
      · rw [he, hrun]
        decide
      · rw [KState.setStatus, KState.envs_setEnv_of_ne _ _ _ _ he] at hst'
        exact hst'
  | @free e _ _ _ _ hf =>
      by_cases he : x = e
      · rw [he, hf.self]
        exact fun hst' => absurd rfl hst'
      · rw [hf.other x he]
        exact (SameMail.refl _).moves rfl
  | exit _ hf =>
      rw [KState.envs_setCurenv, hf.other x hx]
      exact (SameMail.refl _).moves rfl
  | send hto => rw [hsend] at hto; cases hto
  | recvFail hva _ => rw [hrecv] at hva; cases hva

/-! ## The two calls -/

theorem withPm_stuck (s : KState) (x : Except String (Int × PMap)) :
    Post (withPm s x) (fun _ => True) Stuck := by
  cases x with
  | error msg => exact post_error.mpr stuck_panic
  | ok x => exact post_ok.mpr trivial

theorem sysIpcTrySend_stuck (s : KState) (cur : Nat) (envid value srcva perm : Word)
    (junk : Option Word) :
    Post (sysIpcTrySend M s cur envid value srcva perm junk) (fun _ => True) Stuck := by
  unfold sysIpcTrySend
  cases envid2env s cur envid false with
  | error r => exact post_ok.mpr trivial
  | ok dst =>
      dsimp only
      split
      · exact post_ok.mpr trivial
      · split
        · exact post_ok.mpr trivial
        · split
          · exact post_ok.mpr trivial
          · have hread : Post (ipcSrcpte M s cur srcva junk) (fun _ => True) Stuck := by
              unfold ipcSrcpte
              refine (panics_stuck _).bind fun x _ => ?_
              cases x with
              | some x => exact post_pure.mpr trivial
              | none =>
                  cases junk with
                  | none => exact post_error.mpr stuck_panic
                  | some w => exact post_pure.mpr trivial
            have hmap : Post (ipcTransfer M s cur dst srcva (perm ||| pteU ||| pteP))
                (fun _ => True) Stuck := by
              unfold ipcTransfer
              refine (withPm_stuck s _).bind fun x _ => ?_
              dsimp only
              split
              · exact post_pure.mpr trivial
              · exact withPm_stuck _ _
            refine hread.bind fun srcpte _ => ?_
            split
            · exact post_pure.mpr trivial
            · split
              · exact post_pure.mpr trivial
              · split
                · exact post_pure.mpr trivial
                · refine hmap.bind fun x _ => ?_
                  split
                  · exact post_pure.mpr trivial
                  · exact post_pure.mpr trivial

/-- A trap into `sys_ipc_try_send`: the call returns, and `trap` goes on. -/
theorem trap_send (hc : s.curenv c = some cur) (hst : (s.envs cur).envStatus ≠ .dying)
    (hno : tf.trapno = tSyscall) (hsys : sysno tf.regs.eax = some .ipcTrySend)
    (h : trap M s c tf inp = .left s') :
    ∃ r s₁, sysIpcTrySend M (trapState s c cur tf) cur tf.regs.edx tf.regs.ecx tf.regs.ebx
        tf.regs.edi inp.junk = .ok (r, s₁) ∧
      Sent cur tf (trapState s c cur tf) (r, s₁) ∧ Leaves M c False (setEax s₁ cur r) s' := by
  have hspec := @sysIpcTrySend_spec M (trapState s c cur tf) c cur tf hno hsys inp.junk
  have hstuck := @sysIpcTrySend_stuck M (trapState s c cur tf) cur tf.regs.edx tf.regs.ecx
    tf.regs.ebx tf.regs.edi inp.junk
  rw [trap_syscall hc hst hno] at h
  unfold syscall at h
  rw [hsys] at h
  dsimp only at h
  cases hx : sysIpcTrySend M (trapState s c cur tf) cur tf.regs.edx tf.regs.ecx tf.regs.ebx
      tf.regs.edi inp.junk with
  | error stop =>
      rw [hx] at h
      exact absurd h (hstuck.exit hx s')
  | ok y =>
      rw [hx] at h
      exact ⟨y.1, y.2, rfl, hspec.value hx, leaves_return h⟩

/-- A trap into `sys_ipc_recv` with an address it takes. -/
theorem trap_recv {va : Word} (hc : s.curenv c = some cur)
    (hst : (s.envs cur).envStatus ≠ .dying) (hva : recvVa tf = some va) (hgood : ¬ badVa va)
    (h : trap M s c tf inp = .left s') :
    Leaves M c False (received (trapState s c cur tf) cur va) s' := by
  unfold recvVa at hva
  split at hva
  · rename_i hcall
    cases hva
    rw [trap_syscall hc hst hcall.1] at h
    unfold syscall sysIpcRecv at h
    rw [hcall.2] at h
    dsimp only at h
    rw [if_neg hgood] at h
    have hset : (((trapState s c cur tf).setEnv cur fun env =>
        { env with envIpcRecving := true }).setEnv cur fun env =>
          { env with envIpcDstva := tf.regs.edx, envStatus := .notRunnable }) =
        received (trapState s c cur tf) cur tf.regs.edx := by
      simp [KState.setEnv, received]
    rw [hset] at h
    exact .yield h
  · cases hva

/-! ## Steps -/

theorem MailInv.of_live {ev : Event} (h : ∀ e, (s'.envs e).envStatus ≠ .free →
    Holds (s'.envs e) (recordTrap M s ev r e)) : MailInv s' (observeMail M s ev s' r) := by
  intro e
  unfold observeMail
  by_cases hst : (s'.envs e).envStatus = .free
  · rw [if_pos hst]
    exact .free hst
  · rw [if_neg hst]
    exact h e hst

theorem Resched.moves (hr : Resched M c fault s s') (hnext : fault → ∀ x, s.curenv c = some x →
    (s.envs x).envStatus ≠ .free) (h : Moves env (s.envs e)) : Moves env (s'.envs e) :=
  h.same (hr.sameMail e) fun hst hfree => hst ((hr.free_iff hnext e).mpr hfree)

/-- A step without a trap of a live environment. -/
theorem MailInv.of_moves (h : MailInv s r) {ev : Event} (hrec : recordTrap M s ev r = r)
    (hmove : ∀ e, Moves (s.envs e) (s'.envs e)) : MailInv s' (observeMail M s ev s' r) := by
  refine .of_live fun e hst => ?_
  rw [hrec]
  exact (h e).moves (hmove e) hst

theorem sentTo_none (hsend : sendsTo s cur tf = none) : sentTo M s cur tf inp = none := by
  unfold sentTo
  split
  · rename_i hcall
    have hspec := @sysIpcTrySend_spec M s 0 cur tf hcall.1 hcall.2 inp.junk
    cases hx : sysIpcTrySend M s cur tf.regs.edx tf.regs.ecx tf.regs.ebx tf.regs.edi inp.junk with
    | error stop => rfl
    | ok y =>
        dsimp only
        rcases hspec.value hx with ⟨hneg, _⟩ | ⟨_, dst, m, hto, _⟩
        · rw [if_neg (by omega)]
        · rw [hsend] at hto
          cases hto
  · rfl

/-- A trap that neither sends nor receives. -/
theorem MailInv.other (h : MailInv s r) (hb : BaseInv M K s) (hs : SoloInv s) (hrecv : RecvInv s)
    (hok : Receives M s (.trap c tf inp)) (hc : s.curenv c = some cur)
    (hst : (s.envs cur).envStatus ≠ .dying)
    (hsend : sendsTo (trapState s c cur tf) cur tf = none) (hva : recvVa tf = none)
    (hbody : Body M c cur tf (trapState s c cur tf) s₂)
    (hr : Resched M c (tf.trapno = tPgflt) s₂ s') :
    MailInv s' (observeMail M s (.trap c tf inp) s' r) := by
  have hin := hs.trap_body (hrecv.handsOff hs hok) hc hst hbody
  have hno : ((trapState s c cur tf).envs cur).envIpcRecving = false :=
    (trapState_recving s c cur cur tf).trans (hrecv.current hs hc)
  cases hbody with
  | recv hva' _ =>
      rw [hva] at hva'
      cases hva'
  | @act s₁ _ ha hq =>
      refine .of_live fun x hst' => ?_
      have hrec : recordTrap M s (.trap c tf inp) r = Function.update r cur .idle := by
        simp only [recordTrap, hc, if_neg hst, recordCall, hva, sentTo_none hsend]
      rw [hrec]
      have hlive₂ : (s₂.envs x).envStatus ≠ .free := fun hfree =>
        hst' ((hr.free_iff (fun _ y hy => (hin.self y hy).2) x).mpr hfree)
      by_cases hx : x = cur
      · subst hx
        rw [Function.update_self]
        obtain ⟨hset, hrun, -⟩ := hok x hc hst
        have hcur := ((hrecv.trapState hs hc tf).act hno hset
          (fun e he => by
            rw [trapState_recving]
            exact (hrun e he).2) ha).2
        obtain ⟨tf', u, henv, -⟩ := hq.envs x
        refine .idle ((hr.sameMail x).recving.trans ?_)
        rw [henv] at hlive₂ ⊢
        exact hcur.resolve_left fun hfree => hlive₂ hfree.1
      · rw [Function.update_of_ne hx]
        have hfree : ∀ y, (trapState s c cur tf).envFreeList = some y →
            ((trapState s c cur tf).envs y).envStatus = .free := by
          intro y hy
          rw [trapState_status]
          exact (hb.head_free hy).2
        have hmove := ha.moves hsend hva hfree hx
        rw [trapState_of_ne s c tf hx] at hmove
        refine (h x).moves ((hmove.same (hq.sameMail hx) fun hst₂ hfree₁ => hst₂ ?_).same
          (hr.sameMail x) fun _ => hlive₂) hst'
        rw [hq.envStatus]
        exact hfree₁

/-- A `sys_ipc_recv` that waits. -/
theorem MailInv.recv (h : MailInv s r) {va : Word} (hc : s.curenv c = some cur)
    (hst : (s.envs cur).envStatus ≠ .dying) (hva : recvVa tf = some va) (hgood : ¬ badVa va)
    (hr : Resched M c False (received (trapState s c cur tf) cur va) s') :
    MailInv s' (observeMail M s (.trap c tf inp) s' r) := by
  refine .of_live fun x hst' => ?_
  have hrec : recordTrap M s (.trap c tf inp) r =
      Function.update (Function.update r cur .idle) cur ⟨some va, []⟩ := by
    simp only [recordTrap, hc, if_neg hst, recordCall, hva, if_neg hgood]
  rw [hrec]
  have hsame := hr.sameMail x
  by_cases hx : x = cur
  · subst hx
    rw [Function.update_self]
    rw [received, KState.envs_setEnv_self] at hsame
    exact .waiting hst' hsame.recving hsame.dstva
  · have hmove : Moves (s.envs x) (s'.envs x) := by
      refine hr.moves False.elim (SameMail.moves ?_ ?_)
      · rw [received, KState.envs_setEnv_of_ne _ _ _ _ hx, trapState_of_ne s c tf hx]
        exact .refl _
      · rw [received, KState.envs_setEnv_of_ne _ _ _ _ hx, trapState_of_ne s c tf hx]
    rw [Function.update_of_ne hx, Function.update_of_ne hx]
    exact (h x).moves hmove hst'

/-- Without a page offered in vain after another was mapped, `env_ipc_perm` is the permission
granted. -/
theorem sentPerm_eq {dst : Nat} {srcva : Word} (perm : Word) (hclear : srcva < utop →
    (s.envs dst).envIpcDstva = 0#32 → (s.envs dst).envIpcPerm = 0#32) :
    sentPerm s dst srcva perm = grantedPerm s dst srcva perm := by
  unfold sentPerm grantedPerm
  by_cases htop : utop ≤ srcva
  · rw [if_pos htop, if_neg fun hx => absurd hx.1 (BitVec.not_lt.mpr htop)]
  · rw [if_neg htop]
    have hlow := BitVec.not_le.mp htop
    by_cases hva : (s.envs dst).envIpcDstva = 0#32
    · rw [if_pos hva, if_neg fun hx => hx.2 hva]
      exact hclear hlow hva
    · rw [if_neg hva, if_pos ⟨hlow, hva⟩]

theorem sendsTo_target (h : sendsTo s cur tf = some e) :
    envid2env s cur tf.regs.edx false = .ok e := by
  unfold sendsTo at h
  split at h
  · split at h
    · rename_i he
      split at h
      · cases h
        exact he
      · cases h
    · cases h
  · cases h

/-- A `sys_ipc_try_send`. -/
theorem MailInv.send (h : MailInv s r) (hs : SoloInv s) (hrecv : RecvInv s)
    (hclear : ClearsPerm s (.trap c tf inp)) (hc : s.curenv c = some cur)
    (hst : (s.envs cur).envStatus ≠ .dying) (hno : tf.trapno = tSyscall)
    (hsys : sysno tf.regs.eax = some .ipcTrySend) (hleft : trap M s c tf inp = .left s') :
    MailInv s' (observeMail M s (.trap c tf inp) s' r) := by
  obtain ⟨ret, s₁, hcall, hsent, hl⟩ := trap_send hc hst hno hsys hleft
  have hr := hl.resched
  have hva : recvVa tf = none := by
    unfold recvVa
    rw [if_neg]
    rintro ⟨_, hsys'⟩
    rw [hsys] at hsys'
    cases hsys'
  have hidle : ((trapState s c cur tf).envs cur).envIpcRecving = false :=
    (trapState_recving s c cur cur tf).trans (hrecv.current hs hc)
  have hto : sentTo M (trapState s c cur tf) cur tf inp = if ret = 0 then
      (envid2env (trapState s c cur tf) cur tf.regs.edx false).toOption else none := by
    unfold sentTo
    rw [if_pos ⟨hno, hsys⟩, hcall]
  -- What the return of the call does to environments but the receiver.
  have hquiet : ∀ x, x ≠ cur → Moves (s₁.envs x) (s'.envs x) := by
    intro x hx
    refine hr.moves False.elim (SameMail.moves ?_ ?_)
    · rw [setEax, KState.envs_setEnv_of_ne _ _ _ _ hx]
      exact .refl _
    · rw [setEax, KState.envs_setEnv_of_ne _ _ _ _ hx]
  have hself : (s₁.envs cur).envIpcRecving = false → Holds (s'.envs cur) .idle := by
    intro hno
    refine .idle ((hr.sameMail cur).recving.trans ?_)
    rw [setEax, KState.envs_setEnv_self]
    exact hno
  refine .of_live fun x hst' => ?_
  rcases hsent with ⟨hneg, m, hm⟩ | ⟨hzero, dst, m, hdst, hm⟩
  · -- The send fails.
    have hrec : recordTrap M s (.trap c tf inp) r = Function.update r cur .idle := by
      have hne : ret ≠ 0 := Int.ne_of_lt hneg
      simp only [recordTrap, hc, if_neg hst, recordCall, hva, hto, if_neg hne]
    have henvs : s₁.envs = (trapState s c cur tf).envs := by
      rw [show s₁ = _ from hm]
    rw [hrec]
    by_cases hx : x = cur
    · rw [hx, Function.update_self]
      exact hself (by rw [henvs]; exact hidle)
    · rw [Function.update_of_ne hx]
      have hmove := hquiet x hx
      rw [henvs, trapState_of_ne s c tf hx] at hmove
      exact (h x).moves hmove hst'
  · -- The message is delivered.
    obtain ⟨hlive, hwait⟩ := sendsTo_ok hdst
    have hne : dst ≠ cur := by
      rintro rfl
      exact Bool.false_ne_true (hidle.symm.trans hwait)
    have hzero : ret = 0 := hzero
    have hrec : recordTrap M s (.trap c tf inp) r =
        Function.update (Function.update r cur .idle) dst ⟨(r dst).receiving,
          (r dst).messages ++ [messageOf (trapState s c cur tf) cur dst tf]⟩ := by
      rw [if_pos hzero, sendsTo_target hdst] at hto
      simp only [recordTrap, hc, if_neg hst, recordCall, hva, hto, Except.toOption,
        Function.update_of_ne hne]
    have henvs : s₁.envs = (delivered (trapState s c cur tf) cur dst tf.regs.ecx
        (sentPerm (trapState s c cur tf) dst tf.regs.ebx tf.regs.edi)).envs := by
      rw [show s₁ = _ from hm]
    rw [hrec]
    by_cases hxd : x = dst
    · subst hxd
      rw [Function.update_self]
      have hlive' : (s.envs x).envStatus ≠ .free := by
        rw [trapState_status] at hlive
        exact hlive.resolve_left hne
      have hwait' : (s.envs x).envIpcRecving = true := by
        rw [← trapState_recving s c cur x tf]
        exact hwait
      obtain ⟨va, hr₀⟩ := (h x).of_recving hlive' hwait'
      have hsame := hr.sameMail x
      rw [setEax, KState.envs_setEnv_of_ne _ _ _ _ hne, henvs, envs_delivered_self] at hsame
      have hperm : sentPerm (trapState s c cur tf) x tf.regs.ebx tf.regs.edi =
          grantedPerm (trapState s c cur tf) x tf.regs.ebx tf.regs.edi := by
        refine sentPerm_eq tf.regs.edi fun hlow hva => ?_
        rw [trapState_of_ne s c tf hne] at hva ⊢
        exact hclear cur hc hst x hdst hlow hva
      rw [hr₀]
      exact .answered hst' hsame.recving
        ⟨hsame.value, hsame.sender, hsame.perm.trans hperm, hsame.eax⟩
    · rw [Function.update_of_ne hxd]
      by_cases hx : x = cur
      · rw [hx, Function.update_self]
        refine hself ?_
        rw [henvs, envs_delivered_of_ne hne.symm]
        exact hidle
      · rw [Function.update_of_ne hx]
        have hmove := hquiet x hx
        rw [henvs, envs_delivered_of_ne hxd, trapState_of_ne s c tf hx] at hmove
        exact (h x).moves hmove hst'

/-- The record holds after every step. -/
theorem MailInv.step (h : MailInv s r) (hb : BaseInv M K s) (hs : SoloInv s) (hrecv : RecvInv s)
    {ev : Event} (hok : Receives M s ev) (hclear : ClearsPerm s ev)
    (hleft : ev.outcome M s = .left s') (he : Entry M s ev s') :
    MailInv s' (observeMail M s ev s' r) := by
  cases he with
  | @create elf e s₁ s' ha hq =>
      refine h.of_moves rfl fun x => ?_
      obtain ⟨tf, u, henv, htf⟩ := hq.envs x
      by_cases hx : x = e
      · obtain ⟨d, hself⟩ := ha.self
        refine fun _ => .inl ⟨?_, ?_⟩
        · rw [hx]
          exact (hb.head_free ha.head).2
        · rw [henv, hx, hself]
      · have hsame := hq.sameMail hx
        rw [ha.other x hx] at hsame
        exact hsame.moves (by rw [hq.envStatus, ha.other x hx])
  | start hc hr =>
      exact h.of_moves rfl fun x => hr.resched.moves False.elim ((SameMail.refl _).moves rfl)
  | wake hc hr =>
      exact h.of_moves rfl fun x => hr.resched.moves False.elim ((SameMail.refl _).moves rfl)
  | @collect c cur tf inp s₁ s' hc hst hf hr =>
      refine h.of_moves (by simp only [recordTrap, hc, if_pos hst]) fun x => ?_
      refine hr.resched.moves False.elim ?_
      rw [KState.envs_setCurenv]
      by_cases hx : x = cur
      · rw [hx, hf.self]
        exact fun hlive => absurd rfl hlive
      · rw [hf.other x hx]
        exact (SameMail.refl _).moves rfl
  | @trap c cur tf inp s₂ s' hc hst hbody hr =>
      cases hva : recvVa tf with
      | some va =>
          have hgood := (hok cur hc hst).1 va hva
          exact h.recv hc hst hva hgood (trap_recv hc hst hva hgood hleft).resched
      | none =>
          by_cases hcall : tf.trapno = tSyscall ∧ sysno tf.regs.eax = some .ipcTrySend
          · exact h.send hs hrecv hclear hc hst hcall.1 hcall.2 hleft
          · exact h.other hb hs hrecv hok hc hst (if_neg hcall) hva hbody hr.resched
  | store m => exact h.of_moves rfl fun x => (SameMail.refl _).moves rfl

theorem MailInv.delivery (h : MailInv s r) (hs : SoloInv s) (hrecv : RecvInv s) :
    Delivery s r := by
  refine ⟨fun e hne => ?_, fun c e hc hopen hnone => ?_⟩
  · have he := h e
    generalize r e = mail at he hne
    cases he with
    | free _ => exact absurd rfl hne
    | idle _ => exact absurd rfl hne
    | waiting _ _ _ => exact absurd rfl hne
    | answered _ _ hshow => exact ⟨_, _, rfl, hshow⟩
  · have he := h e
    generalize r e = mail at he hopen hnone
    cases he with
    | free _ => exact hopen rfl
    | idle _ => exact hopen rfl
    | waiting _ hwait _ => exact Bool.false_ne_true ((hrecv.current hs hc).symm.trans hwait)
    | answered _ _ _ => cases hnone

/-! ## Runs -/

theorem Booted.mailInv (h : Booted M K s) : MailInv s fun _ => .idle := by
  intro e
  obtain ⟨envs, _, henvs⟩ := h.envs
  rw [henvs]
  exact .free rfl

end

/-- Every message that is sent is delivered to one receive and shown by the fields of its
target until it traps again, in every run whose receives are valid, which makes no
waiting environment runnable but by a send, and which offers no page in vain to an
environment that still has the permission of an earlier one. -/
theorem delivery_of_reach {M : Machine} {K : Nat → Prop} {x : KState × (Nat → Mail)}
    (h : (mailSystem M K).Reach (fun x ev => Fits x.1 ev ∧ Receives M x.1 ev ∧
      ClearsPerm x.1 ev) x) : Delivery x.1 x.2 := by
  have hinv : (BaseInv M K x.1 ∧ SoloInv x.1 ∧ RecvInv x.1) ∧ MailInv x.1 x.2 := by
    refine h.invariant (P := fun x => (BaseInv M K x.1 ∧ SoloInv x.1 ∧ RecvInv x.1) ∧
      MailInv x.1 x.2) (fun x hx => ?_) fun x ev x' hx hok hstep => ?_
    · obtain ⟨hboot, hrec⟩ := hx
      refine ⟨⟨Booted.base hboot, Booted.solo hboot, Booted.recvInv hboot⟩, ?_⟩
      rw [hrec]
      exact Booted.mailInv hboot
    · obtain ⟨⟨hb, hs, hrecv⟩, hmail⟩ := hx
      obtain ⟨hfits, hreceives, hclear⟩ := hok
      obtain ⟨hkernel, hrec⟩ := hstep
      have hown := hs.freesOwn (hrecv.handsOff hs hreceives)
      obtain ⟨hleft, hentry⟩ := entry_of_step hb hfits hown hkernel
      refine ⟨recv_step ⟨hb, hs, hrecv⟩ hfits hreceives hkernel, ?_⟩
      rw [hrec]
      exact hmail.step hb hs hrecv hreceives hclear hleft hentry
  obtain ⟨⟨_, hs, hrecv⟩, hmail⟩ := hinv
  exact hmail.delivery hs hrecv

/-- A send that returns 0 is recorded with its target. -/
theorem reach_sent {M : Machine} {K : Nat → Prop} {guard : KState → Event → Prop} {s s' : KState}
    {c cur dst : Nat} {tf : Trapframe} {inp : Inputs} (hreach : (kernel M K).Reach guard s)
    (ok : guard s (.trap c tf inp)) (hexec : exec M s (.trap c tf inp) = some s')
    (hc : s.curenv c = some cur) (hst : (s.envs cur).envStatus ≠ .dying)
    (hva : recvVa tf = none) (hto : sentTo M (trapState s c cur tf) cur tf inp = some dst)
    (hne : dst ≠ cur) (hlive : (s'.envs dst).envStatus ≠ .free) :
    ∃ r earlier, (mailSystem M K).Reach (fun x ev => guard x.1 ev) (s', r) ∧
      (r dst).messages = earlier ++ [messageOf (trapState s c cur tf) cur dst tf] := by
  obtain ⟨r, hr⟩ := hreach.monitor
  refine ⟨observeMail M s (.trap c tf inp) s' r, (r dst).messages,
    .step hr ok ⟨step_of_exec hexec, rfl⟩, ?_⟩
  simp only [observeMail, if_neg hlive, recordTrap, hc, if_neg hst, recordCall, hva, hto,
    Function.update_self, Function.update_of_ne hne]

/-- The frame of a send to the first environment. -/
def sendFrame (value srcva : Word) : Trapframe :=
  { initTf with
    trapno := tSyscall
    regs := ⟨0#32, 0#32, 0#32, 0#32, srcva, 0x1000#32, value, 11#32⟩ }

def sendEvent (value srcva : Word) : Event := .trap 0 (sendFrame value srcva) ⟨0#32, none, 0⟩

/-- The second environment runs and sends to the first. -/
def sends (s : KState) (value srcva : Word) : Bool :=
  s.curenv 0 = some 1 ∧ (s.envs 1).envStatus = .running ∧
    sentTo (pc .roundRobin) (trapState s 0 1 (sendFrame value srcva)) 1 (sendFrame value srcva)
      ⟨0#32, none, 0⟩ = some 0

/-- The first environment waits, and the second sends it a number. -/
theorem delivery_pc : ∃ x : KState × (Nat → Mail), (x.2 0).messages ≠ [] ∧
    Delivery x.1 x.2 := by
  have hrun : (run (pc .roundRobin) [.create emptyImage, .create emptyImage, .start 0]
      pcBoot).any (fun s => s.curenv 0 = some 0 ∧
        (exec (pc .roundRobin) s (call 0 12#32 0x1000#32 0#32 0#32 0#32 0#32)).any (fun s =>
          sends s 7#32 utop && (exec (pc .roundRobin) s (sendEvent 7#32 utop)).any fun s =>
            (s.envs 0).envStatus = .runnable) = true) = true := by
    decide
  have hcreated : ∀ s, ∀ ev ∈ [Event.create emptyImage, .create emptyImage, .start 0],
      Fits s ev ∧ Receives (pc .roundRobin) s ev ∧ ClearsPerm s ev := by
    intro s ev hev
    simp only [List.mem_cons, List.not_mem_nil, or_false] at hev
    rcases hev with rfl | rfl | rfl <;> exact ⟨trivial, trivial, trivial⟩
  obtain ⟨s, hreach, hs⟩ := exists_reach (pcBoot_booted .roundRobin) hcreated hrun
  rw [decide_eq_true_eq, Option.any_eq_true] at hs
  obtain ⟨hcur, s₁, hexec, hs₁⟩ := hs
  rw [Bool.and_eq_true, Option.any_eq_true] at hs₁
  obtain ⟨hsends, s₂, hexec₂, hs₂⟩ := hs₁
  simp only [sends, decide_eq_true_eq] at hsends hs₂
  obtain ⟨hcur₁, hst₁, hto⟩ := hsends
  have hwait : Fits s (call 0 12#32 0x1000#32 0#32 0#32 0#32 0#32) ∧
      Receives (pc .roundRobin) s (call 0 12#32 0x1000#32 0#32 0#32 0#32 0#32) ∧
      ClearsPerm s (call 0 12#32 0x1000#32 0#32 0#32 0#32 0#32) := by
    refine ⟨fun cur hc => ?_, fun cur _ _ => ⟨fun va hva => ?_, fun e he => ?_, fun e he _ => ?_⟩,
      fun cur _ _ dst hdst => ?_⟩
    · obtain rfl := Option.some.inj (hcur.symm.trans hc)
      exact fun _ => ⟨fun _ => by decide, fun _ => trivial⟩
    · obtain rfl : (0x1000#32 : Word) = va := Option.some.inj hva
      decide
    · cases he
    · cases he
    · cases hdst
  have hsend : Fits s₁ (sendEvent 7#32 utop) ∧ Receives (pc .roundRobin) s₁ (sendEvent 7#32 utop) ∧
      ClearsPerm s₁ (sendEvent 7#32 utop) := by
    refine ⟨fun cur hc => ?_, fun cur _ _ => ⟨fun va hva => ?_, fun e he => ?_, fun e he _ => ?_⟩,
      fun cur _ _ dst _ hlow => absurd hlow (BitVec.lt_irrefl _)⟩
    · obtain rfl := Option.some.inj (hcur₁.symm.trans hc)
      exact fun _ => ⟨fun _ => by decide,
        fun _ dst _ _ _ hgood => absurd (.inl (BitVec.le_refl _)) hgood⟩
    · cases hva
    · cases he
    · cases he
  obtain ⟨r, earlier, hr, hmail⟩ := reach_sent (reach_exec _ hreach hwait hexec) hsend hexec₂ hcur₁
    (by rw [hst₁]; decide) rfl hto (by decide) (by rw [hs₂]; decide)
  exact ⟨(s₂, r), by rw [hmail]; simp, delivery_of_reach hr⟩

/-- A page that is offered to a receiver that asks for none after one was mapped for it:
`env_ipc_perm` is still the permission of the first. -/
theorem stale_perm : ¬ ∀ x : KState × (Nat → Mail),
    (mailSystem (pc .roundRobin) lowPages).Reach (fun _ _ => True) x → Delivery x.1 x.2 := by
  intro hall
  have hrun : (run (pc .roundRobin) [.create emptyImage, .create emptyImage, .start 0,
      call 0 12#32 0x1000#32 0#32 0#32 0#32 0#32, sendEvent 7#32 0xeebfd000#32,
      call 0 10#32 0#32 0#32 0#32 0#32 0#32, call 0 12#32 0#32 0#32 0#32 0#32 0#32]
      pcBoot).any (fun s => sends s 8#32 0xeebfd000#32 && decide ((s.envs 0).envIpcDstva = 0#32) &&
        (exec (pc .roundRobin) s (sendEvent 8#32 0xeebfd000#32)).any fun s =>
          (s.envs 0).envStatus = .runnable ∧ (s.envs 0).envIpcPerm = 5#32) = true := by
    decide +kernel
  obtain ⟨s, hreach, hs⟩ := reach_of_any (pcBoot_booted .roundRobin) hrun
  rw [Bool.and_eq_true, Bool.and_eq_true, Option.any_eq_true] at hs
  obtain ⟨⟨hsends, hdstva⟩, s', hexec, hs'⟩ := hs
  simp only [sends, decide_eq_true_eq] at hsends hdstva hs'
  obtain ⟨hcur, hst, hto⟩ := hsends
  obtain ⟨r, earlier, hr, hmail⟩ := reach_sent hreach trivial hexec hcur
    (by rw [hst]; decide) rfl hto (by decide) (by rw [hs'.1]; decide)
  obtain ⟨va, msg, hone, hshow⟩ := (hall (s', r) hr).once 0 (by rw [hmail]; simp)
  have hlast : earlier ++ [messageOf (trapState s 0 1 (sendFrame 8#32 0xeebfd000#32)) 1 0
      (sendFrame 8#32 0xeebfd000#32)] = [msg] := by
    rw [← hmail, show r 0 = _ from hone]
  have hmsg : messageOf (trapState s 0 1 (sendFrame 8#32 0xeebfd000#32)) 1 0
      (sendFrame 8#32 0xeebfd000#32) = msg := by
    simpa using congrArg List.getLast? hlast
  have hgranted : msg.perm = 0#32 := by
    have hne : (0 : Nat) ≠ 1 := by decide
    rw [← hmsg]
    show grantedPerm _ 0 _ _ = 0#32
    rw [grantedPerm, trapState_of_ne s 0 _ hne]
    exact if_neg fun hoffer => hoffer.2 hdstva
  have hperm := hshow.perm
  rw [hs'.2, hgranted] at hperm
  exact absurd hperm (by decide)

end Jos
end Sisop

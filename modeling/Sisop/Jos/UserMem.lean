import Sisop.Jos.Sched

/-!
# Checks on user memory

`user_mem_check` and `user_mem_assert` of `kern/pmap.c`.  The check returns the
address it leaves in `user_mem_check_addr`, or nothing when it returns 0.
-/

namespace Sisop
namespace Jos

variable (M : Machine)

/-- The loop of `user_mem_check` over `n` pages from `vaAct`. -/
def userMemCheckPages (m : PMap) (pgdir : Option Nat) (vaLo perm : Word) :
    Nat → Word → Except String (Option Word)
  | 0, _ => .ok none
  | n + 1, vaAct => do
      let (pte, _) ← pgdirWalk M m pgdir vaAct false
      let fault := some (if vaLo < vaAct then vaAct else vaLo)
      match pte with
      | none => pure fault
      | some pte =>
          if m.read pte &&& (perm ||| pteP) ≠ perm ||| pteP then pure fault
          else userMemCheckPages m pgdir vaLo perm n (vaAct + 4096#32)

def userMemCheck (m : PMap) (pgdir : Option Nat) (va len perm : Word) :
    Except String (Option Word) :=
  let vaLo := va
  let vaHi := roundup (va + len)
  if utop < vaHi then .ok (some vaLo)
  else
    userMemCheckPages M m pgdir vaLo perm ((vaHi.toNat - (rounddown vaLo).toNat) / pgsize)
      (rounddown vaLo)

/-- `user_mem_assert`, which returns when the check passes, and also when it
destroyed an environment that is not the current one. -/
def userMemAssert (s : KState) (c e : Nat) (va len perm : Word) : Except Stop KState := do
  match ← panics (userMemCheck M s.pm (s.envs e).envPgdir va len (perm ||| pteU)) with
  | none => pure s
  | some _ => envDestroy M s c e

end Jos
end Sisop

import Mathlib.Logic.Function.Basic
import Mathlib.Data.List.Basic

/-!
# Store buffers

Processors that share a memory and hold back their stores: a store goes to the end of the
buffer of its processor, the oldest store of a buffer goes to memory at any time, and a load
finds the last store of its own processor before it finds memory.  A locked exchange waits
until the buffer of its processor is empty.
-/

namespace Tso

/-- The memory, and what each processor has stored that is not there yet, oldest first. -/
structure StoreBuffers (C L V : Type*) where
  memory : L → V
  buffer : C → List (L × V)

namespace StoreBuffers

variable {C L V : Type*} {m m' : StoreBuffers C L V} {c c' : C} {x y : L} {u v : V}

/-- Processor `c` has a store to `x` that is not in memory. -/
def Pending (m : StoreBuffers C L V) (c : C) (x : L) : Prop := ∃ v, (x, v) ∈ m.buffer c

/-! ## Stores -/

section

variable [DecidableEq C]

def store (m : StoreBuffers C L V) (c : C) (x : L) (v : V) : StoreBuffers C L V :=
  { m with buffer := Function.update m.buffer c (m.buffer c ++ [(x, v)]) }

@[simp] theorem memory_store : (m.store c x v).memory = m.memory := rfl

theorem buffer_store_self : (m.store c x v).buffer c = m.buffer c ++ [(x, v)] :=
  Function.update_self _ _ _

theorem buffer_store_ne (h : c' ≠ c) : (m.store c x v).buffer c' = m.buffer c' :=
  Function.update_of_ne h _ _

theorem mem_buffer_store {w : L × V} : w ∈ (m.store c x v).buffer c' ↔
    w ∈ m.buffer c' ∨ c' = c ∧ w = (x, v) := by
  by_cases hc : c' = c
  · subst hc
    rw [buffer_store_self, List.mem_append, List.mem_singleton]
    simp only [true_and]
  · rw [buffer_store_ne hc]
    exact ⟨.inl, fun h => h.resolve_right fun hx => hc hx.1⟩

theorem pending_store : (m.store c x v).Pending c' y ↔ m.Pending c' y ∨ c' = c ∧ y = x := by
  unfold Pending
  simp only [mem_buffer_store, Prod.mk.injEq]
  constructor
  · rintro ⟨u, hu | ⟨hc, hy, -⟩⟩
    · exact .inl ⟨u, hu⟩
    · exact .inr ⟨hc, hy⟩
  · rintro (⟨u, hu⟩ | ⟨hc, hy⟩)
    · exact ⟨u, .inl hu⟩
    · exact ⟨v, .inr ⟨hc, hy, rfl⟩⟩

end

/-! ## Loads and locked exchanges -/

section

variable [DecidableEq L]

/-- A store reaches memory. -/
def commit (memory : L → V) (w : L × V) : L → V := Function.update memory w.1 w.2

/-- What processor `c` loads. -/
def view (m : StoreBuffers C L V) (c : C) : L → V := (m.buffer c).foldl commit m.memory

/-- A locked exchange: what was there, and the memory with `v`. -/
def xchg (m : StoreBuffers C L V) (c : C) (x : L) (v : V) : Option (V × StoreBuffers C L V) :=
  if m.buffer c = [] then some (m.memory x, { m with memory := Function.update m.memory x v })
  else none

theorem foldl_commit_of_notMem (ws : List (L × V)) (memory : L → V) (h : ∀ v, (x, v) ∉ ws) :
    ws.foldl commit memory x = memory x := by
  induction ws generalizing memory with
  | nil => rfl
  | cons w ws ih =>
      rw [List.foldl_cons, ih _ fun v hv => h v (List.mem_cons_of_mem w hv)]
      refine Function.update_of_ne ?_ _ _
      rintro rfl
      exact h w.2 List.mem_cons_self

/-- Memory that agrees at `x` gives loads that do, as long as the buffers are the same. -/
theorem foldl_commit_congr (ws : List (L × V)) {memory memory' : L → V}
    (h : memory x = memory' x) : ws.foldl commit memory x = ws.foldl commit memory' x := by
  induction ws generalizing memory memory' with
  | nil => exact h
  | cons w ws ih =>
      rw [List.foldl_cons, List.foldl_cons]
      refine ih ?_
      unfold commit
      by_cases hx : x = w.1
      · subst hx
        rw [Function.update_self, Function.update_self]
      · rw [Function.update_of_ne hx, Function.update_of_ne hx, h]

/-- Without a store of its own on the way, a processor loads what is in memory. -/
theorem view_of_not_pending (h : ¬ m.Pending c x) : m.view c x = m.memory x :=
  foldl_commit_of_notMem _ _ fun v hv => h ⟨v, hv⟩

theorem view_congr (hbuf : m'.buffer c = m.buffer c) (hmem : m'.memory x = m.memory x) :
    m'.view c x = m.view c x := by
  unfold view
  rw [hbuf]
  exact foldl_commit_congr _ hmem

theorem xchg_eq_some (h : m.xchg c x v = some (u, m')) : m.buffer c = [] ∧ u = m.memory x ∧
    m'.memory = Function.update m.memory x v ∧ m'.buffer = m.buffer := by
  unfold xchg at h
  split at h
  · rename_i hb
    cases h
    exact ⟨hb, rfl, rfl, rfl⟩
  · cases h

end

/-! ## Stores on their way -/

section

variable [DecidableEq C] [DecidableEq L]

/-- A processor loads its own store at once. -/
theorem view_store_self : (m.store c x v).view c = Function.update (m.view c) x v := by
  unfold view
  rw [buffer_store_self, List.foldl_append, memory_store]
  rfl

theorem view_store_ne (h : c' ≠ c) : (m.store c x v).view c' = m.view c' := by
  unfold view
  rw [buffer_store_ne h, memory_store]

/-- The oldest store of processor `c` reaches memory. -/
def drain (m : StoreBuffers C L V) (c : C) : Option (StoreBuffers C L V) :=
  match m.buffer c with
  | [] => none
  | w :: ws => some ⟨commit m.memory w, Function.update m.buffer c ws⟩

theorem drain_eq_some (h : m.drain c = some m') : ∃ w ws, m.buffer c = w :: ws ∧
    m'.buffer c = ws ∧ (∀ c', c' ≠ c → m'.buffer c' = m.buffer c') ∧
      m'.memory = commit m.memory w := by
  unfold drain at h
  cases hb : m.buffer c with
  | nil =>
      rw [hb] at h
      cases h
  | cons w ws =>
      rw [hb] at h
      cases h
      exact ⟨w, ws, rfl, Function.update_self _ _ _, fun c' hc => Function.update_of_ne hc _ _, rfl⟩

/-- The processor itself loads what it did. -/
theorem view_drain_self (h : m.drain c = some m') : m'.view c = m.view c := by
  obtain ⟨w, ws, hb, hb', -, hmem⟩ := drain_eq_some h
  unfold view
  rw [hb, hb', hmem]
  rfl

/-- Memory holds what it held, or what was on the way. -/
theorem memory_drain (h : m.drain c = some m') :
    m'.memory x = m.memory x ∨ (x, m'.memory x) ∈ m.buffer c := by
  obtain ⟨w, ws, hb, -, -, hmem⟩ := drain_eq_some h
  rw [hmem]
  by_cases hx : x = w.1
  · subst hx
    refine .inr ?_
    unfold commit
    rw [Function.update_self, hb]
    exact List.mem_cons_self
  · exact .inl (Function.update_of_ne hx _ _)

/-- Another processor sees the store at most. -/
theorem view_drain_ne (h : m.drain c = some m') (hc : c' ≠ c) (hx : ¬ m.Pending c x) :
    m'.view c' x = m.view c' x := by
  refine view_congr ?_ ((memory_drain h).resolve_right fun hin => hx ⟨_, hin⟩)
  obtain ⟨w, ws, -, -, hother, -⟩ := drain_eq_some h
  exact hother c' hc

theorem mem_buffer_drain (h : m.drain c = some m') {w : L × V} (hw : w ∈ m'.buffer c') :
    w ∈ m.buffer c' := by
  obtain ⟨w', ws, hb, hb', hother, -⟩ := drain_eq_some h
  by_cases hc : c' = c
  · subst hc
    rw [hb'] at hw
    rw [hb]
    exact List.mem_cons_of_mem w' hw
  · rwa [hother c' hc] at hw

theorem Pending.of_drain (h : m.drain c = some m') (hp : m'.Pending c' x) : m.Pending c' x := by
  obtain ⟨v, hv⟩ := hp
  exact ⟨v, mem_buffer_drain h hv⟩

end

end StoreBuffers

end Tso

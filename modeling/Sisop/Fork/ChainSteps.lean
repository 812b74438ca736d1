import Sisop.Fork.Chain

/-!
# Every step keeps the chain

One lemma for each place where a process can be, and `inv_step` for all of them.
-/

namespace Sisop
namespace Fork

open Processes Sieve TransitionSystem

variable {n : BitVec 32} {cap : Nat → Nat} {s s' : State} {i j : Nat}

theorem setProc_self (s : State) (i : Nat) (p : Process Pc) : (s.setProc i p).procs i = p := by
  simp [Net.setProc]

theorem setProc_ne (s : State) (p : Process Pc) (h : j ≠ i) :
    (s.setProc i p).procs j = s.procs j := by
  simp [Net.setProc, h]

theorem bound_le : bound n ≤ intMax := by
  have h := BitVec.toInt_lt (x := n)
  unfold bound intMax
  omega

variable (hs : Inv n s) (hi : i < s.count)

include hs hi

theorem Inv.ends_of {c : Pc} (hc : (s.procs i).control = some c) : (s.procs i).ends = c.ends := by
  rw [(hs.proc i hi).ends, hc]
  rfl

theorem Inv.past_of (h : PastEof (s.procs i).control) :
    ∀ j, j + 1 = i → Closed (s.procs j).control ∧ s.pipes j = [] := by
  rintro j rfl
  exact hs.past j hi h

theorem step_main (hc : (s.procs i).control = some .main)
    (h : s.call cap i (prog n .main) = some s') : Onward n s s' := by
  cases h
  have hok := hs.proc i hi
  obtain rfl : i = 0 := hok.placed _ hc
  have hlast : 0 + 1 = s.count := hok.last (by rw [hc]; rfl)
  have hmade : s.made = 0 := by
    rw [hs.made 0 hlast, hc]
    rfl
  refine hs.of_last hi hc rfl id (setProc_self s 0 _) rfl (fun j hj => setProc_ne s _ hj) rfl
    (hok.goto hc rfl ?_ ⟨rfl, hmade⟩ nofun) ?_ nofun rfl (Nat.lt_succ_self _)
  · rw [hs.ends_of hi hc]
    rfl
  · change s.made + 1 = 0 + 1
    rw [hmade]

theorem step_mainFather {current : Nat} (hc : (s.procs i).control = some (.mainFather current))
    (h : s.call cap i (prog n (.mainFather current)) = some s') : Onward n s s' := by
  cases h
  have hok := hs.proc i hi
  obtain ⟨rfl, rfl⟩ := hok.placed _ hc
  refine hs.of_father hi hc rfl (setProc_self s 0 _) rfl (fun j hj => setProc_ne s _ hj) rfl rfl rfl
    (hok.goto hc rfl ?_ ⟨rfl, rfl, Nat.le_refl 2, by decide⟩ nofun) nofun nofun nofun rfl
    (Nat.lt_succ_self _)
  rw [hs.ends_of hi hc]
  rfl

theorem step_sent {current p : Nat} (hc : (s.procs i).control = some (.sent current p))
    (h : s.call cap i (prog n (.sent current p)) = some s') : Onward n s s' := by
  have hok := hs.proc i hi
  obtain ⟨rfl, rfl, htwo, hle⟩ := hok.placed _ hc
  have hends := hs.ends_of hi hc
  rw [prog] at h
  split at h
  · cases h
  · rename_i hmax
    cases h
    have hbound := bound_le (n := n)
    refine hs.of_father hi hc rfl (setProc_self s 0 _) rfl (fun j hj => setProc_ne s _ hj) rfl rfl
      rfl (hok.goto hc rfl hends ⟨rfl, rfl, by omega, by omega⟩ nofun) nofun nofun
      nofun rfl (Nat.lt_succ_self _)

theorem step_receiveNumbers {current : Nat}
    (hc : (s.procs i).control = some (.receiveNumbers current))
    (h : s.call cap i (prog n (.receiveNumbers current)) = some s') : Onward n s s' := by
  cases h
  have hok := hs.proc i hi
  have hplaced : i = current + 1 := hok.placed _ hc
  refine hs.of_last hi hc rfl id (setProc_self s i _) rfl (fun j hj => setProc_ne s _ hj) rfl
    (hok.goto hc rfl ?_ hplaced nofun) rfl nofun rfl (Nat.lt_succ_self _)
  rw [hs.ends_of hi hc]
  simp [Pc.ends]

theorem step_noFirst {current : Nat} (hc : (s.procs i).control = some (.noFirst current))
    (h : s.call cap i (prog n (.noFirst current)) = some s') : Onward n s s' := by
  cases h
  have hok := hs.proc i hi
  have hplaced : i = current + 1 := hok.placed _ hc
  have hchildren : (s.procs i).children = [] := by
    rw [hok.children, hc]
    rfl
  have hends : (s.procs i).ends.filter (· ≠ .readEnd current) = [] := by
    rw [hs.ends_of hi hc]
    simp [Pc.ends]
  refine hs.of_last hi hc rfl id (setProc_self s i _) rfl (fun j hj => setProc_ne s _ hj) rfl
    ?_ rfl (fun _ => hs.past_of hi (by rw [hc]; trivial)) rfl (Nat.lt_succ_self _)
  rw [hchildren, hends]
  exact procOk_done trivial (by omega)

theorem step_printf {current p : Nat} (hc : (s.procs i).control = some (.printf current p))
    (h : s.call cap i (prog n (.printf current p)) = some s') : Onward n s s' := by
  cases h
  have hok := hs.proc i hi
  have hends := hs.ends_of hi hc
  have hplaced : i = current + 1 := hok.placed _ hc
  refine hs.of_last hi hc rfl id (setProc_self s i _) rfl (fun j hj => setProc_ne s _ hj) rfl
    (hok.goto hc rfl hends hplaced nofun) rfl nofun ?_ (Nat.lt_succ_self _)
  exact List.append_assoc s.out [p] _

theorem step_nextPipe {current p : Nat} (hc : (s.procs i).control = some (.nextPipe current p))
    (h : s.call cap i (prog n (.nextPipe current p)) = some s') : Onward n s s' := by
  cases h
  have hok := hs.proc i hi
  have hlast : i + 1 = s.count := hok.last (by rw [hc]; rfl)
  have hmade : s.made = i := by
    rw [hs.made i hlast, hc]
    rfl
  refine hs.of_last hi hc rfl id (setProc_self s i _) rfl (fun j hj => setProc_ne s _ hj) rfl
    (hok.goto hc rfl ?_ ⟨hok.placed _ hc, hmade⟩ nofun) ?_ nofun rfl (Nat.lt_succ_self _)
  · rw [hs.ends_of hi hc]
    rfl
  · change s.made + 1 = i + 1
    rw [hmade]

theorem step_child {current next : Nat} (hc : (s.procs i).control = some (.child current next))
    (h : s.call cap i (prog n (.child current next)) = some s') : Onward n s s' := by
  cases h
  have hok := hs.proc i hi
  obtain ⟨hplaced, hnext⟩ : i = current + 2 ∧ next = current + 1 := hok.placed _ hc
  refine hs.of_last hi hc rfl id (setProc_self s i _) rfl (fun j hj => setProc_ne s _ hj) rfl
    (hok.goto hc rfl ?_ (show i = next + 1 by omega) nofun) rfl nofun rfl (Nat.lt_succ_self _)
  have hne : next ≠ current := by omega
  rw [hs.ends_of hi hc]
  simp [Pc.ends, hne]

theorem step_father {current next p : Nat}
    (hc : (s.procs i).control = some (.father current next p))
    (h : s.call cap i (prog n (.father current next p)) = some s') : Onward n s s' := by
  cases h
  have hok := hs.proc i hi
  obtain ⟨hplaced, hnext⟩ : i = current + 1 ∧ next = i := hok.placed _ hc
  refine hs.of_father hi hc rfl (setProc_self s i _) rfl (fun j hj => setProc_ne s _ hj) rfl rfl rfl
    (hok.goto hc rfl ?_ ⟨hplaced, hnext⟩ nofun) nofun nofun nofun rfl (Nat.lt_succ_self _)
  have hne : current ≠ next := by omega
  rw [hs.ends_of hi hc]
  simp [Pc.ends, hne]

theorem step_closeNext {current next : Nat}
    (hc : (s.procs i).control = some (.closeNext current next))
    (h : s.call cap i (prog n (.closeNext current next)) = some s') : Onward n s s' := by
  cases h
  have hok := hs.proc i hi
  obtain ⟨hplaced, hnext⟩ : i = current + 1 ∧ next = i := hok.placed _ hc
  refine hs.of_father hi hc rfl (setProc_self s i _) rfl (fun j hj => setProc_ne s _ hj) rfl rfl rfl
    (hok.goto hc rfl ?_ hplaced (by omega)) (fun _ => hs.past_of hi (by rw [hc]; trivial)) nofun
    nofun rfl (Nat.lt_succ_self _)
  rw [hs.ends_of hi hc]
  simp [Pc.ends]

theorem step_closeCurrent {current : Nat}
    (hc : (s.procs i).control = some (.closeCurrent current))
    (h : s.call cap i (prog n (.closeCurrent current)) = some s') : Onward n s s' := by
  cases h
  have hok := hs.proc i hi
  have hplaced : i = current + 1 := hok.placed _ hc
  refine hs.of_father hi hc rfl (setProc_self s i _) rfl (fun j hj => setProc_ne s _ hj) rfl rfl rfl
    (hok.goto hc rfl ?_ trivial (by omega)) (fun _ => hs.past_of hi (by rw [hc]; trivial))
    (fun _ => trivial) nofun rfl (Nat.lt_succ_self _)
  rw [hs.ends_of hi hc]
  simp [Pc.ends]

theorem step_wait (hc : (s.procs i).control = some .wait)
    (h : s.call cap i (prog n .wait) = some s') : Onward n s s' := by
  have hok := hs.proc i hi
  have hchildren : (s.procs i).children = [i + 1] := by
    rw [hok.children, hc]
    rfl
  simp only [prog, Net.call, hchildren] at h
  split at h
  · rename_i q hfind
    have hexited := List.find?_some hfind
    obtain rfl := List.mem_singleton.mp (List.mem_of_find?_eq_some hfind)
    cases h
    refine hs.of_father hi hc rfl (setProc_self s i _) rfl (fun j hj => setProc_ne s _ hj) rfl rfl
      rfl ?_ (fun _ => hs.past_of hi (by rw [hc]; trivial)) (fun _ => trivial) (fun _ => ?_) rfl
      (Nat.lt_succ_self _)
    · rw [hs.ends_of hi hc, List.erase_cons_head]
      exact procOk_done trivial fun hzero => hok.counted hzero (by rw [hc]; trivial)
    · exact Option.isNone_iff_eq_none.mp hexited
  · cases h

theorem step_exit (hc : (s.procs i).control = some .exit)
    (h : s.call cap i (prog n .exit) = some s') : Onward n s s' := by
  cases h
  have hok := hs.proc i hi
  have hchildren : (s.procs i).children = [] := by
    rw [hok.children, hc]
    rfl
  refine hs.of_quiet hi hc id (setProc_self s i _) rfl (fun j hj => setProc_ne s _ hj) rfl ?_ ?_
    (fun _ => hs.past_of hi (by rw [hc]; trivial)) (fun _ => trivial) ?_ (fun _ => rfl)
    (fun _ => rfl) (fun _ => rfl) (Nat.lt_succ_self _)
  · rw [hchildren]
    exact procOk_done trivial fun hzero => hok.counted hzero (by rw [hc]; trivial)
  · exact (if_neg fun hand => hand.2).symm
  · exact fun hlt _ => hs.waited i hlt (by rw [hc]; trivial)

/-! ## Reading and writing -/

omit hs hi in
theorem stream_read {k v : Nat} {rest : List Nat} {p : Process Pc} (hk : k + 1 = i)
    (hpipe : s.pipes k = v :: rest) :
    stream n s i = v :: stream n ((s.setProc i p).setPipe k rest) i := by
  subst hk
  have hrest : ((s.setProc (k + 1) p).setPipe k rest).pipes k = rest := by
    simp [Net.setPipe]
  have hprocs : ∀ j, j ≤ k →
      (((s.setProc (k + 1) p).setPipe k rest).procs j).control = (s.procs j).control := by
    intro j hj
    change ((s.setProc (k + 1) p).procs j).control = _
    rw [setProc_ne s p (by omega)]
  have hpipes : ∀ j, j < k → ((s.setProc (k + 1) p).setPipe k rest).pipes j = s.pipes j := by
    intro j hj
    have hne : j ≠ k := by omega
    simp [Net.setPipe, Net.setProc, hne]
  rw [stream, stream, hpipe, hrest, hprocs k (Nat.le_refl k),
    stream_congr (fun j hj => hprocs j (by omega)) hpipes]
  rfl

/-- A step that reads `v` from pipe `k`. -/
theorem Inv.of_read {c c' : Pc} {k v : Nat} {rest : List Nat}
    (hc : (s.procs i).control = some c) (hk : k + 1 = i) (hpipe : s.pipes k = v :: rest)
    (hrole : c'.role = c.role) (hends : c'.ends = c.ends) (hplaced : c'.Placed n i)
    (hnext : ¬ HasNext (some c)) (hnext' : ¬ HasNext (some c')) (hopen : ¬ PastEof (some c'))
    (hclosed : ¬ Closed (some c)) (hclosed' : ¬ Closed (some c'))
    (hemits : ∀ l, emits n (some c') l = emits n (some c) (v :: l))
    (howed : ∀ l, owed n (some c') l = owed n (some c) (v :: l))
    (hcost : ∀ l, cost n (some c') l < cost n (some c) (l + 1)) :
    Onward n s ((s.setProc i { s.procs i with control := some c' }).setPipe k rest) := by
  have hself : ((s.setProc i { s.procs i with control := some c' }).setPipe k rest).procs i =
      { s.procs i with control := some c' } := setProc_self s i _
  have hread := stream_read (n := n) (p := { s.procs i with control := some c' }) hk hpipe
  refine hs.of_local hi hc ⟨rfl, fun j hj => setProc_ne s _ hj, ?_, ?_, ?_, ?_, ?_, ?_, ?_, ?_,
    fun _ => rfl, ?_, hnext, ?_⟩
  · intro j hj hji
    have hne : j ≠ k := by omega
    simp [Net.setPipe, Net.setProc, hne]
  · rw [hself]
    exact (hs.proc i hi).goto hc hrole ((hs.ends_of hi hc).trans hends.symm) hplaced
      fun _ h => absurd h hclosed'
  · rw [hself]
    exact (if_neg fun hand => hnext' hand.2).symm
  · rw [hself]
    exact fun _ _ h => absurd h hopen
  · exact fun h => absurd h hclosed
  · rw [hself]
    exact fun _ h => absurd (closed_roleOf h) hclosed'
  · intro _
    have hne : i ≠ k := by omega
    simp [Net.setPipe, Net.setProc, hne]
  · intro hlt
    have hne : i ≠ k := by omega
    have hsame : ((s.setProc i { s.procs i with control := some c' }).setPipe k rest).pipes i =
        s.pipes i := by simp [Net.setPipe, Net.setProc, hne]
    rw [stream, stream, hself, hsame, hemits, hread, hc]
  · intro hlast
    rw [hself, howed, hread]
    rfl
  · rw [hself, hread]
    exact hcost _

/-- A step that writes `v` into pipe `i`. -/
theorem Inv.of_write {c c' : Pc} {v : Nat} (hc : (s.procs i).control = some c)
    (hrole : c.role = .father) (hrole' : c'.role = .father) (hends : c'.ends = c.ends)
    (hplaced : c'.Placed n i) (hopen : ¬ PastEof (some c')) (hclosed : ¬ Closed (some c))
    (hclosed' : ¬ Closed (some c'))
    (hemits : ∀ l, emits n (some c) l = v :: emits n (some c') l)
    (hcost : ∀ l, cost n (some c') l < cost n (some c) l) :
    Onward n s
      ((s.setProc i { s.procs i with control := some c' }).setPipe i (s.pipes i ++ [v])) := by
  have hself : ((s.setProc i { s.procs i with control := some c' }).setPipe i
      (s.pipes i ++ [v])).procs i = { s.procs i with control := some c' } := setProc_self s i _
  have hlt : i + 1 < s.count := (hs.proc i hi).father (by rw [hc]; exact hrole)
  have hpipes : ∀ j, j ≠ i → ((s.setProc i { s.procs i with control := some c' }).setPipe i
      (s.pipes i ++ [v])).pipes j = s.pipes j := by
    intro j hj
    simp [Net.setPipe, Net.setProc, hj]
  have hsame : stream n ((s.setProc i { s.procs i with control := some c' }).setPipe i
      (s.pipes i ++ [v])) i = stream n s i := by
    refine stream_congr (fun j hj => ?_) fun j hj => hpipes j (by omega)
    change ((s.setProc i _).procs j).control = _
    rw [setProc_ne s _ (by omega)]
  refine hs.of_local hi hc ⟨rfl, fun j hj => setProc_ne s _ hj, fun j hj _ => hpipes j hj, ?_, ?_,
    ?_, ?_, ?_, ?_, ?_, fun _ => rfl, fun hlast => by omega, ?_, ?_⟩
  · rw [hself]
    exact (hs.proc i hi).goto hc (hrole'.trans hrole.symm)
      ((hs.ends_of hi hc).trans hends.symm) hplaced fun _ h => absurd h hclosed'
  · exact (if_neg fun hand => by omega).symm
  · rw [hself]
    exact fun _ _ h => absurd h hopen
  · exact fun h => absurd h hclosed
  · rw [hself]
    exact fun _ h => absurd (closed_roleOf h) hclosed'
  · rintro (hlast | h)
    · omega
    · exact absurd h hclosed
  · intro _
    have hpipe : ((s.setProc i { s.procs i with control := some c' }).setPipe i
        (s.pipes i ++ [v])).pipes i = s.pipes i ++ [v] := by simp [Net.setPipe]
    rw [stream, stream, hself, hsame, hpipe, hc, hemits, List.append_assoc]
    rfl
  · cases c <;> first | exact id | cases hrole
  · rw [hself, hsame]
    exact hcost _

theorem step_readFirst {current : Nat} (hc : (s.procs i).control = some (.readFirst current))
    (h : s.call cap i (prog n (.readFirst current)) = some s') : Onward n s s' := by
  have hok := hs.proc i hi
  have hends := hs.ends_of hi hc
  have hplaced : i = current + 1 := hok.placed _ hc
  simp only [prog, Net.call] at h
  split at h
  · split at h
    · rename_i v rest hpipe
      cases h
      exact hs.of_read hi hc hplaced.symm hpipe rfl rfl hplaced id id id id id (fun _ => rfl)
        (fun l => (sieve_cons v l).symm) fun _ => Nat.lt_succ_self _
    · rename_i hpipe
      split at h
      · cases h
      · rename_i hheld
        cases h
        subst hplaced
        obtain ⟨hclosed, hstream⟩ := hs.eof hi hpipe hheld
        refine hs.of_last hi hc rfl id (setProc_self s _ _) rfl (fun j hj => setProc_ne s _ hj) rfl
          (hok.goto hc rfl hends rfl nofun) rfl ?_ ?_ ?_
        · rintro - j hj
          obtain rfl : j = current := by omega
          exact ⟨hclosed, hpipe⟩
        · rw [hstream]
          exact congrArg _ sieve_nil.symm
        · rw [hstream]
          exact Nat.lt_succ_self _
  · cases h

theorem step_sendPrimes {current next p : Nat}
    (hc : (s.procs i).control = some (.sendPrimes current next p))
    (h : s.call cap i (prog n (.sendPrimes current next p)) = some s') : Onward n s s' := by
  have hok := hs.proc i hi
  have hends := hs.ends_of hi hc
  obtain ⟨hplaced, hnext⟩ : i = current + 1 ∧ next = i := hok.placed _ hc
  simp only [prog, Net.call] at h
  split at h
  · split at h
    · rename_i v rest hpipe
      cases h
      exact hs.of_read hi hc hplaced.symm hpipe rfl rfl ⟨hplaced, hnext⟩ id id id id id
        (fun _ => rfl) (fun _ => rfl) fun _ => Nat.lt_succ_self _
    · rename_i hpipe
      split at h
      · cases h
      · rename_i hheld
        cases h
        subst hplaced
        obtain ⟨hclosed, hstream⟩ := hs.eof hi hpipe hheld
        refine hs.of_father hi hc rfl (setProc_self s _ _) rfl (fun j hj => setProc_ne s _ hj) rfl
          rfl rfl (hok.goto hc rfl hends ⟨rfl, hnext⟩ nofun) ?_ nofun nofun ?_ ?_
        · rintro - j hj
          obtain rfl : j = current := by omega
          exact ⟨hclosed, hpipe⟩
        · rw [hstream]
          rfl
        · rw [hstream]
          exact Nat.lt_succ_self _
  · cases h

theorem step_candidate {current next p m : Nat}
    (hc : (s.procs i).control = some (.candidate current next p m))
    (h : s.call cap i (prog n (.candidate current next p m)) = some s') : Onward n s s' := by
  have hok := hs.proc i hi
  have hends := hs.ends_of hi hc
  obtain ⟨hplaced, rfl⟩ : i = current + 1 ∧ next = i := hok.placed _ hc
  rw [prog] at h
  split at h
  · rename_i hmod
    simp only [Net.call] at h
    split at h
    · cases h
      exact hs.of_write hi hc rfl rfl rfl ⟨hplaced, rfl⟩ id id id
        (fun l => strain_cons_of_not_dvd hmod l) fun _ => Nat.lt_succ_self _
    · cases h
  · rename_i hmod
    cases h
    refine hs.of_father hi hc rfl (setProc_self s _ _) rfl (fun j hj => setProc_ne s _ hj) rfl
      rfl rfl (hok.goto hc rfl hends ⟨hplaced, rfl⟩ nofun) nofun nofun nofun ?_
      (Nat.lt_succ_self _)
    exact (strain_cons_of_dvd (Decidable.not_not.mp hmod) _).symm

theorem step_sendNumbers {current p : Nat}
    (hc : (s.procs i).control = some (.sendNumbers current p))
    (h : s.call cap i (prog n (.sendNumbers current p)) = some s') : Onward n s s' := by
  have hok := hs.proc i hi
  have hends := hs.ends_of hi hc
  obtain ⟨rfl, rfl, htwo, hmax⟩ := hok.placed _ hc
  rw [prog] at h
  split at h
  · rename_i hle
    rw [le_bound n htwo] at hle
    simp only [Net.call] at h
    split at h
    · cases h
      refine hs.of_write hi hc rfl rfl rfl ⟨rfl, rfl, htwo, hle⟩ id id id
        (fun _ => upTo_of_le hle) fun _ => ?_
      have hlength : (upTo p (bound n)).length = (upTo (p + 1) (bound n)).length + 1 := by
        rw [upTo_of_le hle, List.length_cons]
      simp only [cost]
      omega
    · cases h
  · rename_i hle
    rw [le_bound n htwo] at hle
    cases h
    refine hs.of_father hi hc rfl (setProc_self s 0 _) rfl (fun j hj => setProc_ne s _ hj) rfl rfl
      rfl (hok.goto hc rfl ?_ trivial fun _ _ => by omega) (fun _ => nofun) (fun _ => trivial)
      nofun ?_ ?_
    · rw [hends]
      simp [Pc.ends]
    · exact (upTo_of_lt (by omega)).symm
    · simp only [cost]
      omega

/-! ## Forking -/

/-- The last process of the chain forks the next one. -/
theorem Inv.of_fork {c c' d : Pc} (hc : (s.procs i).control = some c)
    (h : s.call cap i (.fork d c') = some s') (hrole : c.role = .last)
    (hnext : HasNext (some c)) (hrole' : c'.role = .father) (hroled : d.role = .last)
    (hends : c'.ends = c.ends) (hendsd : d.ends = c.ends) (hplaced : c'.Placed n i)
    (hplacedd : d.Placed n (i + 1)) (hnextd : ¬ HasNext (some d)) (hopen : ¬ PastEof (some c'))
    (hopend : ¬ PastEof (some d)) (hclosed : ¬ Closed (some c')) (hclosedd : ¬ Closed (some d))
    (howed : ∀ l, owed n (some d) (emits n (some c') l) = owed n (some c) l)
    (hcost : ∀ l, cost n (some c') l.length + cost n (some d) (emits n (some c') l).length <
      cost n (some c) l.length) : Onward n s s' := by
  have hok := hs.proc i hi
  have hlast : i + 1 = s.count := hok.last (by rw [hc]; exact hrole)
  have hchildren : (s.procs i).children = [] := by
    rw [hok.children, hc, if_neg (by rw [roleOf, Option.elim, hrole]; decide)]
  have hcount : s'.count = s.count + 1 := by
    cases h
    rfl
  have hpipes : s'.pipes = s.pipes := by
    cases h
    rfl
  have hout : s'.out = s.out := by
    cases h
    rfl
  have hmade : s'.made = s.made := by
    cases h
    rfl
  have hfather : s'.procs i = ⟨some c', c'.ends, [i + 1]⟩ := by
    cases h
    have hne : i ≠ s.count := by omega
    simp [Net.setProc, Function.update_of_ne hne, hchildren, hends, hs.ends_of hi hc, hlast]
  have hchild : s'.procs (i + 1) = ⟨some d, d.ends, []⟩ := by
    cases h
    rw [hlast]
    simp [Net.setProc, hendsd, hs.ends_of hi hc]
  have hother : ∀ j, j < i → s'.procs j = s.procs j := by
    intro j hj
    cases h
    have hne : j ≠ s.count := by omega
    have hne' : j ≠ i := by omega
    simp [Net.setProc, Function.update_of_ne hne, Function.update_of_ne hne']
  have hbelow : ∀ j, j ≤ i → stream n s' j = stream n s j := fun j hj =>
    stream_congr (fun k hk => by rw [hother k (by omega)]) (fun k _ => by rw [hpipes])
  have hnew : stream n s' (i + 1) = emits n (some c') (stream n s i) := by
    rw [stream, hfather, hpipes, hs.empty i (by omega), List.nil_append, hbelow i (Nat.le_refl i)]
  refine ⟨⟨by omega, ?_, ?_, ?_, ?_, ?_, ?_⟩, ?_⟩
  · intro j hj
    rw [hcount] at hj ⊢
    rcases Nat.lt_trichotomy j i with hlt | rfl | hgt
    · have hold := hs.proc j (by omega)
      rw [hother j hlt]
      refine ⟨hold.ends, hold.children, hold.placed, fun h => absurd (hold.last h) (by omega),
        fun h => Nat.lt_succ_of_lt (hold.father h), hold.counted⟩
    · rw [hfather]
      refine ⟨rfl, ?_, ?_, ?_, fun _ => by omega, fun _ h => absurd h hclosed⟩
      · exact (if_pos hrole').symm
      · intro e he
        cases he
        exact hplaced
      · exact fun h => absurd (hrole'.symm.trans h) (by decide)
    · obtain rfl : j = i + 1 := by omega
      rw [hchild]
      refine ⟨rfl, ?_, ?_, fun _ => by omega, ?_, fun _ h => absurd h hclosedd⟩
      · have hne : roleOf (some d) ≠ .father := fun h => absurd (hroled.symm.trans h) (by decide)
        exact (if_neg hne).symm
      · intro e he
        cases he
        exact hplacedd
      · exact fun h => absurd (hroled.symm.trans h) (by decide)
  · intro j hj
    obtain rfl : j = i + 1 := by omega
    rw [hchild, hmade, if_neg hnextd, hs.made i hlast, hc, if_pos hnext]
  · intro j hj hp
    rw [hcount] at hj
    rw [hpipes]
    rcases Nat.lt_or_ge (j + 1) i with hlt | hge
    · rw [hother (j + 1) hlt] at hp
      rw [hother j (by omega)]
      exact hs.past j (by omega) hp
    · rcases Nat.eq_or_lt_of_le hge with heq | hgt
      · rw [← heq, hfather] at hp
        exact absurd hp hopen
      · obtain rfl : j = i := by omega
        rw [hchild] at hp
        exact absurd hp hopend
  · intro j hj hw
    rw [hcount] at hj
    rcases Nat.lt_or_ge j i with hlt | hge
    · rw [hother j hlt] at hw
      have hnone := hs.waited j (by omega) hw
      rcases Nat.lt_or_ge (j + 1) i with hlt' | hge'
      · rw [hother (j + 1) hlt']
        exact hnone
      · obtain rfl : i = j + 1 := by omega
        rw [hc] at hnone
        cases hnone
    · obtain rfl : j = i := by omega
      rw [hfather] at hw
      exact absurd (closed_roleOf hw) hclosed
  · intro k hk
    rw [hpipes]
    exact hs.empty k (by omega)
  · intro j hj
    obtain rfl : j = i + 1 := by omega
    have hold := hs.out i hlast
    rw [hc] at hold
    rw [hchild, hout, hnew, howed]
    exact hold
  · unfold left
    have hrest : ∑ j ∈ Finset.range i, cost n (s'.procs j).control (stream n s' j).length =
        ∑ j ∈ Finset.range i, cost n (s.procs j).control (stream n s j).length := by
      refine Finset.sum_congr rfl fun j hj => ?_
      have hlt := Finset.mem_range.mp hj
      rw [hother j hlt, hbelow j (by omega)]
    have hless := hcost (stream n s i)
    rw [hcount, ← hlast, Finset.sum_range_succ, Finset.sum_range_succ, Finset.sum_range_succ,
      hrest, hfather, hchild, hnew, hbelow i (Nat.le_refl i), hc]
    dsimp only
    omega

theorem step_mainFork {current : Nat} (hc : (s.procs i).control = some (.mainFork current))
    (h : s.call cap i (prog n (.mainFork current)) = some s') : Onward n s s' := by
  obtain ⟨rfl, rfl⟩ := (hs.proc i hi).placed _ hc
  refine hs.of_fork hi hc h rfl trivial rfl rfl rfl rfl ⟨rfl, rfl⟩ rfl id id id id id
    (fun _ => rfl) fun _ => ?_
  simp only [cost, emits]
  omega

theorem step_fork {current next p : Nat} (hc : (s.procs i).control = some (.fork current next p))
    (h : s.call cap i (prog n (.fork current next p)) = some s') : Onward n s s' := by
  obtain ⟨hplaced, hnext⟩ : i = current + 1 ∧ next = i := (hs.proc i hi).placed _ hc
  refine hs.of_fork hi hc h rfl trivial rfl rfl rfl rfl ⟨hplaced, hnext⟩
    ⟨by omega, by omega⟩ id id id id id (fun _ => rfl) fun l => ?_
  have hmono := work_mono (length_strain_le p l)
  simp only [cost, emits]
  omega

omit hi in
theorem onward_step (h : s.step (prog n) cap i = some s') : Onward n s s' := by
  unfold Net.step at h
  split at h
  · rename_i hi
    split at h
    · rename_i c hc
      cases c with
      | main => exact step_main hs hi hc h
      | mainFork current => exact step_mainFork hs hi hc h
      | mainFather current => exact step_mainFather hs hi hc h
      | sendNumbers current p => exact step_sendNumbers hs hi hc h
      | sent current p => exact step_sent hs hi hc h
      | receiveNumbers current => exact step_receiveNumbers hs hi hc h
      | readFirst current => exact step_readFirst hs hi hc h
      | noFirst current => exact step_noFirst hs hi hc h
      | printf current p => exact step_printf hs hi hc h
      | nextPipe current p => exact step_nextPipe hs hi hc h
      | fork current next p => exact step_fork hs hi hc h
      | child current next => exact step_child hs hi hc h
      | father current next p => exact step_father hs hi hc h
      | sendPrimes current next p => exact step_sendPrimes hs hi hc h
      | candidate current next p m => exact step_candidate hs hi hc h
      | closeNext current next => exact step_closeNext hs hi hc h
      | closeCurrent current => exact step_closeCurrent hs hi hc h
      | wait => exact step_wait hs hi hc h
      | exit => exact step_exit hs hi hc h
    · cases h
  · cases h

omit hs hi in
theorem inv_start : Inv n (Net.start .main) := by
  refine ⟨Nat.one_pos, ?_, ?_, nofun, ?_, fun _ _ => rfl, ?_⟩
  · intro j hj
    obtain rfl : j = 0 := Nat.lt_one_iff.mp hj
    refine ⟨rfl, rfl, ?_, fun _ => rfl, nofun, nofun⟩
    intro c hc
    cases hc
    rfl
  · intro i hi
    obtain rfl : i = 0 := Nat.succ.inj hi
    rfl
  · intro j hj
    exact absurd hj (by simp [Net.start])
  · intro i hi
    obtain rfl : i = 0 := Nat.succ.inj hi
    exact sieve_upTo (bound n)

omit hs hi in
theorem inv_of_reach (h : Reach (primes n cap) anyEvent s) : Inv n s := by
  refine Reach.invariant (P := Inv n) ?_ (fun s i s' hs _ hstep => (onward_step hs hstep).inv) h
  rintro s rfl
  exact inv_start

end Fork
end Sisop

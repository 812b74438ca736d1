import Sisop.Jos.Kdebug
import Sisop.Jos.UserCheck

/-!
# What `debuginfo_eip` reads of a program

The table of stabs is checked with the number of its stabs for a length, where
`user_mem_check` takes bytes.  The first stab the search looks at is the middle one,
and its type already lies behind the range that was checked.

The searches themselves stay in the table, but for one case: when the first stab
of the table is behind the address, the region of the file is the one in front of
the table, and the searches that follow look there.  In a table of at most `2 ^ 30`
stabs they have a result.
-/

namespace Sisop
namespace Jos

variable {mem : Word → BitVec 8} {stabs addr : Word} {type : BitVec 8} {l m lo hi : Int}
  {st st' : BinSearch} {t : UserStabData} {info info' : Eipdebuginfo}

/-! ## The stabs a search looks at -/

/-- The stabs that are read lie from `lo` to `hi`. -/
def IndexIn (lo hi : Int) (reads : List StabRead) : Prop :=
  ∀ x ∈ reads, lo ≤ x.k ∧ x.k ≤ hi

namespace IndexIn

variable {reads reads' : List StabRead}

theorem nil : IndexIn lo hi [] := fun _ hx => absurd hx List.not_mem_nil

theorem cons {x : StabRead} (hx : lo ≤ x.k ∧ x.k ≤ hi) (h : IndexIn lo hi reads) :
    IndexIn lo hi (x :: reads) := by
  intro y hy
  rcases List.mem_cons.mp hy with rfl | hy
  · exact hx
  · exact h y hy

theorem append (h : IndexIn lo hi reads) (h' : IndexIn lo hi reads') :
    IndexIn lo hi (reads ++ reads') := by
  intro x hx
  rcases List.mem_append.mp hx with hx | hx
  · exact h x hx
  · exact h' x hx

theorem mono (h : IndexIn lo hi reads) {lo' hi' : Int} (hlo : lo' ≤ lo) (hhi : hi ≤ hi') :
    IndexIn lo' hi' reads := by
  intro x hx
  have hin := h x hx
  omega

end IndexIn

theorem stabScan_indexIn : IndexIn l m (stabScan mem stabs type l m).2 := by
  induction m using stabScan.induct mem stabs type l with
  | case1 m hle htype ih =>
    rw [stabScan, if_pos hle, if_pos htype]
    exact .cons ⟨hle, Int.le_refl m⟩ (ih.mono (Int.le_refl l) (by omega))
  | case2 m hle htype =>
    rw [stabScan, if_pos hle, if_neg htype]
    exact .cons ⟨hle, Int.le_refl m⟩ .nil
  | case3 m hle =>
    rw [stabScan, if_neg hle]
    exact .nil

/-- The region of the search, and the results so far, lie from `lo` to `hi`. -/
structure Within (lo hi : Int) (st : BinSearch) : Prop where
  lo_le : lo ≤ st.l
  le_hi : st.r ≤ hi
  left : lo ≤ st.left ∧ (st.left = lo ∨ st.left ≤ hi)
  right : st.right ≤ hi ∧ (st.right = hi ∨ lo - 1 ≤ st.right)
  matched : st.anyMatches = true → lo ≤ hi
  reads : IndexIn lo hi st.reads

theorem Within.step (h : Within lo hi st) (hr : st.l ≤ st.r) :
    Within lo hi (binStep mem stabs type st) := by
  have hmid := trueM_bounds hr
  have hlo := h.lo_le
  have hhi := h.le_hi
  obtain ⟨hle, hge⟩ := @stabScan_bounds mem stabs type st.l st.trueM
  have hscan := @stabScan_indexIn mem stabs type st.l st.trueM
  have hreads : IndexIn lo hi (st.reads ++ (stabScan mem stabs type st.l st.trueM).2) :=
    h.reads.append (hscan.mono hlo (by omega))
  unfold binStep
  generalize stabScan mem stabs type st.l st.trueM = scan at hle hge hreads ⊢
  obtain ⟨m, scanned⟩ := scan
  dsimp only at hle hge hreads ⊢
  by_cases hnone : m < st.l
  · rw [if_pos hnone]
    exact { h with lo_le := by dsimp only; omega, reads := hreads }
  · have hvalue : IndexIn lo hi (st.reads ++ scanned ++ [⟨m, .value⟩]) :=
      hreads.append (.cons ⟨by dsimp only; omega, by dsimp only; omega⟩ .nil)
    have hmatched : lo ≤ hi := by omega
    rw [if_neg hnone]
    split
    · exact { h with
        lo_le := by dsimp only; omega
        left := ⟨by dsimp only; omega, .inr (by dsimp only; omega)⟩
        matched := fun _ => hmatched
        reads := hvalue }
    · split
      · exact { h with
          le_hi := by dsimp only; omega
          right := ⟨by dsimp only; omega, .inr (by dsimp only; omega)⟩
          matched := fun _ => hmatched
          reads := hvalue }
      · exact { h with
          lo_le := by dsimp only; omega
          left := ⟨by dsimp only; omega, .inr (by dsimp only; omega)⟩
          matched := fun _ => hmatched
          reads := hvalue }

theorem Within.loop (h : Within lo hi st) (hrun : binLoop mem stabs type st = some st') :
    Within lo hi st' := by
  induction st using binLoop.induct mem stabs type with
  | case1 st hr hint ih =>
    rw [binLoop, dif_pos hr, if_pos hint] at hrun
    exact ih (h.step hr) hrun
  | case2 st hr hint =>
    rw [binLoop, dif_pos hr, if_neg hint] at hrun
    cases hrun
  | case3 st hr =>
    rw [binLoop, dif_neg hr] at hrun
    cases hrun
    exact h

/-- No sum overflows in a region of stabs with indices below `2 ^ 30`. -/
theorem Within.loop_isSome (h : Within lo hi st) (hlo : -3 ≤ lo) (hhi : hi < 1073741824) :
    (binLoop mem stabs type st).isSome := by
  induction st using binLoop.induct mem stabs type with
  | case1 st hr hint ih =>
    rw [binLoop, dif_pos hr, if_pos hint]
    exact ih (h.step hr)
  | case2 st hr hint =>
    have hlow := h.lo_le
    have hhigh := h.le_hi
    exact absurd ⟨by omega, by omega⟩ hint
  | case3 st hr =>
    rw [binLoop, dif_neg hr]
    rfl

theorem within_start : Within lo hi ⟨lo, hi, addr, lo, hi, false, []⟩ :=
  ⟨Int.le_refl lo, Int.le_refl hi, ⟨Int.le_refl lo, .inl rfl⟩, ⟨Int.le_refl hi, .inl rfl⟩,
    fun h => Bool.noConfusion h, .nil⟩

theorem stabBinsearch_isSome (hlo : -3 ≤ lo) (hhi : hi < 1073741824) :
    (stabBinsearch mem stabs type lo hi addr).isSome := by
  obtain ⟨st, hst⟩ := Option.isSome_iff_exists.mp
    (@Within.loop_isSome mem stabs type lo hi ⟨lo, hi, addr, lo, hi, false, []⟩ within_start hlo hhi)
  unfold stabBinsearch
  rw [hst, Option.bind_eq_bind, Option.bind_some]
  split <;> rfl

/-- The results of a search from `lo` to `hi`, and what it reads. -/
theorem stabBinsearch_spec {left right : Int} {reads : List StabRead}
    (h : stabBinsearch mem stabs type lo hi addr = some (left, right, reads)) :
    IndexIn lo hi reads ∧ lo - 1 ≤ left ∧ (left = lo ∨ left ≤ hi) ∧ lo - 1 ≤ right ∧
      (right = lo - 1 ∨ right ≤ hi) ∧ (hi < lo → left = lo ∧ reads = []) := by
  unfold stabBinsearch at h
  rw [Option.bind_eq_bind, Option.bind_eq_some_iff] at h
  obtain ⟨st, hrun, h⟩ := h
  have hempty : hi < lo → st = ⟨lo, hi, addr, lo, hi, false, []⟩ := by
    intro hlt
    have hr : ¬ lo ≤ hi := by omega
    rw [binLoop, dif_neg hr] at hrun
    exact (Option.some.inj hrun).symm
  obtain ⟨hlo, hhi, ⟨hleft, hleft'⟩, ⟨hright, hright'⟩, hmatched, hreads⟩ :=
    Within.loop within_start hrun
  by_cases hany : st.anyMatches = true
  · have hle := hmatched hany
    obtain ⟨hscanLe, hscanGe⟩ := @stabScan_bounds mem stabs type (st.left + 1) st.right
    have hscan := @stabScan_indexIn mem stabs type (st.left + 1) st.right
    have hscan' := hscan.mono (show lo ≤ st.left + 1 by omega) hright
    have hshort : ¬ st.left + 1 ≤ st.right →
        (stabScan mem stabs type (st.left + 1) st.right).1 = st.right := by
      intro hnot
      rw [stabScan, if_neg hnot]
    rw [if_pos hany] at h
    cases h
    refine ⟨hreads.append hscan', ?_, .inr ?_, ?_, .inr hright, fun hlt => ?_⟩
    · by_cases hne : st.left + 1 ≤ st.right
      · have hge := hscanGe (by omega)
        omega
      · rw [hshort hne]
        omega
    · omega
    · omega
    · omega
  · rw [if_neg hany] at h
    cases h
    refine ⟨hreads, by omega, hleft', by omega, ?_, fun hlt => ?_⟩
    · omega
    · rw [hempty hlt]
      exact ⟨rfl, rfl⟩

theorem fileScan_spec {lfile lline : Int} : IndexIn lfile lline (fileScan mem stabs lfile lline).2 ∧
    (fileScan mem stabs lfile lline).1 ≤ lline := by
  induction lline using fileScan.induct mem stabs lfile with
  | case1 lline hle htype =>
    rw [fileScan, if_pos hle, if_pos htype]
    exact ⟨.cons ⟨hle, Int.le_refl _⟩ .nil, Int.le_refl _⟩
  | case2 lline hle htype hother ih =>
    rw [fileScan, if_pos hle, if_neg htype, if_pos hother]
    have hrest := ih.1.mono (Int.le_refl lfile) (show lline - 1 ≤ lline by omega)
    exact ⟨.cons ⟨hle, Int.le_refl _⟩ hrest, by dsimp only; omega⟩
  | case3 lline hle htype hother hvalue ih =>
    rw [fileScan, if_pos hle, if_neg htype, if_neg hother, if_pos hvalue]
    have hrest := ih.1.mono (Int.le_refl lfile) (show lline - 1 ≤ lline by omega)
    exact ⟨.cons ⟨hle, Int.le_refl _⟩ (.cons ⟨hle, Int.le_refl _⟩ hrest), by dsimp only; omega⟩
  | case4 lline hle htype hother hvalue =>
    rw [fileScan, if_pos hle, if_neg htype, if_neg hother, if_neg hvalue]
    exact ⟨.cons ⟨hle, Int.le_refl _⟩ (.cons ⟨hle, Int.le_refl _⟩ .nil), Int.le_refl _⟩
  | case5 lline hle =>
    rw [fileScan, if_neg hle]
    exact ⟨.nil, Int.le_refl _⟩

theorem argScan_indexIn {lline rfun : Int} :
    IndexIn lline rfun (argScan mem stabs lline rfun).2 := by
  induction lline using argScan.induct mem stabs rfun with
  | case1 lline hlt htype ih =>
    rw [argScan, if_pos hlt, if_pos htype]
    exact .cons ⟨Int.le_refl _, Int.le_of_lt hlt⟩ (ih.mono (by omega) (Int.le_refl rfun))
  | case2 lline hlt htype =>
    rw [argScan, if_pos hlt, if_neg htype]
    exact .cons ⟨Int.le_refl _, Int.le_of_lt hlt⟩ .nil
  | case3 lline hlt =>
    rw [argScan, if_neg hlt]
    exact .nil

/-! ## The bytes that are read -/

/-- `a` is one of the bytes of the range `r`. -/
def InRange (r : Word × Word) (a : Word) : Prop :=
  r.1.toNat ≤ a.toNat ∧ a.toNat < r.1.toNat + r.2.toNat

/-- Every user address that is read lies in a range that passed a check before. -/
def ReadsValidated (ok : List (Word × Word)) : List EipAccess → Prop
  | [] => True
  | .checked va len :: es => ReadsValidated ((va, len) :: ok) es
  | .read a :: es => (a < ulim → ∃ r ∈ ok, InRange r a) ∧ ReadsValidated ok es

/-- There are only reads. -/
def OnlyReads (es : List EipAccess) : Prop := ∀ e ∈ es, ∃ a, e = .read a

variable {ok : List (Word × Word)} {es es' : List EipAccess} {a : Word} {n : Nat}

theorem readsValidated_append (h : OnlyReads es) : ReadsValidated ok (es ++ es') ↔
    (∀ a, .read a ∈ es → a < ulim → ∃ r ∈ ok, InRange r a) ∧ ReadsValidated ok es' := by
  induction es with
  | nil => exact ⟨fun hes => ⟨fun a ha => absurd ha List.not_mem_nil, hes⟩, fun hes => hes.2⟩
  | cons e es ih =>
    have hrest : OnlyReads es := fun e he => h e (List.mem_cons_of_mem _ he)
    obtain ⟨b, rfl⟩ := h e List.mem_cons_self
    rw [List.cons_append, ReadsValidated, ih hrest]
    constructor
    · rintro ⟨hb, hes, htail⟩
      refine ⟨fun a ha => ?_, htail⟩
      rcases List.mem_cons.mp ha with heq | ha
      · cases heq
        exact hb
      · exact hes a ha
    · rintro ⟨hall, htail⟩
      exact ⟨hall b List.mem_cons_self, fun a ha => hall a (List.mem_cons_of_mem _ ha), htail⟩

theorem readsValidated_iff (h : OnlyReads es) :
    ReadsValidated ok es ↔ ∀ a, .read a ∈ es → a < ulim → ∃ r ∈ ok, InRange r a := by
  have hiff := @readsValidated_append ok es [] h
  rw [List.append_nil] at hiff
  rw [hiff]
  exact and_iff_left trivial

theorem mem_readBytes {e : EipAccess} :
    e ∈ readBytes a n ↔ ∃ j, j < n ∧ e = .read (a + BitVec.ofNat 32 j) := by
  unfold readBytes
  rw [List.mem_map]
  constructor
  · rintro ⟨j, hj, rfl⟩
    exact ⟨j, List.mem_range.mp hj, rfl⟩
  · rintro ⟨j, hj, rfl⟩
    exact ⟨j, List.mem_range.mpr hj, rfl⟩

/-- `a` is one of the twelve bytes of `stabs[k]`. -/
def ByteOfStab (stabs : Word) (k : Int) (a : Word) : Prop :=
  ∃ j, j < 12 ∧ a = stabs + BitVec.ofInt 32 (12 * k) + BitVec.ofNat 32 j

theorem StabRead.mem_events {x : StabRead} {e : EipAccess} (h : e ∈ x.events stabs) :
    ∃ a, e = .read a ∧ ByteOfStab stabs x.k a := by
  obtain ⟨j, hj, rfl⟩ := mem_readBytes.mp h
  have hfield : x.field.offset + x.field.width ≤ 12 := by
    cases x.field <;> decide
  refine ⟨_, rfl, x.field.offset + j, by omega, ?_⟩
  rw [StabRead.addr, BitVec.add_assoc, ← BitVec.ofNat_add]

/-- What is read of a program: bytes of stabs from `lo` to `hi`, and of the string
table. -/
def ReadsWithin (t : UserStabData) (lo hi : Int) (es : List EipAccess) : Prop :=
  ∀ e ∈ es, ∃ a, e = .read a ∧
    ((∃ k, lo ≤ k ∧ k ≤ hi ∧ ByteOfStab t.stabs k a) ∨ InRange (t.stabstr, t.strSize) a)

theorem IndexIn.readsWithin {reads : List StabRead} (h : IndexIn lo hi reads) :
    ReadsWithin t lo hi (reads.flatMap (StabRead.events t.stabs)) := by
  intro e he
  obtain ⟨x, hx, he⟩ := List.mem_flatMap.mp he
  obtain ⟨a, rfl, ha⟩ := StabRead.mem_events he
  exact ⟨a, rfl, .inl ⟨x.k, (h x hx).1, (h x hx).2, ha⟩⟩

theorem ReadsWithin.append (h : ReadsWithin t lo hi es) (h' : ReadsWithin t lo hi es') :
    ReadsWithin t lo hi (es ++ es') := by
  intro e he
  rcases List.mem_append.mp he with he | he
  · exact h e he
  · exact h' e he

/-- A search in a string ends at its zero. -/
theorem strfind_reads {c : BitVec 8} {s : Word} {d : Nat} (hz : mem (s + BitVec.ofNat 32 d) = 0#8)
    {e : EipAccess} (he : e ∈ (strfind mem c n s).2) :
    ∃ j, j ≤ d ∧ e = .read (s + BitVec.ofNat 32 j) := by
  induction n generalizing s d with
  | zero => exact absurd he List.not_mem_nil
  | succ n ih =>
    have hfirst : s + BitVec.ofNat 32 0 = s := BitVec.add_zero s
    rw [strfind] at he
    split at he
    · rw [List.mem_singleton.mp he]
      exact ⟨0, Nat.zero_le d, by rw [hfirst]⟩
    · rename_i hgo
      rcases List.mem_cons.mp he with rfl | he
      · exact ⟨0, Nat.zero_le d, by rw [hfirst]⟩
      · cases d with
        | zero =>
          rw [hfirst] at hz
          exact absurd (.inl hz) hgo
        | succ d =>
          have hshift : ∀ j, s + 1#32 + BitVec.ofNat 32 j = s + BitVec.ofNat 32 (j + 1) := by
            intro j
            rw [Nat.add_comm j 1, BitVec.ofNat_add, BitVec.add_assoc]
          obtain ⟨j, hj, rfl⟩ := ih (s := s + 1#32) (d := d) (by rw [hshift]; exact hz) he
          exact ⟨j + 1, Nat.succ_le_succ hj, by rw [hshift]⟩

/-- The string table is not empty and its last byte is zero. -/
structure Terminated (mem : Word → BitVec 8) (t : UserStabData) : Prop where
  lt : t.stabstr < t.stabstrEnd
  last : mem (t.stabstrEnd - 1#32) = 0#8

theorem toNat_strSize (h : t.stabstr < t.stabstrEnd) :
    t.strSize.toNat = t.stabstrEnd.toNat - t.stabstr.toNat := by
  rw [BitVec.lt_def] at h
  exact BitVec.toNat_sub_of_le (BitVec.le_def.mpr (Nat.le_of_lt h))

/-- A name in the string table is searched within the table. -/
theorem Terminated.strfind_readsWithin (h : Terminated mem t) {c : BitVec 8} {x : Word}
    (hx : x < t.strSize) : ReadsWithin t lo hi (strfind mem c n (t.stabstr + x)).2 := by
  have hsize := toNat_strSize h.lt
  have hlt := h.lt
  have hendLt := t.stabstrEnd.isLt
  rw [BitVec.lt_def] at hlt hx
  have hstart : (t.stabstr + x).toNat = t.stabstr.toNat + x.toNat := by
    rw [BitVec.toNat_add]
    omega
  have hreach : t.stabstr + x + BitVec.ofNat 32 (t.stabstrEnd.toNat - 1 - (t.stabstr + x).toNat) =
      t.stabstrEnd - 1#32 := by
    refine BitVec.eq_of_toNat_eq ?_
    rw [BitVec.toNat_add, BitVec.toNat_ofNat, BitVec.toNat_sub_of_le (by bv_omega)]
    have hone : (1#32 : Word).toNat = 1 := rfl
    omega
  intro e he
  obtain ⟨j, hj, rfl⟩ := strfind_reads (by rw [hreach]; exact h.last) he
  refine ⟨_, rfl, .inr ?_⟩
  have hbyte : (t.stabstr + x + BitVec.ofNat 32 j).toNat = t.stabstr.toNat + x.toNat + j := by
    rw [BitVec.toNat_add, BitVec.toNat_ofNat]
    omega
  unfold InRange
  dsimp only
  omega

/-- The name of the function is unknown or in the string table. -/
def NameInTable (t : UserStabData) (info : Eipdebuginfo) : Prop :=
  ∀ s, info.eipFnName = some s → ∃ x, x < t.strSize ∧ s = t.stabstr + x

theorem nameInTable_stabName (h : info.eipFnName = none) {k : Int} {fnAddr : Word} :
    NameInTable t { info with
      eipFnName := (stabName mem t.stabs t.stabstr t.strSize k).or info.eipFnName
      eipFnAddr := fnAddr } := by
  intro s hs
  dsimp only at hs
  rw [h, Option.or_none] at hs
  unfold stabName at hs
  split at hs
  · rename_i hlt
    exact ⟨_, hlt, (Option.some.inj hs).symm⟩
  · cases hs

theorem searchLine_isSome {lfile lfun rfun lline rline : Int} (hlline : -2 ≤ lline)
    (hrline : rline < 1073741824) :
    (searchLine mem t info lfile lfun rfun lline rline addr).isSome := by
  obtain ⟨⟨left, right, reads⟩, hsearch⟩ := Option.isSome_iff_exists.mp
    (@stabBinsearch_isSome mem t.stabs addr nSLINE lline rline (by omega) hrline)
  unfold searchLine
  rw [hsearch]
  rfl

theorem searchLine_reads (h : Terminated mem t) (hname : NameInTable t info)
    {lfile lfun rfun lline rline : Int} (hlfile : -1 ≤ lfile) (hlfun : -2 ≤ lfun)
    (hrfun : rfun ≤ hi) (hlline : -2 ≤ lline) (hlline' : lline ≤ hi) (hrline : rline ≤ hi)
    (hrun : searchLine mem t info lfile lfun rfun lline rline addr = some (info', es)) :
    ReadsWithin t (-3) hi es := by
  unfold searchLine at hrun
  rw [Option.bind_eq_bind, Option.bind_eq_some_iff] at hrun
  obtain ⟨⟨left, right, reads⟩, hsearch, hrun⟩ := hrun
  obtain ⟨hreads, hleft, hleft', -, hright, -⟩ := stabBinsearch_spec hsearch
  have hstart : -3 ≤ left ∧ left ≤ hi := by omega
  obtain ⟨hfile, hfileLe⟩ := @fileScan_spec mem t.stabs lfile left
  dsimp only at hrun
  obtain ⟨-, rfl⟩ := Prod.mk.inj (Option.some.inj hrun)
  refine ReadsWithin.append ?_ (IndexIn.readsWithin ?_)
  · cases hfn : info.eipFnName with
    | none => exact fun e he => absurd he List.not_mem_nil
    | some s =>
      obtain ⟨x, hx, rfl⟩ := hname s hfn
      exact h.strfind_readsWithin hx
  · refine (((hreads.mono (by omega) hrline).append ?_).append ?_ |>.append ?_).append ?_
    · split
      · exact .cons hstart .nil
      · exact .nil
    · exact hfile.mono (by omega) hstart.2
    · split
      · rename_i hle
        exact .cons ⟨by dsimp only; omega, by dsimp only; omega⟩ .nil
      · exact .nil
    · split
      · exact argScan_indexIn.mono (by omega) hrfun
      · exact .nil

/-- What the search for the file leaves to the others. -/
theorem fileSearch_spec {lfile rfile : Int} {file : List StabRead}
    (h : stabBinsearch mem t.stabs nSO 0 (t.nstabs - 1) addr = some (lfile, rfile, file))
    (hne : lfile ≠ 0) : 0 < t.nstabs ∧ IndexIn (-3) (t.nstabs - 1) file ∧ -1 ≤ lfile ∧
      lfile ≤ t.nstabs - 1 ∧ rfile ≤ t.nstabs - 1 := by
  obtain ⟨hfile, hlfile, hlfile', -, hrfile, hempty⟩ := stabBinsearch_spec h
  have hsome : 0 < t.nstabs := by
    refine Int.not_le.mp fun hnone => hne (hempty ?_).1
    omega
  exact ⟨hsome, hfile.mono (by decide) (Int.le_refl _), by omega, by omega, by omega⟩

/-- The searches read stabs from the third one in front of the table to its last one, and
the string table. -/
theorem searchStabs_reads {ret : Int} (h : Terminated mem t) (hname : info.eipFnName = none)
    (hrun : searchStabs mem t info addr = some (ret, info', es)) :
    ReadsWithin t (-3) (t.nstabs - 1) es ∧ (t.nstabs ≤ 0 → es = []) := by
  unfold searchStabs at hrun
  rw [Option.bind_eq_bind, Option.bind_eq_some_iff] at hrun
  obtain ⟨⟨lfile, rfile, file⟩, hfileSearch, hrun⟩ := hrun
  dsimp only at hrun
  by_cases hzero : lfile = 0
  · obtain ⟨hfile, -, -, -, -, hempty⟩ := stabBinsearch_spec hfileSearch
    rw [if_pos hzero] at hrun
    cases hrun
    refine ⟨(hfile.mono (by decide) (Int.le_refl _)).readsWithin, fun hnone => ?_⟩
    rw [(hempty (by omega)).2]
    rfl
  · obtain ⟨hsome, hfile, hlfile, hlfile', hrfile⟩ := fileSearch_spec hfileSearch hzero
    rw [if_neg hzero, Option.bind_eq_some_iff] at hrun
    obtain ⟨⟨lfun, rfun, func⟩, hfunSearch, hrun⟩ := hrun
    obtain ⟨hfunc, hlfun, hlfun', -, hrfun, -⟩ := stabBinsearch_spec hfunSearch
    have hfunc' : IndexIn (-3) (t.nstabs - 1) func := hfunc.mono (by omega) hrfile
    refine ⟨?_, fun hnone => absurd hnone (Int.not_le.mpr hsome)⟩
    dsimp only at hrun
    by_cases hfound : lfun ≤ rfun
    · have hnamed : IndexIn (-3) (t.nstabs - 1) [⟨lfun, .strx⟩, ⟨lfun, .value⟩] :=
        .cons ⟨by dsimp only; omega, by dsimp only; omega⟩
          (.cons ⟨by dsimp only; omega, by dsimp only; omega⟩ .nil)
      rw [if_pos hfound, Option.bind_eq_bind, Option.bind_eq_some_iff] at hrun
      obtain ⟨⟨info₁, rest⟩, hline, hrun⟩ := hrun
      cases hrun
      refine ((hfile.append hfunc').append hnamed).readsWithin.append ?_
      exact searchLine_reads h (nameInTable_stabName hname) (by omega) (by omega) (by omega)
        (by omega) (by omega) (by omega) hline
    · rw [if_neg hfound, Option.bind_eq_bind, Option.bind_eq_some_iff] at hrun
      obtain ⟨⟨info₁, rest⟩, hline, hrun⟩ := hrun
      cases hrun
      refine (hfile.append hfunc').readsWithin.append ?_
      refine searchLine_reads h (fun s hs => ?_) (by omega) (by omega) (by omega)
        (by omega) (by omega) (by omega) hline
      dsimp only at hs
      rw [hname] at hs
      cases hs

/-- The searches in a table of at most `2 ^ 30` stabs have a result. -/
theorem searchStabs_isSome (h : t.nstabs ≤ 1073741824) :
    (searchStabs mem t info addr).isSome := by
  obtain ⟨⟨lfile, rfile, file⟩, hfileSearch⟩ := Option.isSome_iff_exists.mp
    (@stabBinsearch_isSome mem t.stabs addr nSO 0 (t.nstabs - 1) (by decide) (by omega))
  unfold searchStabs
  rw [hfileSearch, Option.bind_eq_bind, Option.bind_some]
  dsimp only
  by_cases hzero : lfile = 0
  · rw [if_pos hzero]
    rfl
  · obtain ⟨-, -, hlfile, hlfile', hrfile⟩ := fileSearch_spec hfileSearch hzero
    obtain ⟨⟨lfun, rfun, func⟩, hfunSearch⟩ := Option.isSome_iff_exists.mp
      (@stabBinsearch_isSome mem t.stabs addr nFUN lfile rfile (by omega) (by omega))
    obtain ⟨-, hlfun, -, -, hrfun, -⟩ := stabBinsearch_spec hfunSearch
    rw [if_neg hzero, hfunSearch, Option.bind_eq_bind, Option.bind_some]
    dsimp only
    split
    · obtain ⟨line, hline⟩ := Option.isSome_iff_exists.mp
        (@searchLine_isSome mem (addr - nValue mem t.stabs lfun) t
          { info with
            eipFnName := (stabName mem t.stabs t.stabstr t.strSize lfun).or info.eipFnName
            eipFnAddr := nValue mem t.stabs lfun } lfile lfun rfun lfun rfun (by omega) (by omega))
      rw [hline]
      rfl
    · obtain ⟨line, hline⟩ := Option.isSome_iff_exists.mp
        (@searchLine_isSome mem addr t { info with eipFnAddr := addr } lfile lfun rfun lfile rfile
          (by omega) (by omega))
      rw [hline]
      rfl

/-! ## The first stab of the search -/

theorem mem_stabScan (h : l ≤ m) : ⟨m, .type⟩ ∈ (stabScan mem stabs type l m).2 := by
  rw [stabScan, if_pos h]
  split
  · exact List.mem_cons_self
  · exact List.mem_cons_self

theorem binStep_reads : st.reads ++ (stabScan mem stabs type st.l st.trueM).2 ⊆
    (binStep mem stabs type st).reads := by
  unfold binStep
  generalize stabScan mem stabs type st.l st.trueM = scan
  obtain ⟨m, scanned⟩ := scan
  dsimp only
  split
  · exact List.Subset.refl _
  · split
    · exact List.subset_append_left _ _
    · split
      · exact List.subset_append_left _ _
      · exact List.subset_append_left _ _

theorem binLoop_reads (h : binLoop mem stabs type st = some st') : st.reads ⊆ st'.reads := by
  induction st using binLoop.induct mem stabs type with
  | case1 st hr hint ih =>
    rw [binLoop, dif_pos hr, if_pos hint] at h
    exact fun x hx => ih h (binStep_reads (List.mem_append_left _ hx))
  | case2 st hr hint =>
    rw [binLoop, dif_pos hr, if_neg hint] at h
    cases h
  | case3 st hr =>
    rw [binLoop, dif_neg hr] at h
    cases h
    exact List.Subset.refl _

/-- A search reads the type of the middle stab. -/
theorem stabBinsearch_middle {left right : Int} {reads : List StabRead} (hle : lo ≤ hi)
    (h : stabBinsearch mem stabs type lo hi addr = some (left, right, reads)) :
    ⟨(lo + hi).tdiv 2, .type⟩ ∈ reads := by
  have hmid := @trueM_bounds ⟨lo, hi, addr, lo, hi, false, []⟩ hle
  unfold stabBinsearch at h
  rw [Option.bind_eq_bind, Option.bind_eq_some_iff] at h
  obtain ⟨st, hrun, h⟩ := h
  have hloop : ⟨(lo + hi).tdiv 2, .type⟩ ∈ st.reads := by
    rw [binLoop, dif_pos hle] at hrun
    split at hrun
    · exact binLoop_reads hrun (binStep_reads (List.mem_append_right _ (mem_stabScan hmid.1)))
    · cases hrun
  split at h
  · cases h
    exact List.mem_append_left _ hloop
  · cases h
    exact hloop

/-- The stab in the middle of the table. -/
def UserStabData.middle (t : UserStabData) : Int := (t.nstabs - 1) / 2

/-- Where its type lies. -/
def UserStabData.middleType (t : UserStabData) : Word := StabRead.addr t.stabs ⟨t.middle, .type⟩

theorem read_middleType {ret : Int} (h : 0 < t.nstabs)
    (hrun : searchStabs mem t info addr = some (ret, info', es)) : .read t.middleType ∈ es := by
  have hmiddle : (0 + (t.nstabs - 1)).tdiv 2 = t.middle := by
    rw [Int.zero_add, Int.tdiv_eq_ediv_of_nonneg (by omega)]
    rfl
  have hevent : .read t.middleType ∈ StabRead.events t.stabs ⟨t.middle, .type⟩ :=
    mem_readBytes.mpr ⟨0, Nat.one_pos, by rw [BitVec.add_zero]; rfl⟩
  unfold searchStabs at hrun
  rw [Option.bind_eq_bind, Option.bind_eq_some_iff] at hrun
  obtain ⟨⟨lfile, rfile, file⟩, hsearch, hrun⟩ := hrun
  have hread := stabBinsearch_middle (show 0 ≤ t.nstabs - 1 by omega) hsearch
  rw [hmiddle] at hread
  have hfile : ∀ more : List StabRead,
      .read t.middleType ∈ (file ++ more).flatMap (StabRead.events t.stabs) :=
    fun more => List.mem_flatMap.mpr ⟨_, List.mem_append_left _ hread, hevent⟩
  dsimp only at hrun
  split at hrun
  · cases hrun
    exact List.mem_flatMap.mpr ⟨_, hread, hevent⟩
  · rw [Option.bind_eq_some_iff] at hrun
    obtain ⟨⟨lfun, rfun, func⟩, -, hrun⟩ := hrun
    dsimp only at hrun
    split at hrun
    · rw [Option.bind_eq_bind, Option.bind_eq_some_iff] at hrun
      obtain ⟨⟨info₁, rest⟩, -, hrun⟩ := hrun
      cases hrun
      rw [List.append_assoc]
      exact List.mem_append_left _ (hfile _)
    · rw [Option.bind_eq_bind, Option.bind_eq_some_iff] at hrun
      obtain ⟨⟨info₁, rest⟩, -, hrun⟩ := hrun
      cases hrun
      exact List.mem_append_left _ (hfile _)

/-! ## The checks -/

variable {check : Word → Word → Bool} {kern : UserStabData}

/-- `debuginfo_eip` returns before it looks at a stab: a check fails, the string table
is empty or not terminated, or there is no stab. -/
def StopsEarly (check : Word → Word → Bool) (mem : Word → BitVec 8) (t : UserStabData) : Prop :=
  check ustabdata 16#32 = false ∨ check t.stabs (BitVec.ofInt 32 t.nstabs) = false ∨
    check t.stabstr t.strSize = false ∨ ¬ Terminated mem t ∨ t.nstabs ≤ 0

/-- The ranges that are checked: `*usd`, the stabs by their number, and the string
table. -/
def UserStabData.ranges (t : UserStabData) : List (Word × Word) :=
  [(t.stabstr, t.strSize), (t.stabs, BitVec.ofInt 32 t.nstabs), (ustabdata, 16#32)]

/-- Each user address of the stabs that a search may get to lies in a range that is
checked, and there are no more stabs than an `int` has room for in the sums. -/
structure StabsValidated (t : UserStabData) : Prop where
  few : t.nstabs ≤ 1073741824
  stab : ∀ k, -3 ≤ k → k ≤ t.nstabs - 1 → ∀ a, ByteOfStab t.stabs k a → a < ulim →
    ∃ r ∈ t.ranges, InRange r a

/-- The type of the middle stab is at a user address that belongs to none of the ranges. -/
structure MiddleApart (t : UserStabData) : Prop where
  user : t.middleType < ulim
  apart : ∀ r ∈ t.ranges, ¬ InRange r t.middleType

theorem toNat_ofInt_of_nonneg {i : Int} (h : 0 ≤ i) (hlt : i < 4294967296) :
    (BitVec.ofInt 32 i).toNat = i.toNat := by
  rw [BitVec.toNat_ofInt]
  omega

/-- Up to the number of stabs there can be between two pointers, the type of the middle
stab is behind as many bytes as there are stabs. -/
theorem middleType_notInRange (h : 0 < t.nstabs) (hfew : t.nstabs < 178956971) :
    ¬ InRange (t.stabs, BitVec.ofInt 32 t.nstabs) t.middleType := by
  have hstabs := t.stabs.isLt
  have hlen : (BitVec.ofInt 32 t.nstabs).toNat = t.nstabs.toNat :=
    toNat_ofInt_of_nonneg (by omega) (by omega)
  have hmiddle : 0 ≤ t.middle ∧ 2 * t.middle ≤ t.nstabs - 1 ∧ t.nstabs - 2 ≤ 2 * t.middle := by
    unfold UserStabData.middle
    omega
  have hoffset : (BitVec.ofInt 32 (12 * t.middle)).toNat = (12 * t.middle).toNat :=
    toNat_ofInt_of_nonneg (by omega) (by omega)
  have haddr : t.middleType.toNat = (t.stabs.toNat + (12 * t.middle).toNat + 4) % 2 ^ 32 := by
    have htype : t.middleType = t.stabs + BitVec.ofInt 32 (12 * t.middle) + 4#32 := rfl
    have hfour : (4#32 : Word).toNat = 4 := rfl
    rw [htype, BitVec.toNat_add, BitVec.toNat_add, hoffset, hfour]
    omega
  unfold InRange
  rw [hlen, haddr]
  dsimp only
  rcases Nat.lt_or_ge (t.stabs.toNat + (12 * t.middle).toNat + 4) (2 ^ 32) with hlt | hwrap
  · rw [Nat.mod_eq_of_lt hlt]
    omega
  · rw [Nat.mod_eq_sub_mod hwrap, Nat.mod_eq_of_lt (by omega)]
    omega

/-- In a table of whole stabs, it is enough that the type of the middle one belongs
neither to `*usd` nor to the string table. -/
theorem middleApart_of_whole {k : Int} (hwhole : (t.stabEnd - t.stabs).toInt = 12 * k)
    (hk : 0 < k) (hulim : t.middleType < ulim) (hblock : ¬ InRange (ustabdata, 16#32) t.middleType)
    (hstring : ¬ InRange (t.stabstr, t.strSize) t.middleType) : MiddleApart t := by
  have hnstabs := nstabs_of_whole hwhole
  have hhi := BitVec.toInt_lt (x := t.stabEnd - t.stabs)
  refine ⟨hulim, fun r hr => ?_⟩
  rcases List.mem_cons.mp hr with rfl | hr
  · exact hstring
  · rcases List.mem_cons.mp hr with rfl | hr
    · exact middleType_notInRange (by omega) (by omega)
    · rw [List.mem_singleton.mp hr]
      exact hblock

theorem userStabData_readsValidated : OnlyReads (readBytes ustabdata 16) ∧
    ∀ a, .read a ∈ readBytes ustabdata 16 → InRange (ustabdata, 16#32) a := by
  refine ⟨fun e he => ?_, fun a ha => ?_⟩
  · obtain ⟨j, -, rfl⟩ := mem_readBytes.mp he
    exact ⟨_, rfl⟩
  · obtain ⟨j, hj, heq⟩ := mem_readBytes.mp ha
    cases heq
    have hbase : ustabdata.toNat = 2097152 := rfl
    have hlen : (16#32 : Word).toNat = 16 := rfl
    have hbyte : (ustabdata + BitVec.ofNat 32 j).toNat = 2097152 + j := by
      rw [BitVec.toNat_add, BitVec.toNat_ofNat, hbase]
      omega
    unfold InRange
    rw [hbyte, hbase, hlen]
    omega

/-- The call has a result, and every user address that it reads lies in a range that
passed a check before. -/
def Validated (ok : List (Word × Word)) (run : Option (Int × Eipdebuginfo × List EipAccess)) :
    Prop :=
  ∃ ret info es, run = some (ret, info, es) ∧ ReadsValidated ok es

theorem validated_some {ret : Int} {info : Eipdebuginfo} :
    Validated ok (some (ret, info, es)) ↔ ReadsValidated ok es := by
  constructor
  · rintro ⟨ret', info', es', heq, h⟩
    cases heq
    exact h
  · intro h
    exact ⟨ret, info, es, rfl, h⟩

/-- The reads behind the checks decide. -/
theorem debuginfoEip_validated_iff (haddr : addr < ulim) :
    Validated [] (debuginfoEip mem check kern addr) ↔
      (check ustabdata 16#32 = true →
        check (userStabData mem).stabs (BitVec.ofInt 32 (userStabData mem).nstabs) = true →
        check (userStabData mem).stabstr (userStabData mem).strSize = true →
        Validated (userStabData mem).ranges (debuginfoTable mem (userStabData mem) addr)) := by
  obtain ⟨honly, hblock⟩ := userStabData_readsValidated
  have hok : ∀ a, .read a ∈ readBytes ustabdata 16 → a < ulim →
      ∃ r ∈ [(ustabdata, 16#32)], InRange r a :=
    fun a ha _ => ⟨_, List.mem_singleton_self _, hblock a ha⟩
  have hkernel : ¬ ulim ≤ addr := BitVec.not_le.mpr haddr
  unfold debuginfoEip
  rw [if_neg hkernel]
  by_cases husd : check ustabdata 16#32 = true
  · rw [if_pos husd]
    dsimp only
    generalize userStabData mem = t
    by_cases hstabs : check t.stabs (BitVec.ofInt 32 t.nstabs) = true
    · rw [if_pos hstabs]
      by_cases hstr : check t.stabstr t.strSize = true
      · rw [if_pos hstr]
        cases debuginfoTable mem t addr with
        | none =>
          refine iff_of_false ?_ fun h => ?_
          · rintro ⟨ret, info, es, heq, -⟩
            cases heq
          · obtain ⟨ret, info, es, heq, -⟩ := h husd hstabs hstr
            cases heq
        | some table =>
          obtain ⟨ret, info, rest⟩ := table
          rw [Option.bind_eq_bind, Option.bind_some]
          dsimp only
          rw [validated_some, validated_some, List.cons_append, ReadsValidated,
            readsValidated_append honly]
          exact ⟨fun h _ _ _ => h.2, fun h => ⟨hok, h husd hstabs hstr⟩⟩
      · rw [if_neg hstr, validated_some, List.cons_append, ReadsValidated,
          readsValidated_append honly]
        exact iff_of_true ⟨hok, trivial⟩ fun _ _ h => absurd h hstr
    · rw [if_neg hstabs, validated_some, ReadsValidated, readsValidated_iff honly]
      exact iff_of_true hok fun _ h => absurd h hstabs
  · rw [if_neg husd, validated_some]
    exact iff_of_true trivial fun h => absurd h husd

/-- The string table's last byte is read, and then the searches begin. -/
theorem debuginfoTable_validated_iff : Validated t.ranges (debuginfoTable mem t addr) ↔
    (Terminated mem t → ∃ ret info es,
      searchStabs mem t (unknownInfo addr) addr = some (ret, info, es) ∧
      ∀ a, .read a ∈ es → a < ulim → ∃ r ∈ t.ranges, InRange r a) := by
  unfold debuginfoTable
  by_cases hlt : t.stabstr < t.stabstrEnd
  · have hle : ¬ t.stabstrEnd ≤ t.stabstr := BitVec.not_le.mpr hlt
    have hsize := toNat_strSize hlt
    have hlast : InRange (t.stabstr, t.strSize) (t.stabstrEnd - 1#32) := by
      have hone : (1#32 : Word).toNat = 1 := rfl
      rw [BitVec.lt_def] at hlt
      unfold InRange
      rw [BitVec.toNat_sub_of_le (BitVec.le_def.mpr (by omega)), hone, hsize]
      dsimp only
      omega
    have hok : t.stabstrEnd - 1#32 < ulim → ∃ r ∈ t.ranges, InRange r (t.stabstrEnd - 1#32) :=
      fun _ => ⟨_, List.mem_cons_self, hlast⟩
    rw [if_neg hle]
    dsimp only
    by_cases hz : mem (t.stabstrEnd - 1#32) = 0#8
    · have hterm : Terminated mem t := ⟨hlt, hz⟩
      rw [if_neg (not_not.mpr hz)]
      cases hrun : searchStabs mem t (unknownInfo addr) addr with
      | none =>
        refine iff_of_false ?_ fun h => ?_
        · rintro ⟨ret, info, es, heq, -⟩
          cases heq
        · obtain ⟨ret, info, es, heq, -⟩ := h hterm
          cases heq
      | some search =>
        obtain ⟨ret, info, rest⟩ := search
        have honly : OnlyReads rest := by
          intro e he
          obtain ⟨a, rfl, -⟩ := (searchStabs_reads hterm rfl hrun).1 e he
          exact ⟨a, rfl⟩
        rw [Option.bind_eq_bind, Option.bind_some]
        dsimp only
        rw [validated_some, ReadsValidated, readsValidated_iff honly]
        constructor
        · exact fun h _ => ⟨_, _, _, rfl, h.2⟩
        · intro h
          obtain ⟨ret', info', es', heq, hall⟩ := h hterm
          cases heq
          exact ⟨hok, hall⟩
    · rw [if_pos hz, validated_some]
      exact iff_of_true ⟨hok, trivial⟩ fun hterm => absurd hterm.last hz
  · have hle : t.stabstrEnd ≤ t.stabstr := BitVec.not_lt.mp hlt
    rw [if_pos hle, validated_some]
    exact iff_of_true trivial fun hterm => absurd hterm.lt hlt

/-- When the checks pass, the type of the middle stab is read. -/
theorem debuginfoEip_middle (haddr : addr < ulim) (ht : userStabData mem = t)
    (husd : check ustabdata 16#32 = true)
    (hstabs : check t.stabs (BitVec.ofInt 32 t.nstabs) = true)
    (hstr : check t.stabstr t.strSize = true) (hterm : Terminated mem t) (hsome : 0 < t.nstabs)
    (hfew : t.nstabs ≤ 1073741824) : ∃ ret info es,
      debuginfoEip mem check kern addr = some (ret, info, es) ∧ .read t.middleType ∈ es := by
  have hkernel : ¬ ulim ≤ addr := BitVec.not_le.mpr haddr
  have hle : ¬ t.stabstrEnd ≤ t.stabstr := BitVec.not_le.mpr hterm.lt
  obtain ⟨⟨ret, info, es⟩, hrun⟩ := Option.isSome_iff_exists.mp
    (@searchStabs_isSome mem addr t (unknownInfo addr) hfew)
  have htable : debuginfoTable mem t addr =
      some (ret, info, .read (t.stabstrEnd - 1#32) :: es) := by
    unfold debuginfoTable
    rw [if_neg hle]
    dsimp only
    rw [if_neg (not_not.mpr hterm.last), hrun]
    rfl
  unfold debuginfoEip
  rw [if_neg hkernel, if_pos husd]
  dsimp only
  rw [ht, if_pos hstabs, if_pos hstr, htable]
  refine ⟨ret, info, _, rfl, List.mem_append_right _ ?_⟩
  exact List.mem_cons_of_mem _ (List.mem_cons_of_mem _ (List.mem_cons_of_mem _
    (read_middleType hsome hrun)))

/-! ## When every read is validated -/

/-- Whether `user_mem_check` of an environment with page directory `d` returns 0. -/
def userMemChecks (M : Machine) (m : PMap) (d : Nat) (va len : Word) : Bool :=
  userMemCheck M m (some d) va len 0#32 = .ok none

/-- `debuginfo_eip` has a result, and every user address that it reads lies in a range
that it checked before. -/
def EipReadsValidated (check : Word → Word → Bool) (mem : Word → BitVec 8) (kern : UserStabData)
    (addr : Word) : Prop :=
  Validated [] (debuginfoEip mem check kern addr)

/-- The reads are validated when `debuginfo_eip` returns early, or when the other ranges make
up for what the check of the stabs leaves out.  Where none of the ranges reaches the stab
that is looked at first, it has to return early. -/
structure EipContract (check : Word → Word → Bool) (mem : Word → BitVec 8) (kern : UserStabData)
    (addr : Word) : Prop where
  enough : StopsEarly check mem (userStabData mem) ∨ StabsValidated (userStabData mem) →
    EipReadsValidated check mem kern addr
  exact : MiddleApart (userStabData mem) →
    (EipReadsValidated check mem kern addr ↔ StopsEarly check mem (userStabData mem))

theorem EipReadsValidated.of_early (haddr : addr < ulim)
    (h : StopsEarly check mem (userStabData mem)) : EipReadsValidated check mem kern addr := by
  refine (debuginfoEip_validated_iff haddr).mpr fun husd hstabs hstr => ?_
  refine debuginfoTable_validated_iff.mpr fun hterm => ?_
  rcases h with hno | hno | hno | hno | hnone
  · exact absurd husd (by rw [hno]; exact Bool.false_ne_true)
  · exact absurd hstabs (by rw [hno]; exact Bool.false_ne_true)
  · exact absurd hstr (by rw [hno]; exact Bool.false_ne_true)
  · exact absurd hterm hno
  · obtain ⟨⟨ret, info, es⟩, hrun⟩ := Option.isSome_iff_exists.mp
      (@searchStabs_isSome mem addr (userStabData mem) (unknownInfo addr) (by omega))
    refine ⟨ret, info, es, hrun, fun a ha => ?_⟩
    rw [(searchStabs_reads hterm rfl hrun).2 hnone] at ha
    exact absurd ha List.not_mem_nil

theorem EipReadsValidated.of_stabs (haddr : addr < ulim) (h : StabsValidated (userStabData mem)) :
    EipReadsValidated check mem kern addr := by
  refine (debuginfoEip_validated_iff haddr).mpr fun _ _ _ => ?_
  refine debuginfoTable_validated_iff.mpr fun hterm => ?_
  obtain ⟨⟨ret, info, es⟩, hrun⟩ := Option.isSome_iff_exists.mp
    (@searchStabs_isSome mem addr (userStabData mem) (unknownInfo addr) h.few)
  refine ⟨ret, info, es, hrun, fun a ha hulim => ?_⟩
  obtain ⟨b, heq, hbyte⟩ := (searchStabs_reads hterm rfl hrun).1 _ ha
  cases heq
  rcases hbyte with ⟨k, hlo, hhi, hbyte⟩ | hstr
  · exact h.stab k hlo hhi a hbyte hulim
  · exact ⟨_, List.mem_cons_self, hstr⟩

/-- The stab that is looked at first is not validated. -/
theorem EipReadsValidated.stopsEarly (haddr : addr < ulim)
    (h : EipReadsValidated check mem kern addr) (hapart : MiddleApart (userStabData mem)) :
    StopsEarly check mem (userStabData mem) := by
  by_contra hlate
  have husd := Bool.of_not_eq_false fun h => hlate (.inl h)
  have hstabs := Bool.of_not_eq_false fun h => hlate (.inr (.inl h))
  have hstr := Bool.of_not_eq_false fun h => hlate (.inr (.inr (.inl h)))
  have hterm := Classical.not_not.mp fun h => hlate (.inr (.inr (.inr (.inl h))))
  have hsome : 0 < (userStabData mem).nstabs :=
    Int.not_le.mp fun h => hlate (.inr (.inr (.inr (.inr h))))
  have htable := (debuginfoEip_validated_iff haddr).mp h husd hstabs hstr
  obtain ⟨ret, info, es, hrun, hall⟩ := debuginfoTable_validated_iff.mp htable hterm
  obtain ⟨r, hr, hin⟩ := hall _ (read_middleType hsome hrun) hapart.user
  exact hapart.apart r hr hin

/-- The directory in page 1 maps the pages from `0x200000`, from `0x201000` and from
`0x203000`. -/
def stabsMap : PMap :=
  { ppRef := fun _ => 0#16, ppLink := fun _ => none, pageFreeList := none
    mem := fun page index =>
      if page = 1 ∧ index = 0 then 0x2007#32
      else if page = 2 ∧ (index = 0x200 ∨ index = 0x201 ∨ index = 0x203) then 0x4007#32
      else 0#32 }

/-- A program whose memory begins with `bytes` at `USTABDATA`, and is zero behind them. -/
def blockMem (bytes : List (BitVec 8)) (a : Word) : BitVec 8 :=
  if a < ustabdata then 0#8 else bytes.getD (a.toNat - ustabdata.toNat) 0#8

/-- One stab at `0x200040`, and a string table from `0x200010` to `0x200100`. -/
def stringsMem : Word → BitVec 8 :=
  blockMem [0x40#8, 0x00#8, 0x20#8, 0x00#8, 0x4c#8, 0x00#8, 0x20#8, 0x00#8, 0x10#8, 0x00#8, 0x20#8,
    0x00#8, 0x00#8, 0x01#8, 0x20#8, 0x00#8]

theorem userStabData_stringsMem :
    userStabData stringsMem = ⟨0x200040#32, 0x20004c#32, 0x200010#32, 0x200100#32⟩ := by
  decide +kernel

/-- The stabs that a search may get to lie in the string table. -/
theorem stabsValidated_stringsMem : StabsValidated (userStabData stringsMem) := by
  rw [userStabData_stringsMem]
  have hnstabs : UserStabData.nstabs ⟨0x200040#32, 0x20004c#32, 0x200010#32, 0x200100#32⟩ = 1 :=
    rfl
  refine ⟨by rw [hnstabs]; decide, fun k hlo hhi a ha _ => ?_⟩
  obtain ⟨j, hj, rfl⟩ := ha
  rw [hnstabs] at hhi
  refine ⟨(0x200010#32, 0xf0#32), List.mem_cons_self, ?_⟩
  have hstart : (0x200040#32 : Word).toNat = 2097216 := rfl
  have hstr : (0x200010#32 : Word).toNat = 2097168 ∧ (0xf0#32 : Word).toNat = 240 := ⟨rfl, rfl⟩
  have hbyte : (0x200040#32 + BitVec.ofInt 32 (12 * k) + BitVec.ofNat 32 j).toNat =
      (2097216 + 12 * k).toNat + j := by
    rw [BitVec.toNat_add, BitVec.toNat_add, hstart, BitVec.toNat_ofInt, BitVec.toNat_ofNat]
    omega
  unfold InRange
  dsimp only
  rw [hbyte, hstr.1, hstr.2]
  omega

/-- One stab that begins in the last byte of a page, and a string table of one byte. -/
def stabsMem : Word → BitVec 8 :=
  blockMem [0xff#8, 0x1f#8, 0x20#8, 0x00#8, 0x0b#8, 0x20#8, 0x20#8, 0x00#8, 0x00#8, 0x30#8, 0x20#8,
    0x00#8, 0x01#8, 0x30#8, 0x20#8, 0x00#8]

theorem stabsMem_checks : userMemChecks (pc .roundRobin) stabsMap 1 ustabdata 16#32 = true ∧
    userMemChecks (pc .roundRobin) stabsMap 1 0x201fff#32 1#32 = true ∧
    userMemChecks (pc .roundRobin) stabsMap 1 0x203000#32 1#32 = true := by
  decide +kernel

theorem userStabData_stabsMem :
    userStabData stabsMem = ⟨0x201fff#32, 0x20200b#32, 0x203000#32, 0x203001#32⟩ := by
  decide +kernel

end Jos
end Sisop

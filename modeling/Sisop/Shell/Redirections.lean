import Sisop.Shell.Accounts
import Sisop.Shell.Exec

/-!
# Redirections from left to right

The redirections of a command mean what they do one after the other: each opens
its file and puts it in the place of a descriptor, and `2>&1` puts what the standard
output is by then in the place of the standard error.

The parser keeps the last redirection of each descriptor, and `exec_cmd` carries
out those three in the order of the descriptors.  Files are opened by `openFile`,
which may create them: what can be opened depends on what was opened before.
-/

namespace Sisop
namespace Shell

open Descriptors

inductive Redir
  | input (file : List Byte)
  | output (file : List Byte)
  | error (file : List Byte)
  | errorToOutput
  deriving DecidableEq, Repr

namespace Redir

/-- The descriptor that is redirected. -/
def fd : Redir → Nat
  | input _ => stdinFileno
  | output _ => stdoutFileno
  | error _ => stderrFileno
  | errorToOutput => stderrFileno

/-- What the parser keeps as the name of the file. -/
def name : Redir → List Byte
  | input file => file
  | output file => file
  | error file => file
  | errorToOutput => ampOne

/-- `<f`, `>f`, `2>f` and `2>&1`. -/
def token : Redir → List Byte
  | input file => chr '<' :: file
  | output file => chr '>' :: file
  | error file => chr '2' :: chr '>' :: file
  | errorToOutput => chr '2' :: chr '>' :: ampOne

/-- The token says what the redirection is. -/
def Named : Redir → Prop
  | input file => file ≠ [] ∧ chr '>' ∉ file
  | output file => file ≠ []
  | error file => file ≠ [] ∧ file ≠ ampOne
  | errorToOutput => True

end Redir

/-- The redirection that a token is. -/
def redirection : List Byte → Option Redir
  | [] => none
  | b :: file =>
    if b = chr '<' then some (.input file)
    else if b = chr '>' then some (.output file)
    else if b = chr '2' ∧ file.head? = some (chr '>') then
      some (if file.tail = ampOne then .errorToOutput else .error file.tail)
    else none

/-- The redirections of a command string, from left to right. -/
def redirections (buf : List Byte) : List Redir := (tokens buf).filterMap redirection

/-- The tokens with an operator are redirections. -/
def WellFormed (buf : List Byte) : Prop :=
  ∀ tok ∈ tokens buf, IsRedirection tok → ∃ r : Redir, r.Named ∧ tok = r.token

/-- The last redirection of a descriptor. -/
def lastFor (fd : Nat) (rs : List Redir) : Option Redir := (rs.filter (·.fd = fd)).getLast?

/-- The redirections that are carried out: the last of each descriptor, in the order
of the descriptors. -/
def effective (rs : List Redir) : List Redir :=
  (lastFor stdinFileno rs).toList ++ (lastFor stdoutFileno rs).toList ++
    (lastFor stderrFileno rs).toList

variable {σ : Type} (openFile : σ → List Byte → OpenFlags → Option σ)

/-- The files when that of a redirection has been opened. -/
def Redir.opened (t : σ) : Redir → Option σ
  | .input file => openFile t file .rdonly
  | .output file => openFile t file .wronlyCreatTrunc
  | .error file => openFile t file .wronlyCreatTrunc
  | .errorToOutput => some t

def Redir.apply (fds : Fds) : Redir → Fds
  | .input file => fds.set stdinFileno (some ⟨.file file .rdonly, false⟩)
  | .output file => fds.set stdoutFileno (some ⟨.file file .wronlyCreatTrunc, false⟩)
  | .error file => fds.set stderrFileno (some ⟨.file file .wronlyCreatTrunc, false⟩)
  | .errorToOutput => fds.set stderrFileno (fds.get stdoutFileno)

/-- A redirection, on the files and the descriptors. -/
def Redir.run (p : σ × Fds) (r : Redir) : Option (σ × Fds) :=
  (r.opened openFile p.1).map fun t => (t, r.apply p.2)

/-- The redirections one after the other, until one of them fails. -/
def leftToRight (p : σ × Fds) (rs : List Redir) : Option (σ × Fds) :=
  rs.foldlM (Redir.run openFile) p

/-! ## What `exec_cmd` finds -/

/-- The files when that of a name, if there is one, has been opened. -/
def openNamed (t : σ) (file : List Byte) (flags : OpenFlags) : Option σ :=
  if file = [] then some t else openFile t file flags

/-- Which redirections of the command find a file that can be opened, the earlier
ones having been carried out. -/
def ExecCmd.filesFound (t : σ) (c : ExecCmd) : Files where
  opens _ fd :=
    let input := openNamed openFile t c.inFile .rdonly
    let output := input.bind (openNamed openFile · c.outFile .wronlyCreatTrunc)
    if fd = stdinFileno then (openFile t c.inFile .rdonly).isSome
    else if fd = stdoutFileno then (input.bind (openFile · c.outFile .wronlyCreatTrunc)).isSome
    else (output.bind (openFile · c.errFile .wronlyCreatTrunc)).isSome

/-- The command is parsed, and a program that is run finds at 0, 1 and 2 what the
redirections leave there from left to right. -/
def RunsLeftToRight (arr : Arrays) (env : Environ) (proc : Proc) (t : σ) (fds : Fds)
    (buf : List Byte) : Prop :=
  ∃ c, parseExec arr env buf = some (.exec c) ∧
    ∀ g, (c.filesFound openFile t).runExec proc c fds = .execvp g →
      ∃ p, leftToRight openFile (t, fds) (redirections buf) = some p ∧
        ∀ i, i < 3 → g.exec.get i = p.2.get i

/-- The files of all the redirections can be opened, one after the other. -/
def CanOpen (t : σ) (rs : List Redir) : Prop := (rs.foldlM (Redir.opened openFile) t).isSome

/-- The standard output that the last `2>&1` takes is the one there is in the end,
unless the standard error is redirected again. -/
def Settled (fds : Fds) (rs : List Redir) : Prop :=
  ∀ pre post, rs = pre ++ .errorToOutput :: post → (∀ r ∈ post, r.fd ≠ stderrFileno) →
    (pre.foldl Redir.apply fds).get stdoutFileno = (rs.foldl Redir.apply fds).get stdoutFileno

variable {openFile} {arr : Arrays} {env : Environ} {c c' : ExecCmd} {buf tok : List Byte}
  {rs : List Redir} {r : Redir}
  {t t' : σ} {p : σ × Fds} {k : Files} {proc : Proc} {fds g : Fds} {i : Nat}

/-! ## The redirections that are kept -/

theorem lastFor_concat (fd : Nat) (rs : List Redir) (r : Redir) :
    lastFor fd (rs ++ [r]) = if r.fd = fd then some r else lastFor fd rs := by
  unfold lastFor
  rw [List.filter_append]
  by_cases h : r.fd = fd
  · rw [if_pos h, List.filter_cons_of_pos (by simpa using h), List.filter_nil, List.getLast?_concat]
  · rw [if_neg h, List.filter_cons_of_neg (by simpa using h), List.filter_nil, List.append_nil]

theorem mem_of_lastFor {fd : Nat} (h : lastFor fd rs = some r) : r ∈ rs ∧ r.fd = fd := by
  have hmem := List.mem_filter.mp (List.mem_of_getLast? h)
  exact ⟨hmem.1, by simpa using hmem.2⟩

/-- What the parser keeps of a redirection. -/
def ExecCmd.addRedir (c : ExecCmd) : Redir → ExecCmd
  | .input file => { c with inFile := file, type := .redir }
  | .output file => { c with outFile := file, type := .redir }
  | .error file => { c with errFile := file, type := .redir }
  | .errorToOutput => { c with errFile := ampOne, type := .redir }

theorem addToken_redir (h : r.Named) :
    c.addToken arr env r.token = some (c.addRedir r) := by
  cases r with
  | input file => exact addToken_input h.2
  | output file => exact addToken_output
  | error file => exact addToken_error
  | errorToOutput => exact addToken_error

theorem redirection_token (h : r.Named) : redirection r.token = some r := by
  cases r with
  | input file =>
    rw [Redir.token, redirection, if_pos rfl]
  | output file =>
    rw [Redir.token, redirection, if_neg (by decide), if_pos rfl]
  | error file =>
    have hne : file ≠ ampOne := h.2
    rw [Redir.token, redirection, if_neg (by decide), if_neg (by decide), if_pos ⟨rfl, rfl⟩,
      List.tail_cons, if_neg hne]
  | errorToOutput =>
    rfl

theorem redirection_plain (h : ¬ IsRedirection tok) : redirection tok = none := by
  cases tok with
  | nil => rfl
  | cons b file =>
    have hin : b ≠ chr '<' := fun heq => h (.inr (heq ▸ List.mem_cons_self))
    have hout : b ≠ chr '>' := fun heq => h (.inl (heq ▸ List.mem_cons_self))
    have herr : ¬ (b = chr '2' ∧ file.head? = some (chr '>')) := by
      rintro ⟨-, hhead⟩
      exact h (.inl (List.mem_cons_of_mem _ (List.mem_of_head? hhead)))
    rw [redirection, if_neg hin, if_neg hout, if_neg herr]

/-- The command has the names of the last redirections. -/
structure Keeps (c : ExecCmd) (rs : List Redir) : Prop where
  type : c.type = .redir ↔ rs ≠ []
  file : ∀ fd, fd < 3 → c.redirFile fd = ((lastFor fd rs).map Redir.name).getD []

theorem Keeps.addRedir (h : Keeps c rs) (r : Redir) : Keeps (c.addRedir r) (rs ++ [r]) := by
  constructor
  · refine iff_of_true ?_ (List.append_ne_nil_of_right_ne_nil _ (List.cons_ne_nil _ _))
    cases r <;> rfl
  · intro fd hfd
    have hold := h.file fd hfd
    rw [lastFor_concat]
    have hcases : fd = 0 ∨ fd = 1 ∨ fd = 2 := by omega
    rcases hcases with rfl | rfl | rfl
    · cases r with
      | input file => rfl
      | output file => exact hold
      | error file => exact hold
      | errorToOutput => exact hold
    · cases r with
      | input file => exact hold
      | output file => rfl
      | error file => exact hold
      | errorToOutput => exact hold
    · cases r with
      | input file => exact hold
      | output file => exact hold
      | error file => rfl
      | errorToOutput => rfl

theorem addToken_keeps (h : Keeps c rs) (hplain : ¬ IsRedirection tok)
    (hadd : c.addToken arr env tok = some c') : Keeps c' rs := by
  obtain ⟨hredir, -⟩ | ⟨-, -, rfl⟩ | ⟨-, -, w, -, ⟨-, -, rfl⟩ | ⟨-, rfl⟩⟩ := addToken_cases hadd
  · exact absurd hredir hplain
  · exact ⟨h.type, h.file⟩
  · exact ⟨h.type, h.file⟩
  · exact h

/-- The parser keeps the last redirection of each descriptor. -/
theorem foldlM_keeps (toks : List (List Byte)) (h : Keeps c rs)
    (hwell : ∀ tok ∈ toks, IsRedirection tok → ∃ r : Redir, r.Named ∧ tok = r.token)
    (hrun : toks.foldlM (ExecCmd.addToken arr env) c = some c') :
    Keeps c' (rs ++ toks.filterMap redirection) := by
  induction toks generalizing c rs with
  | nil =>
    cases hrun
    rw [List.filterMap_nil, List.append_nil]
    exact h
  | cons tok toks ih =>
    have hrest : ∀ tok ∈ toks, IsRedirection tok → ∃ r : Redir, r.Named ∧ tok = r.token :=
      fun tok htok => hwell tok (List.mem_cons_of_mem _ htok)
    rw [List.foldlM_cons, Option.bind_eq_bind, Option.bind_eq_some_iff] at hrun
    obtain ⟨c₁, hadd, hrun⟩ := hrun
    by_cases hredir : IsRedirection tok
    · obtain ⟨r, hnamed, rfl⟩ := hwell tok List.mem_cons_self hredir
      rw [addToken_redir hnamed] at hadd
      cases hadd
      rw [List.filterMap_cons_some (redirection_token hnamed), List.append_cons]
      exact ih (h.addRedir r) hrest hrun
    · rw [List.filterMap_cons_none (redirection_plain hredir)]
      exact ih (addToken_keeps h hredir hadd) hrest hrun

theorem parsedTokens_keeps (hwell : WellFormed buf)
    (h : parsedTokens arr env buf (tokens buf) = some c) : Keeps c (redirections buf) := by
  have hstart : Keeps (execCmdCreate buf) [] := by
    refine ⟨iff_of_false (fun h => by cases h) fun h => h rfl, fun fd hfd => ?_⟩
    have hcases : fd = 0 ∨ fd = 1 ∨ fd = 2 := by omega
    rcases hcases with rfl | rfl | rfl <;> rfl
  exact foldlM_keeps (tokens buf) hstart hwell h

theorem named_of_mem (hwell : WellFormed buf) (h : r ∈ redirections buf) : r.Named := by
  obtain ⟨tok, htok, heq⟩ := List.mem_filterMap.mp h
  by_cases hredir : IsRedirection tok
  · obtain ⟨r', hnamed, rfl⟩ := hwell tok htok hredir
    rw [redirection_token hnamed] at heq
    cases heq
    exact hnamed
  · rw [redirection_plain hredir] at heq
    cases heq

/-! ## The redirections that are carried out -/

/-- The table of the process shows the descriptors `p.2` at 0, 1 and 2. -/
def Tracks (p : σ × Fds) (g : Fds) : Prop :=
  g.Clean 3 ∧ ∀ i, i < 3 → g.get i = p.2.get i

theorem Tracks.set {fd : Nat} {d : Desc} (h : Tracks p g) (hfd : fd < 3) :
    Tracks (t, p.2.set fd (some ⟨d, false⟩)) (g.set fd (some ⟨d, false⟩)) := by
  refine ⟨h.1.set hfd, fun i hi => ?_⟩
  rw [Table.get_set, Table.get_set, h.2 i hi]

theorem bind_rel {α β γ δ : Type} {R : α → β → Prop} {S : γ → δ → Prop} {a : Option α}
    {b : Option β} {f : α → Option γ} {f' : β → Option δ} (h : Option.Rel R a b)
    (hnext : ∀ x y, a = some x → R x y → Option.Rel S (f x) (f' y)) :
    Option.Rel S (a.bind f) (b.bind f') := by
  cases h with
  | some hxy => exact hnext _ _ rfl hxy
  | none => exact .none

/-- `open` and `dup2`. -/
theorem openRedirFd_rel {file : List Byte} {flags : OpenFlags} {fd : Nat} (h : Tracks p g)
    (hfd : fd < 3) (hopens : k.opens proc fd = (openFile p.1 file flags).isSome) :
    Option.Rel Tracks ((openFile p.1 file flags).map fun t =>
      (t, p.2.set fd (some ⟨.file file flags, false⟩))) (k.openRedirFd proc g file flags fd) := by
  unfold Files.openRedirFd
  rw [hopens]
  cases openFile p.1 file flags with
  | none =>
    rw [Option.isSome_none, if_neg Bool.false_ne_true]
    exact .none
  | some t =>
    have hlow : 3 ≤ (g.openAt ⟨.file file flags, true⟩).1 := h.1.le_lowest
    rw [Option.isSome_some, if_pos rfl]
    dsimp only
    rw [Table.dup2_eq (Table.get_openAt_self g ⟨.file file flags, true⟩) (by omega)]
    refine .some ⟨(h.1.openAt rfl).set hfd, fun i hi => ?_⟩
    rw [Table.get_set, Table.get_set, Table.get_openAt_ne _ _ (by omega), h.2 i hi]

/-- What the descriptors become does not matter to what can be opened. -/
theorem leftToRight_eq (p : σ × Fds) (rs : List Redir) :
    leftToRight openFile p rs = (rs.foldlM (Redir.opened openFile) p.1).map fun t =>
      (t, rs.foldl Redir.apply p.2) := by
  induction rs generalizing p with
  | nil => rfl
  | cons r rs ih =>
    have hstep : leftToRight openFile p (r :: rs) =
        (Redir.run openFile p r).bind fun p => leftToRight openFile p rs := rfl
    rw [hstep, List.foldlM_cons, Option.bind_eq_bind]
    unfold Redir.run
    cases r.opened openFile p.1 with
    | none => rfl
    | some t => exact ih _

theorem leftToRight_append (p : σ × Fds) (rs rs' : List Redir) :
    leftToRight openFile p (rs ++ rs') =
      (leftToRight openFile p rs).bind fun p => leftToRight openFile p rs' :=
  List.foldlM_append

theorem leftToRight_none (p : σ × Fds) : leftToRight openFile p [] = some p := rfl

theorem leftToRight_one (p : σ × Fds) (r : Redir) :
    leftToRight openFile p [r] = r.run openFile p :=
  bind_pure _

/-- The redirection opens a file for the descriptor. -/
structure OpensAt (openFile : σ → List Byte → OpenFlags → Option σ) (fd : Nat) (flags : OpenFlags)
    (r : Redir) : Prop where
  name : r.name ≠ []
  opened : ∀ t, r.opened openFile t = openFile t r.name flags
  apply : ∀ fds, r.apply fds = fds.set fd (some ⟨.file r.name flags, false⟩)

theorem opensAt_stdin (h : r.Named) (hfd : r.fd = stdinFileno) :
    OpensAt openFile stdinFileno .rdonly r := by
  cases r with
  | input file => exact ⟨h.1, fun t => rfl, fun fds => rfl⟩
  | output file => cases hfd
  | error file => cases hfd
  | errorToOutput => cases hfd

theorem opensAt_stdout (h : r.Named) (hfd : r.fd = stdoutFileno) :
    OpensAt openFile stdoutFileno .wronlyCreatTrunc r := by
  cases r with
  | input file => cases hfd
  | output file => exact ⟨h, fun t => rfl, fun fds => rfl⟩
  | error file => cases hfd
  | errorToOutput => cases hfd

/-- The last redirection of a descriptor, carried out by the name that was kept. -/
theorem redirFile_rel {file : List Byte} {flags : OpenFlags} {fd : Nat} (h : Tracks p g)
    (hfd : fd < 3) (hfile : file = ((lastFor fd rs).map Redir.name).getD [])
    (hopens : k.opens proc fd = (openFile p.1 file flags).isSome)
    (hone : ∀ r ∈ rs, r.fd = fd → OpensAt openFile fd flags r) :
    Option.Rel Tracks (leftToRight openFile p (lastFor fd rs).toList)
      (if file ≠ [] then k.openRedirFd proc g file flags fd else some g) := by
  cases hlast : lastFor fd rs with
  | none =>
    have hnil : file = [] := by
      rw [hfile, hlast]
      rfl
    rw [if_neg (not_not.mpr hnil)]
    exact .some h
  | some r =>
    obtain ⟨hmem, hr⟩ := mem_of_lastFor hlast
    have hat := hone r hmem hr
    have hname : file = r.name := by
      rw [hfile, hlast]
      rfl
    rw [hname] at hopens ⊢
    rw [if_pos hat.name, Option.toList_some, leftToRight_one, Redir.run, hat.opened, hat.apply]
    exact openRedirFd_rel h hfd hopens

/-- What has become of the files by then. -/
theorem redirFile_files {file : List Byte} {flags : OpenFlags} {fd : Nat} {p' : σ × Fds}
    (hfile : file = ((lastFor fd rs).map Redir.name).getD [])
    (hone : ∀ r ∈ rs, r.fd = fd → OpensAt openFile fd flags r)
    (h : leftToRight openFile p (lastFor fd rs).toList = some p') :
    openNamed openFile p.1 file flags = some p'.1 := by
  cases hlast : lastFor fd rs with
  | none =>
    have hnil : file = [] := by
      rw [hfile, hlast]
      rfl
    rw [hlast, Option.toList_none, leftToRight_none] at h
    cases h
    exact if_pos hnil
  | some r =>
    obtain ⟨hmem, hr⟩ := mem_of_lastFor hlast
    have hat := hone r hmem hr
    have hname : file = r.name := by
      rw [hfile, hlast]
      rfl
    rw [hlast, Option.toList_some, leftToRight_one, Redir.run, hat.opened] at h
    obtain ⟨t, ht, heq⟩ := Option.map_eq_some_iff.mp h
    rw [← heq, openNamed, hname, if_neg hat.name]
    exact ht

theorem redirStderr_rel (hkeep : Keeps c rs) (hnamed : ∀ r ∈ rs, r.Named) (h : Tracks p g)
    (hopens : k.opens proc stderrFileno = (openFile p.1 c.errFile .wronlyCreatTrunc).isSome) :
    Option.Rel Tracks (leftToRight openFile p (lastFor stderrFileno rs).toList)
      (k.redirStderr proc c g) := by
  have hfile : c.errFile = ((lastFor stderrFileno rs).map Redir.name).getD [] :=
    hkeep.file stderrFileno (by decide)
  unfold Files.redirStderr
  cases hlast : lastFor stderrFileno rs with
  | none =>
    have hnil : c.errFile = [] := by
      rw [hfile, hlast]
      rfl
    rw [if_neg (not_not.mpr hnil)]
    exact .some h
  | some r =>
    obtain ⟨hmem, hfd⟩ := mem_of_lastFor hlast
    rw [hlast] at hfile
    rw [Option.toList_some, leftToRight_one]
    cases r with
    | input file => cases hfd
    | output file => cases hfd
    | error file =>
      have hname : file ≠ [] ∧ file ≠ ampOne := hnamed _ hmem
      have heq : c.errFile = file := hfile
      rw [heq] at hopens ⊢
      rw [if_pos hname.1, if_neg hname.2]
      exact openRedirFd_rel h (by decide) hopens
    | errorToOutput =>
      have heq : c.errFile = ampOne := hfile
      obtain ⟨d, hd⟩ := h.1.kept 1 (by decide)
      have hd' : p.2.get stdoutFileno = some ⟨d, false⟩ := by
        rw [← h.2 stdoutFileno (by decide)]
        exact hd
      rw [heq, if_pos (by decide), if_pos rfl, Table.dup2_eq hd (by decide)]
      unfold Redir.run Redir.opened Redir.apply
      rw [Option.map_some, hd']
      exact .some (h.set (by decide))

/-- `exec_cmd` carries out the last redirection of each descriptor. -/
theorem redirs_rel (hkeep : Keeps c rs) (hnamed : ∀ r ∈ rs, r.Named) (hclean : fds.Clean 3) :
    Option.Rel Tracks (leftToRight openFile (t, fds) (effective rs))
      ((c.filesFound openFile t).redirs proc c fds) := by
  have hstart : Tracks (t, fds) fds := ⟨hclean, fun i hi => rfl⟩
  have hin : ∀ r ∈ rs, r.fd = stdinFileno → OpensAt openFile stdinFileno .rdonly r :=
    fun r hr => opensAt_stdin (hnamed r hr)
  have hout : ∀ r ∈ rs, r.fd = stdoutFileno → OpensAt openFile stdoutFileno .wronlyCreatTrunc r :=
    fun r hr => opensAt_stdout (hnamed r hr)
  have hinFile := hkeep.file stdinFileno (by decide)
  have houtFile := hkeep.file stdoutFileno (by decide)
  unfold Files.redirs
  by_cases htype : c.type = .redir
  · rw [if_pos htype]
    unfold effective
    rw [List.append_assoc, leftToRight_append]
    refine bind_rel (redirFile_rel hstart (by decide) hinFile rfl hin) fun p₁ g₁ h₁ htrack₁ => ?_
    have hfiles₁ := redirFile_files hinFile hin h₁
    have hopens₁ : (c.filesFound openFile t).opens proc stdoutFileno =
        (openFile p₁.1 c.outFile .wronlyCreatTrunc).isSome := by
      have hstep : (c.filesFound openFile t).opens proc stdoutFileno =
          ((openNamed openFile t c.inFile .rdonly).bind
            (openFile · c.outFile .wronlyCreatTrunc)).isSome := rfl
      rw [hstep]
      exact congrArg (fun o => (o.bind (openFile · c.outFile .wronlyCreatTrunc)).isSome) hfiles₁
    rw [leftToRight_append]
    refine bind_rel (redirFile_rel htrack₁ (by decide) houtFile hopens₁ hout)
      fun p₂ g₂ h₂ htrack₂ => ?_
    have hfiles₂ := redirFile_files houtFile hout h₂
    refine redirStderr_rel hkeep hnamed htrack₂ ?_
    have hstep : (c.filesFound openFile t).opens proc stderrFileno =
        (((openNamed openFile t c.inFile .rdonly).bind
          (openNamed openFile · c.outFile .wronlyCreatTrunc)).bind
          (openFile · c.errFile .wronlyCreatTrunc)).isSome := rfl
    have hopens₂ : (openNamed openFile t c.inFile .rdonly).bind
        (openNamed openFile · c.outFile .wronlyCreatTrunc) = some p₂.1 := by
      rw [← hfiles₂]
      exact congrArg (fun o => o.bind (openNamed openFile · c.outFile .wronlyCreatTrunc)) hfiles₁
    rw [hstep, hopens₂]
    rfl
  · have hnil : rs = [] := not_not.mp fun hne => htype (hkeep.type.mpr hne)
    rw [if_neg htype, hnil]
    exact .some hstart

/-! ## The redirections that are not -/

/-- What a redirection to a file puts in the place of its descriptor. -/
def Redir.entry : Redir → Option (Entry Desc)
  | .input file => some ⟨.file file .rdonly, false⟩
  | .output file => some ⟨.file file .wronlyCreatTrunc, false⟩
  | .error file => some ⟨.file file .wronlyCreatTrunc, false⟩
  | .errorToOutput => none

theorem get_apply_ne (g : Fds) (h : r.fd ≠ i) : (r.apply g).get i = g.get i := by
  cases r <;> exact Table.get_set_ne g _ h.symm

theorem get_apply_file (g : Fds) (h : r ≠ .errorToOutput) : (r.apply g).get r.fd = r.entry := by
  cases r with
  | input file => exact Table.get_set_self g _ _
  | output file => exact Table.get_set_self g _ _
  | error file => exact Table.get_set_self g _ _
  | errorToOutput => exact absurd rfl h

theorem get_apply_copy (g : Fds) :
    (Redir.errorToOutput.apply g).get stderrFileno = g.get stdoutFileno :=
  Table.get_set_self g _ _

/-- A descriptor that is not redirected stays. -/
theorem get_foldl_ne (h : ∀ r ∈ rs, r.fd ≠ i) (g : Fds) :
    (rs.foldl Redir.apply g).get i = g.get i := by
  induction rs generalizing g with
  | nil => rfl
  | cons r rs ih =>
    rw [List.foldl_cons, ih fun r' hr' => h r' (List.mem_cons_of_mem _ hr')]
    exact get_apply_ne g (h r List.mem_cons_self)

/-- The redirections of a descriptor are settled by the last one. -/
theorem lastFor_split (h : lastFor i rs = some r) :
    ∃ pre post, rs = pre ++ r :: post ∧ ∀ r' ∈ post, r'.fd ≠ i := by
  induction rs using List.reverseRecOn with
  | nil => cases h
  | append_singleton rs last ih =>
    rw [lastFor_concat] at h
    by_cases hlast : last.fd = i
    · rw [if_pos hlast] at h
      cases h
      exact ⟨rs, [], rfl, fun r' hr' => absurd hr' List.not_mem_nil⟩
    · rw [if_neg hlast] at h
      obtain ⟨pre, post, heq, hpost⟩ := ih h
      refine ⟨pre, post ++ [last], by rw [heq, List.append_assoc, List.cons_append], ?_⟩
      intro r' hr'
      rcases List.mem_append.mp hr' with hin | hin
      · exact hpost r' hin
      · rw [List.mem_singleton.mp hin]
        exact hlast

theorem fd_ne_of_lastFor (h : lastFor i rs = none) : ∀ r ∈ rs, r.fd ≠ i := by
  intro r hr hfd
  have hmem : r ∈ rs.filter (·.fd = i) := List.mem_filter.mpr ⟨hr, decide_eq_true hfd⟩
  rw [List.getLast?_eq_none_iff.mp h] at hmem
  exact absurd hmem List.not_mem_nil

theorem get_foldl_split {pre post : List Redir} (hpost : ∀ r' ∈ post, r'.fd ≠ i) (g : Fds) :
    ((pre ++ r :: post).foldl Redir.apply g).get i = (r.apply (pre.foldl Redir.apply g)).get i := by
  rw [List.foldl_append, List.foldl_cons, get_foldl_ne hpost]

theorem lastFor_toList {fd : Nat} :
    (lastFor fd rs).toList.filter (·.fd = i) = if fd = i then (lastFor fd rs).toList else [] := by
  cases hlast : lastFor fd rs with
  | none => rw [Option.toList_none, List.filter_nil, ite_self]
  | some r =>
    have hfd := (mem_of_lastFor hlast).2
    rw [Option.toList_some]
    by_cases heq : fd = i
    · rw [if_pos heq, List.filter_cons_of_pos (by simpa using hfd.trans heq), List.filter_nil]
    · rw [if_neg heq, List.filter_cons_of_neg (by simpa using hfd ▸ heq), List.filter_nil]

/-- The last redirection of a descriptor is the one that is carried out. -/
theorem lastFor_effective (hi : i < 3) (rs : List Redir) :
    lastFor i (effective rs) = lastFor i rs := by
  have hself : (lastFor i rs).toList.getLast? = lastFor i rs := by
    cases lastFor i rs <;> rfl
  have hcases : i = 0 ∨ i = 1 ∨ i = 2 := by omega
  conv_lhs => unfold lastFor effective
  rw [List.filter_append, List.filter_append, lastFor_toList, lastFor_toList, lastFor_toList]
  rcases hcases with rfl | rfl | rfl
  · exact (congrArg List.getLast? (List.append_nil _)).trans
      ((congrArg List.getLast? (List.append_nil _)).trans hself)
  · exact (congrArg List.getLast? (List.append_nil _)).trans hself
  · exact hself

/-- Standard input and standard output do not depend on the order. -/
theorem get_effective (hi : i < 2) (rs : List Redir) (g : Fds) :
    ((effective rs).foldl Redir.apply g).get i = (rs.foldl Redir.apply g).get i := by
  have hlast := lastFor_effective (Nat.lt_succ_of_lt hi) rs
  cases h : lastFor i rs with
  | none =>
    rw [h] at hlast
    rw [get_foldl_ne (fd_ne_of_lastFor hlast), get_foldl_ne (fd_ne_of_lastFor h)]
  | some r =>
    rw [h] at hlast
    obtain ⟨pre, post, heq, hpost⟩ := lastFor_split h
    obtain ⟨pre', post', heq', hpost'⟩ := lastFor_split hlast
    have hfd := (mem_of_lastFor h).2
    have hfile : r ≠ .errorToOutput := by
      rintro rfl
      have htwo : (2 : Nat) = i := hfd
      omega
    have hentry := fun g => get_apply_file g hfile
    rw [hfd] at hentry
    rw [heq', get_foldl_split hpost', hentry, heq, get_foldl_split hpost, hentry]

theorem lastFor_of_split {pre post : List Redir} (hfd : r.fd = i)
    (hpost : ∀ r' ∈ post, r'.fd ≠ i) : lastFor i (pre ++ r :: post) = some r := by
  have hnil : post.filter (·.fd = i) = [] := by
    rw [List.filter_eq_nil_iff]
    intro r' hr'
    simpa using hpost r' hr'
  unfold lastFor
  rw [List.filter_append, List.filter_cons_of_pos (by simpa using hfd), hnil, List.getLast?_concat]

/-- Standard error is the one the redirections leave from left to right exactly when
the standard output that it took was the final one. -/
theorem get_effective_stderr (rs : List Redir) (g : Fds) :
    ((effective rs).foldl Redir.apply g).get stderrFileno =
      (rs.foldl Redir.apply g).get stderrFileno ↔ Settled g rs := by
  have hlast := lastFor_effective (i := stderrFileno) (by decide) rs
  have hother : ∀ r, lastFor stderrFileno rs = some r → r ≠ .errorToOutput → Settled g rs := by
    intro r h hfile pre post heq hpost
    rw [heq, @lastFor_of_split .errorToOutput stderrFileno pre post rfl hpost] at h
    cases h
    exact absurd rfl hfile
  cases h : lastFor stderrFileno rs with
  | none =>
    rw [h] at hlast
    have hne := fd_ne_of_lastFor h
    rw [get_foldl_ne (fd_ne_of_lastFor hlast), get_foldl_ne hne]
    refine iff_of_true rfl fun pre post heq hpost => ?_
    exact absurd rfl (hne .errorToOutput (heq ▸ List.mem_append_right _ List.mem_cons_self))
  | some r =>
    have hfd := (mem_of_lastFor h).2
    obtain ⟨pre, post, heq, hpost⟩ := lastFor_split h
    have heffective : effective rs = (lastFor stdinFileno rs).toList ++
        (lastFor stdoutFileno rs).toList ++ [r] := by
      unfold effective
      rw [h]
      rfl
    by_cases hfile : r = .errorToOutput
    · subst hfile
      have hpre : (rs.foldl Redir.apply g).get stderrFileno =
          (pre.foldl Redir.apply g).get stdoutFileno := by
        rw [heq, get_foldl_split hpost, get_apply_copy]
      have hout := get_effective (i := stdoutFileno) (by decide) rs g
      rw [heffective, List.foldl_append, List.foldl_cons, List.foldl_nil,
        get_apply_ne _ (by decide)] at hout
      rw [heffective, List.foldl_append, List.foldl_cons, List.foldl_nil, get_apply_copy, hout,
        hpre]
      constructor
      · intro hsame pre' post' heq' hpost'
        have hpre' : (rs.foldl Redir.apply g).get stderrFileno =
            (pre'.foldl Redir.apply g).get stdoutFileno := by
          rw [heq', get_foldl_split hpost', get_apply_copy]
        rw [← hpre', hpre, hsame]
      · intro hsettled
        exact (hsettled pre post heq hpost).symm
    · refine iff_of_true ?_ (hother r h hfile)
      have hentry := fun g => get_apply_file g hfile
      rw [hfd] at hentry
      rw [heffective, List.foldl_append, List.foldl_cons, List.foldl_nil, hentry, heq,
        get_foldl_split hpost, hentry]

/-! ## What a program finds -/

theorem canOpen_iff (fds : Fds) : CanOpen openFile t rs ↔
    ∃ t', leftToRight openFile (t, fds) rs = some (t', rs.foldl Redir.apply fds) := by
  unfold CanOpen
  rw [leftToRight_eq]
  constructor
  · intro h
    obtain ⟨t', ht⟩ := Option.isSome_iff_exists.mp h
    exact ⟨t', by rw [ht]; rfl⟩
  · rintro ⟨t', h⟩
    obtain ⟨t'', ht, -⟩ := Option.map_eq_some_iff.mp h
    rw [ht]
    rfl

/-- The program runs exactly when the files of the redirections that are carried out
can be opened. -/
theorem runExec_opened (hwell : WellFormed buf) (hclean : fds.Clean 3)
    (hc : parsedTokens arr env buf (tokens buf) = some c) :
    CanOpen openFile t (effective (redirections buf)) ∧
      (∃ g, (c.filesFound openFile t).runExec proc c fds = .execvp g ∧
        ∀ i, i < 3 → g.exec.get i =
          ((effective (redirections buf)).foldl Redir.apply fds).get i) ∨
    ¬ CanOpen openFile t (effective (redirections buf)) ∧
      (c.filesFound openFile t).runExec proc c fds = .exit 255 := by
  have hkeep := parsedTokens_keeps hwell hc
  have hrel := @redirs_rel σ openFile _ _ t proc fds hkeep (fun r hr => named_of_mem hwell hr) hclean
  have hcan := @canOpen_iff σ openFile (effective (redirections buf)) t fds
  unfold Files.runExec
  cases hredirs : (c.filesFound openFile t).redirs proc c fds with
  | none =>
    rw [hredirs] at hrel
    cases hrun : leftToRight openFile (t, fds) (effective (redirections buf)) with
    | some p =>
      rw [hrun] at hrel
      cases hrel
    | none =>
      refine .inr ⟨fun hopen => ?_, rfl⟩
      obtain ⟨t', ht⟩ := hcan.mp hopen
      rw [hrun] at ht
      cases ht
  | some g =>
    rw [hredirs] at hrel
    cases hrun : leftToRight openFile (t, fds) (effective (redirections buf)) with
    | none =>
      rw [hrun] at hrel
      cases hrel
    | some p =>
      rw [hrun] at hrel
      cases hrel with
      | some htrack =>
        have hp := hrun
        rw [leftToRight_eq] at hp
        obtain ⟨t', ht, rfl⟩ := Option.map_eq_some_iff.mp hp
        refine .inl ⟨hcan.mpr ⟨t', hrun⟩, g, rfl, fun i hi => ?_⟩
        rw [htrack.1.get_exec hi]
        exact htrack.2 i hi

/-- Every file can be opened. -/
def anyFile (t : Unit) (_ : List Byte) (_ : OpenFlags) : Option Unit := some t

/-- `c >f 2>&1` -/
def bothToFile : List Byte :=
  [chr 'c', space, chr '>', chr 'f', space, chr '2', chr '>', chr '&', chr '1']

theorem bothToFile_wellFormed : WellFormed bothToFile := by
  intro tok htok hredir
  have htoks : tokens bothToFile =
      [[chr 'c'], Redir.token (.output [chr 'f']), Redir.token .errorToOutput] := by decide
  rw [htoks] at htok
  rcases List.mem_cons.mp htok with rfl | htok
  · exact absurd hredir (by decide)
  · rcases List.mem_cons.mp htok with rfl | htok
    · exact ⟨.output [chr 'f'], List.cons_ne_nil _ _, rfl⟩
    · exact ⟨.errorToOutput, trivial, List.mem_singleton.mp htok⟩

/-- `c 2>&1 >f` -/
def errorsToTerminal : List Byte :=
  [chr 'c', space, chr '2', chr '>', chr '&', chr '1', space, chr '>', chr 'f']

/-- What the parser keeps of it. -/
def errorsToTerminalCmd : ExecCmd :=
  { execCmdCreate errorsToTerminal with
    type := .redir, argv := [[chr 'c']], outFile := [chr 'f'], errFile := ampOne }

end Shell
end Sisop

import SvelteTypings.Proofs.Compiler.Candidates
import SvelteTypings.Proofs.Compiler.Moments
import SvelteTypings.Proofs.Compiler.Program

/-!
# Answers that do not depend on the order of questions

A question for a file can change what a host shows, so what a file imports could depend on what has
been asked before. For some hosts it does not: their answers are given once and for all, and of the
questions it matters only which ones have been asked (`Steady`). Such a host goes through a session
as the host does that gives just these answers (`Steady.run_eq`), and what the imports of a file
come to is a function of the file (`Answers.reading`).
-/

namespace SvelteTypings

open SvelteTypings.Path (IsCanonical)

/-! ## Searching -/

/-- What holds of every search: it finds nothing, or asks for a candidate and takes it or searches
on, or asks for a directory and searches on. -/
theorem Resolution.search_induction {P : Session (Option Path) → Prop} {base : Path}
    {known : Option Bool} {ps : List Path} (hnone : P (pure none))
    (hask : ∀ p ∈ ps, ∀ rest, P rest →
      P (Session.exists? p >>= fun found => if found then pure (some p) else rest))
    (hdirectory : ∀ next, (∀ b, P (next b)) → P (Session.isDirectory base >>= next)) :
    P (search base known ps) := by
  induction ps generalizing known with
  | nil => exact hnone
  | cons p ps ih =>
    have hrest : ∀ known, P (search base known ps) :=
      fun known => ih fun q hq => hask q (List.mem_cons_of_mem p hq)
    have hprobe : ∀ known, P (Session.exists? p >>= fun found =>
        if found then pure (some p) else search base known ps) :=
      fun known => hask p List.mem_cons_self _ (hrest known)
    -- a candidate in the imported path is asked for only if that is a directory
    have hindex : ∀ b : Bool, P (if b then Session.exists? p >>= fun found =>
        if found then pure (some p) else search base (some b) ps else search base (some b) ps) := by
      intro b
      cases b with
      | true => exact hprobe (some true)
      | false => exact hrest (some false)
    rw [search]
    split
    · cases known with
      | some b => exact hindex b
      | none => exact hdirectory _ hindex
    · exact hprobe known

/-! ## Sessions that only ask -/

namespace Session

variable {σ α β : Type} {host : Host σ}

/-- The session asks for files under canonical paths and for directories, and does nothing else. -/
inductive Probes : Session α → Prop where
  | done (r : Except Failure α) : Probes (.done r)
  | fileExists (p : Path) (next : Except Failure Bool → Session α) (hp : IsCanonical p)
      (h : ∀ r, Probes (next r)) : Probes (.fileExists p next)
  | directoryExists (p : Path) (next : Bool → Session α) (h : ∀ b, Probes (next b)) :
      Probes (.directoryExists p next)

theorem Probes.bind {x : Session α} {k : α → Session β} (hx : x.Probes) (hk : ∀ a, (k a).Probes) :
    (x >>= k).Probes := by
  show (x.bind k).Probes
  induction hx with
  | done r =>
    cases r with
    | ok a => exact hk a
    | error e => exact .done (.error e)
  | fileExists p next hp _ ih => exact .fileExists p _ hp ih
  | directoryExists p next _ ih => exact .directoryExists p _ ih

end Session

theorem Resolution.probes_resolve (specifier : String) (importer : Path) :
    (resolve specifier importer).Probes := by
  rw [resolve]
  split
  · refine search_induction (.done _) ?_ ?_
    · intro p hp rest hrest
      have hcanonical : IsCanonical p :=
        isCanonical_of_mem_candidates (Path.isCanonical_normalize _) hp
      refine Session.Probes.bind (.fileExists p _ hcanonical fun r => .done r) fun found => ?_
      cases found with
      | true => exact .done _
      | false => exact hrest
    · exact fun next hnext => .directoryExists _ _ hnext
  · exact .done _

theorem Program.probes_resolveAll (importer : Path) (specifiers : List String) (program : Program) :
    (resolveAll importer specifiers program).Probes := by
  induction specifiers generalizing program with
  | nil => exact .done _
  | cons specifier specifiers ih =>
    rw [resolveAll]
    split
    · refine (Resolution.probes_resolve specifier importer).bind fun found => ?_
      cases found with
      | none => exact ih _
      | some found => exact (ih program).bind fun r => .done _
    · exact ih program

/-! ## Answers -/

/-- What a host answers, whenever it is asked. -/
structure Answers where
  isFile : Path → Except Failure Bool
  textOf : Path → Except Failure (Option String)
  isDirectory : Path → Bool

namespace Answers

variable {a : Answers} {p q importer : Path} {text specifier : String} {specifiers : List String}
  {imports asked asked' : List Path} {program rest : Program} {e : Failure}

/-- The host that gives these answers and keeps the paths that it has been asked for. -/
def host (a : Answers) : Host (List Path) where
  fileExists asked p := (a.isFile p, p :: asked)
  textOf _ p := a.textOf p
  save asked _ _ := (.ok (), asked)
  directoryExists _ p := a.isDirectory p
  currentDirectory := Path.root
  capacity _ := 0

/-- What has been asked before makes no difference. -/
theorem run_append {α : Type} {x : Session α} (hx : x.Probes) (asked asked' : List Path) :
    (x.run a.host (asked ++ asked')).result = (x.run a.host asked).result ∧
      (x.run a.host (asked ++ asked')).state = (x.run a.host asked).state ++ asked' := by
  induction hx generalizing asked with
  | done r => exact ⟨rfl, rfl⟩
  | fileExists p next _ _ ih => exact ih (a.isFile p) (p :: asked)
  | directoryExists p next _ ih => exact ih (a.isDirectory p) asked

/-! ## Resolution -/

/-- A file that is found has been asked for, and the answer was that it is there. -/
theorem found_of_resolve (h : Session.Returns a.host (Resolution.resolve specifier importer) asked
    (some q) asked') : IsCanonical q ∧ a.isFile q = .ok true ∧ q ∈ asked' := by
  rw [Resolution.resolve] at h
  split at h
  · refine Resolution.search_induction (P := fun x => ∀ asked,
      Session.Returns a.host x asked (some q) asked' →
        IsCanonical q ∧ a.isFile q = .ok true ∧ q ∈ asked') ?_ ?_ ?_ asked h
    · intro asked h
      exact absurd (Session.returns_pure_iff.1 h).1 (by simp)
    · intro p hp rest hrest asked h
      obtain ⟨found, asked₁, hasked, h⟩ := Session.returns_bind_iff.1 h
      obtain ⟨hfile, rfl⟩ := Prod.mk.inj (Session.returns_exists?_iff.1 hasked)
      cases found with
      | true =>
        obtain ⟨heq, rfl⟩ := Session.returns_pure_iff.1 h
        obtain rfl : p = q := Option.some.inj heq
        exact ⟨Resolution.isCanonical_of_mem_candidates (Path.isCanonical_normalize _) hp, hfile,
          List.mem_cons_self⟩
      | false => exact hrest _ h
    · intro next hnext asked h
      obtain ⟨b, asked₁, -, h⟩ := Session.returns_bind_iff.1 h
      exact hnext b _ h
  · exact absurd (Session.returns_pure_iff.1 h).1 (by simp)

/-- Resolution fails only with a question. -/
theorem isFile_of_fails_resolve
    (h : Session.Fails a.host (Resolution.resolve specifier importer) asked e) :
    ∃ q, IsCanonical q ∧ a.isFile q = .error e := by
  rw [Resolution.resolve] at h
  split at h
  · refine Resolution.search_induction (P := fun x => ∀ asked, Session.Fails a.host x asked e →
      ∃ q, IsCanonical q ∧ a.isFile q = .error e) ?_ ?_ ?_ asked h
    · intro asked h
      exact absurd h Session.not_fails_pure
    · intro p hp rest hrest asked h
      rcases Session.fails_bind_iff.1 h with h | ⟨found, asked₁, -, h⟩
      · exact ⟨p, Resolution.isCanonical_of_mem_candidates (Path.isCanonical_normalize _) hp, h⟩
      · cases found with
        | true => exact absurd h Session.not_fails_pure
        | false => exact hrest _ h
    · intro next hnext asked h
      rcases Session.fails_bind_iff.1 h with h | ⟨b, asked₁, -, h⟩
      · exact absurd h Session.not_fails_isDirectory
      · exact hnext b _ h
  · exact absurd h Session.not_fails_pure

theorem subset_of_returns {α : Type} {x : Session α} {r : α} (hx : x.Probes)
    (h : Session.Returns a.host x asked r asked') : asked ⊆ asked' := by
  have hstate := (run_append (a := a) hx [] asked).2
  rw [List.nil_append, h.2] at hstate
  rw [hstate]
  exact List.subset_append_right _ _

theorem found_of_resolveAll {program' : Program}
    (h : Session.Returns a.host (Program.resolveAll importer specifiers program) asked
      (imports, program') asked') (hq : q ∈ imports) :
    IsCanonical q ∧ a.isFile q = .ok true ∧ q ∈ asked' := by
  induction specifiers generalizing program imports asked program' with
  | nil =>
    obtain ⟨rfl, -⟩ := Prod.mk.inj (Session.returns_pure_iff.1 h).1
    exact absurd hq List.not_mem_nil
  | cons specifier specifiers ih =>
    rw [Program.resolveAll] at h
    split at h
    · obtain ⟨found, asked₁, hfound, h⟩ := Session.returns_bind_iff.1 h
      cases found with
      | none => exact ih h hq
      | some found =>
        obtain ⟨⟨imports₁, program₁⟩, asked₂, hrest, h⟩ := Session.returns_bind_iff.1 h
        obtain ⟨heq, rfl⟩ := Session.returns_pure_iff.1 h
        obtain ⟨rfl, -⟩ := Prod.mk.inj heq
        rcases List.mem_cons.1 hq with rfl | hq
        · obtain ⟨hcanonical, hfile, hmem⟩ := found_of_resolve hfound
          exact ⟨hcanonical, hfile, subset_of_returns (Program.probes_resolveAll _ _ _) hrest hmem⟩
        · exact ih hrest hq
    · exact ih h hq

theorem isFile_of_fails_resolveAll
    (h : Session.Fails a.host (Program.resolveAll importer specifiers program) asked e) :
    ∃ q, IsCanonical q ∧ a.isFile q = .error e := by
  induction specifiers generalizing program asked with
  | nil => exact absurd h Session.not_fails_pure
  | cons specifier specifiers ih =>
    rw [Program.resolveAll] at h
    split at h
    · rcases Session.fails_bind_iff.1 h with h | ⟨found, asked₁, -, h⟩
      · exact isFile_of_fails_resolve h
      · cases found with
        | none => exact ih h
        | some found =>
          rcases Session.fails_bind_iff.1 h with h | ⟨r, asked₂, -, h⟩
          · exact ih h
          · exact absurd h Session.not_fails_pure
    · exact ih h

/-! ## Reading a file -/

/-- What the imports of a file come to: the files they mean, what is remarked on them, and the paths
that are asked for. -/
def reading (a : Answers) (p : Path) (text : String) : Ending (List Path) (List Path × Program) :=
  (Program.resolveAll p (Script.specifiers (Script.scan text)) .empty).run a.host []

theorem found_of_mem_imports (h : (a.reading p text).result = .ok (imports, rest))
    (hq : q ∈ imports) : IsCanonical q ∧ a.isFile q = .ok true ∧ q ∈ (a.reading p text).state :=
  found_of_resolveAll ⟨h, rfl⟩ hq

theorem isFile_of_reading_eq_error (h : (a.reading p text).result = .error e) :
    ∃ q, IsCanonical q ∧ a.isFile q = .error e :=
  isFile_of_fails_resolveAll h

end Answers

/-! ## Remarks -/

/-- The program with more diagnostics. -/
def Program.remark (program : Program) (remarks : List Diagnostic) : Program :=
  { program with diagnostics := program.diagnostics ++ remarks }

/-- What is remarked on the imports of a file does not depend on the program it is added to. -/
theorem Program.resolveAll_eq (importer : Path) (specifiers : List String) (program : Program) :
    resolveAll importer specifiers program = resolveAll importer specifiers .empty >>= fun r =>
      pure (r.1, program.remark r.2.diagnostics) := by
  induction specifiers generalizing program with
  | nil =>
    show pure ([], program) = pure ([], program.remark [])
    rw [remark, List.append_nil]
  | cons specifier specifiers ih =>
    rw [resolveAll, resolveAll]
    split
    · rw [Session.bind_bind]
      refine congrArg _ (funext fun found => ?_)
      cases found with
      | none =>
        show resolveAll importer specifiers (program.diagnose _ _) =
          resolveAll importer specifiers (empty.diagnose _ _) >>= _
        rw [ih (program.diagnose _ _), ih (empty.diagnose _ _), Session.bind_bind]
        refine congrArg _ (funext fun r => ?_)
        show pure (r.1, _) = pure (r.1, _)
        simp only [remark, diagnose, empty, List.nil_append, List.append_assoc]
      | some found =>
        show (resolveAll importer specifiers program >>= fun r => pure (found :: r.1, r.2)) =
          (resolveAll importer specifiers empty >>= fun r => pure (found :: r.1, r.2)) >>= _
        rw [ih program, Session.bind_bind, Session.bind_bind]
        rfl
    · exact ih program

/-! ## Steady hosts -/

/-- A path that can be read: it is known from the beginning, or it is a file when it is asked for.
-/
structure Answers.Offers (a : Answers) (Known : Path → Prop) (p : Path) : Prop where
  canonical : IsCanonical p
  known : Known p ∨ a.isFile p = .ok true

/-- From a state on, the host gives the same answers whenever it is asked. `After asked s` says that
`s` is the state in which the paths in `asked` have been asked for. A file that is not known from
the beginning can be read once it has been asked for. -/
structure Steady {σ : Type} (host : Host σ) (start : σ) (a : Answers) (Known : Path → Prop)
    (After : List Path → σ → Prop) : Prop where
  initial : After [] start
  fileExists : ∀ asked s p, After asked s → IsCanonical p →
    (host.fileExists s p).1 = a.isFile p ∧ After (p :: asked) (host.fileExists s p).2
  textOf : ∀ asked s p, After asked s → a.Offers Known p → Known p ∨ p ∈ asked →
    host.textOf s p = a.textOf p
  directoryExists : ∀ asked s p, After asked s → host.directoryExists s p = a.isDirectory p
  textOf_ne_none : ∀ p, IsCanonical p → a.isFile p = .ok true → a.textOf p ≠ .ok none
  unique : ∀ asked asked' s t, (∀ q, q ∈ asked ↔ q ∈ asked') → After asked s →
    After asked' t → s = t
  capacity : ∀ ps : List Path, ps.Nodup →
    (∀ p ∈ ps, a.Offers Known p ∧ ∃ text, a.textOf p = .ok (some text)) →
      ps.length ≤ host.capacity start

namespace Steady

variable {σ α : Type} {host : Host σ} {start s t : σ} {a : Answers} {Known : Path → Prop}
  {After : List Path → σ → Prop} {asked imports : List Path} {p : Path} {text : String}
  {program program' : Program} {e : Failure}

/-- **A steady host goes through a session as its answers say.** -/
theorem run_eq (h : Steady host start a Known After) {x : Session α} (hx : x.Probes)
    (hs : After asked s) :
    (x.run host s).result = (x.run a.host asked).result ∧
      After (x.run a.host asked).state (x.run host s).state := by
  induction hx generalizing asked s with
  | done r => exact ⟨rfl, hs⟩
  | fileExists p next hp _ ih =>
    obtain ⟨hanswer, hafter⟩ := h.fileExists asked s p hs hp
    show ((next (host.fileExists s p).1).run host (host.fileExists s p).2).result = _ ∧
      After _ ((next (host.fileExists s p).1).run host (host.fileExists s p).2).state
    rw [hanswer]
    exact ih (a.isFile p) hafter
  | directoryExists p next _ ih =>
    show ((next (host.directoryExists s p)).run host s).result = _ ∧
      After _ ((next (host.directoryExists s p)).run host s).state
    rw [h.directoryExists asked s p hs]
    exact ih (a.isDirectory p) hs

/-- Resolving the imports of a file comes to the reading of the file, after whatever questions. -/
theorem run_resolveAll (h : Steady host start a Known After) (hs : After asked s) :
    ((Program.resolveAll p (Script.specifiers (Script.scan text)) .empty).run host s).result =
        (a.reading p text).result ∧
      After ((a.reading p text).state ++ asked)
        ((Program.resolveAll p (Script.specifiers (Script.scan text)) .empty).run host s).state := by
  have hprobes := Program.probes_resolveAll p (Script.specifiers (Script.scan text)) .empty
  obtain ⟨hresult, hafter⟩ := h.run_eq hprobes hs
  obtain ⟨hresult', hstate'⟩ := Answers.run_append (a := a) hprobes [] asked
  rw [List.nil_append] at hresult' hstate'
  rw [hresult'] at hresult
  rw [hstate'] at hafter
  exact ⟨hresult, hafter⟩

theorem returns_resolveAll (h : Steady host start a Known After) (hs : After asked s)
    (hreturns : Session.Returns host
      (Program.resolveAll p (Script.specifiers (Script.scan text)) program) s (imports, program') t) :
    ∃ rest, (a.reading p text).result = .ok (imports, rest) ∧
      program' = program.remark rest.diagnostics ∧ After ((a.reading p text).state ++ asked) t := by
  rw [Program.resolveAll_eq] at hreturns
  obtain ⟨⟨imports', rest⟩, s', hread, hreturns⟩ := Session.returns_bind_iff.1 hreturns
  obtain ⟨heq, rfl⟩ := Session.returns_pure_iff.1 hreturns
  obtain ⟨rfl, rfl⟩ := Prod.mk.inj heq
  obtain ⟨hresult, hafter⟩ := h.run_resolveAll hs
  rw [hread.1] at hresult
  rw [hread.2] at hafter
  exact ⟨rest, hresult.symm, rfl, hafter⟩

theorem fails_resolveAll (h : Steady host start a Known After) (hs : After asked s)
    (hfails : Session.Fails host
      (Program.resolveAll p (Script.specifiers (Script.scan text)) program) s e) :
    (a.reading p text).result = .error e := by
  rw [Program.resolveAll_eq] at hfails
  rcases Session.fails_bind_iff.1 hfails with hfails | ⟨r, s', -, hfails⟩
  · exact (h.run_resolveAll hs).1.symm.trans hfails
  · exact absurd hfails Session.not_fails_pure

end Steady

end SvelteTypings

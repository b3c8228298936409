import SvelteTypings.Proofs.Compiler.Candidates
import SvelteTypings.Proofs.Compiler.Program

/-!
# Programs of real files

A host that shows real files answers every question without a change of its state. So resolution is
a function of the files (`returns_resolve`), and a program that is built holds exactly the files
that its roots lead to, each with its own text and imports (`loaded_of_build`).
-/

namespace SvelteTypings

open SvelteTypings.Path (IsRooted)
open Resolution (candidates importBase isIndex search)

/-! ## Questions -/

/-- In a state the host answers as the files do, and no answer changes the state. -/
structure Host.Shows {σ : Type} (host : Host σ) (fs : FileSystem) (s : σ) : Prop where
  fileExists : ∀ p, host.fileExists s p = (.ok (fs.isFile p), s)
  textOf : ∀ p, host.textOf s p = fs.textOf? p
  directoryExists : ∀ p, host.directoryExists s p = fs.isDirectory p

theorem Host.shows_capturing (fs : FileSystem) (cwd : Path) (writes : PathMap String) :
    (Host.capturing fs cwd).Shows fs writes :=
  ⟨fun _ => rfl, fun _ => rfl, fun _ => rfl⟩

namespace FileSystem

variable {σ : Type} {host : Host σ} {fs : FileSystem} {s t : σ} {base importer p q : Path}
  {specifier text : String} {roots queue imports : List Path} {program program' result : Program}
  {file : SourceFile}

/-- Resolution stops at a candidate that is a file. An index file counts only in a directory. -/
def stops (fs : FileSystem) (base p : Path) : Bool :=
  (!isIndex base p || fs.isDirectory base) && fs.isFile p

/-- The file that a relative specifier means in an importing file. -/
def resolve? (fs : FileSystem) (specifier : String) (importer : Path) : Option Path :=
  if Script.isRelative specifier then
    (candidates (importBase specifier importer)).find? (fs.stops (importBase specifier importer))
  else none

/-- The files that the imports of a text mean, in order. -/
def importsOf (fs : FileSystem) (importer : Path) (text : String) : List Path :=
  (Script.specifiers (Script.scan text)).filterMap (fs.resolve? · importer)

/-- What some roots lead to through imports. -/
inductive Leads (fs : FileSystem) (roots : List Path) : Path → Prop where
  | root {p : Path} (h : p ∈ roots) (hfile : fs.isFile p) : fs.Leads roots p
  | imported {file target : Path} {text : String} (h : fs.Leads roots file)
      (htext : fs.textOf? file = .ok (some text)) (hmem : target ∈ fs.importsOf file text) :
      fs.Leads roots target

/-! ## Resolution -/

theorem isFile_of_resolve? (h : fs.resolve? specifier importer = some p) : fs.isFile p := by
  rw [resolve?] at h
  split at h
  · have hstops := List.find?_some h
    rw [stops, Bool.and_eq_true] at hstops
    exact hstops.2
  · exact absurd h (by simp)

theorem isScript_of_resolve? (himporter : IsScript importer)
    (h : fs.resolve? specifier importer = some p) : IsScript p := by
  rw [resolve?] at h
  split at h
  · exact (Resolution.isTyped_of_mem_candidates (Resolution.isRooted_importBase specifier himporter)
      (List.mem_of_find?_eq_some h)).isScript
  · exact absurd h (by simp)

theorem isFile_of_mem_importsOf (h : q ∈ fs.importsOf p text) : fs.isFile q := by
  obtain ⟨specifier, -, hresolve⟩ := List.mem_filterMap.1 h
  exact isFile_of_resolve? hresolve

theorem isScript_of_mem_importsOf (hp : IsScript p) (h : q ∈ fs.importsOf p text) : IsScript q := by
  obtain ⟨specifier, -, hresolve⟩ := List.mem_filterMap.1 h
  exact isScript_of_resolve? hp hresolve

theorem isFile_of_textOf? (h : fs.textOf? p = .ok (some text)) : fs.isFile p := by
  rw [textOf?] at h
  split at h
  · assumption
  · exact absurd h (by simp)

theorem textOf?_ne_none_of_isFile (h : fs.isFile p) : fs.textOf? p ≠ .ok none := by
  rw [textOf?, if_pos h]
  cases fs.read p <;> simp

theorem Leads.isFile (h : fs.Leads roots p) : fs.isFile p := by
  cases h with
  | root _ hfile => exact hfile
  | imported _ _ hmem => exact isFile_of_mem_importsOf hmem

/-- What some scripts lead to are scripts. -/
theorem Leads.isScript (hroots : ∀ p ∈ roots, IsScript p) (h : fs.Leads roots p) : IsScript p := by
  induction h with
  | root h _ => exact hroots _ h
  | imported _ _ hmem ih => exact isScript_of_mem_importsOf ih hmem

/-- A search gives the first candidate at which resolution stops. -/
theorem returns_search (h : host.Shows fs s) {known : Option Bool}
    (hknown : ∀ b, known = some b → b = fs.isDirectory base) (ps : List Path) :
    Session.Returns host (search base known ps) s (ps.find? (fs.stops base)) s := by
  induction ps generalizing known with
  | nil => exact Session.returns_pure _ _
  | cons p ps ih =>
    -- a candidate that is asked for is the result, or the search goes on behind it
    have hprobe : ∀ known, (∀ b, known = some b → b = fs.isDirectory base) →
        (isIndex base p → fs.isDirectory base) →
        Session.Returns host
          (do if ← Session.exists? p then pure (some p) else search base known ps) s
          ((p :: ps).find? (fs.stops base)) s := by
      intro known hknown hdirectory
      have hstops : fs.stops base p = fs.isFile p := by
        rw [stops]
        cases hindex : isIndex base p with
        | false => rfl
        | true => rw [hdirectory hindex]; rfl
      refine (Session.returns_exists?_iff.2 (h.fileExists p)).bind ?_
      rw [List.find?_cons, hstops]
      cases fs.isFile p with
      | true => exact Session.returns_pure _ _
      | false => exact ih hknown
    rw [search]
    by_cases hindex : isIndex base p
    · rw [if_pos hindex]
      suffices hrest : Session.Returns host
          (if fs.isDirectory base then
            (do if ← Session.exists? p then pure (some p)
                else search base (some (fs.isDirectory base)) ps)
          else search base (some (fs.isDirectory base)) ps) s ((p :: ps).find? (fs.stops base)) s by
        cases known with
        | some b =>
          obtain rfl := hknown b rfl
          exact hrest
        | none =>
          exact (Session.returns_isDirectory_iff.2 ⟨h.directoryExists base, rfl⟩).bind hrest
      have hknown' : ∀ b, some (fs.isDirectory base) = some b → b = fs.isDirectory base :=
        fun b hb => (Option.some.inj hb).symm
      by_cases hdirectory : fs.isDirectory base
      · rw [if_pos hdirectory]
        exact hprobe _ hknown' fun _ => hdirectory
      · have hstops : ¬ fs.stops base p := by simp [stops, hindex, hdirectory]
        rw [if_neg hdirectory, List.find?_cons_of_neg hstops]
        exact ih hknown'
    · rw [if_neg hindex]
      exact hprobe known hknown fun h => absurd h hindex

/-- **Resolution is a function of the files.** -/
theorem returns_resolve (h : host.Shows fs s) (specifier : String) (importer : Path) :
    Session.Returns host (Resolution.resolve specifier importer) s (fs.resolve? specifier importer)
      s := by
  rw [Resolution.resolve, resolve?]
  by_cases hrelative : Script.isRelative specifier
  · rw [if_pos hrelative, if_pos hrelative]
    exact returns_search h (fun b hb => absurd hb (by simp)) _
  · rw [if_neg hrelative, if_neg hrelative]
    exact Session.returns_pure _ _

theorem returns_resolveAll (h : host.Shows fs s) (importer : Path) (specifiers : List String)
    (program : Program) :
    ∃ program', program'.files = program.files ∧
      Session.Returns host (Program.resolveAll importer specifiers program) s
        (specifiers.filterMap (fs.resolve? · importer), program') s := by
  induction specifiers generalizing program with
  | nil => exact ⟨program, rfl, Session.returns_pure _ _⟩
  | cons specifier specifiers ih =>
    have hresolve := returns_resolve h specifier importer
    rw [Program.resolveAll]
    by_cases hrelative : Script.isRelative specifier
    · rw [if_pos hrelative]
      cases hfound : fs.resolve? specifier importer with
      | none =>
        rw [hfound] at hresolve
        obtain ⟨program', hfiles, hrest⟩ :=
          ih (program.diagnose importer ("Cannot find module '" ++ specifier ++ "'"))
        refine ⟨program', hfiles, ?_⟩
        have himports : (specifier :: specifiers).filterMap (fs.resolve? · importer) =
            specifiers.filterMap (fs.resolve? · importer) := List.filterMap_cons_none hfound
        rw [himports]
        exact hresolve.bind hrest
      | some found =>
        rw [hfound] at hresolve
        obtain ⟨program', hfiles, hrest⟩ := ih program
        refine ⟨program', hfiles, ?_⟩
        have himports : (specifier :: specifiers).filterMap (fs.resolve? · importer) =
            found :: specifiers.filterMap (fs.resolve? · importer) := List.filterMap_cons_some hfound
        rw [himports]
        exact hresolve.bind (hrest.bind (Session.returns_pure _ _))
    · have hnone : fs.resolve? specifier importer = none := by rw [resolve?, if_neg hrelative]
      have himports : (specifier :: specifiers).filterMap (fs.resolve? · importer) =
          specifiers.filterMap (fs.resolve? · importer) := List.filterMap_cons_none hnone
      rw [if_neg hrelative, himports]
      exact ih program

/-! ## Loading -/

/-- A file of a program is a script that the roots lead to, with its own text and imports. -/
structure Holds (fs : FileSystem) (roots : List Path) (p : Path) (file : SourceFile) : Prop where
  script : IsScript p
  leads : fs.Leads roots p
  path : file.path = p
  text : fs.textOf? p = .ok (some file.text)
  imports : file.imports = fs.importsOf p file.text

/-- What holds while the files that some roots lead to are loaded. -/
structure Loaded (fs : FileSystem) (roots queue : List Path) (program : Program) : Prop where
  queued : ∀ p ∈ queue, IsScript p ∧ (p ∈ roots ∨ fs.Leads roots p)
  loaded : ∀ p file, (p, file) ∈ program.files.toList → fs.Holds roots p file
  roots : ∀ p ∈ roots, fs.isFile p → p ∈ queue ++ program.files.keys
  imports : ∀ p file, (p, file) ∈ program.files.toList → ∀ q ∈ file.imports,
    q ∈ queue ++ program.files.keys

theorem Loaded.isScript (h : fs.Loaded roots queue program) (hp : p ∈ program.files.keys) :
    IsScript p := by
  obtain ⟨file, hfile⟩ := PathMap.mem_keys_iff.1 hp
  exact (h.loaded p file hfile).script

theorem Loaded.rooted (h : fs.Loaded roots queue program) (hp : p ∈ program.files.keys) :
    IsRooted p :=
  (h.isScript hp).rooted

/-- A file may leave the queue if it is loaded already, or if it is none. -/
theorem Loaded.drop (h : fs.Loaded roots (p :: queue) program)
    (hp : fs.isFile p → p ∈ program.files.keys) : fs.Loaded roots queue program := by
  have hsub : ∀ q, fs.isFile q → q ∈ (p :: queue) ++ program.files.keys →
      q ∈ queue ++ program.files.keys := by
    intro q hfile hq
    rcases List.mem_cons.1 hq with rfl | hq
    · exact List.mem_append_right _ (hp hfile)
    · exact hq
  refine ⟨fun q hq => h.queued q (List.mem_cons_of_mem p hq), h.loaded,
    fun q hq hfile => hsub q hfile (h.roots q hq hfile), ?_⟩
  intro q file hfile q' hq'
  refine hsub q' ?_ (h.imports q file hfile q' hq')
  rw [(h.loaded q file hfile).imports] at hq'
  exact isFile_of_mem_importsOf hq'

/-- A file that has been read is loaded, and what it imports is queued. -/
theorem Loaded.load (h : fs.Loaded roots (p :: queue) program)
    (hnew : ¬ program.files.contains p) (htext : fs.textOf? p = .ok (some text))
    (hfiles : program'.files = program.files) :
    fs.Loaded roots
      (Program.enqueue queue (fs.importsOf p text) (program'.addFile p text (fs.importsOf p text)))
      (program'.addFile p text (fs.importsOf p text)) := by
  obtain ⟨hp, hled⟩ := h.queued p List.mem_cons_self
  have hleads : fs.Leads roots p := hled.elim (fun hroot => .root hroot (isFile_of_textOf? htext)) id
  have himported : ∀ q ∈ fs.importsOf p text, IsScript q ∧ fs.Leads roots q :=
    fun q hq => ⟨isScript_of_mem_importsOf hp hq, .imported hleads htext hq⟩
  rw [← hfiles] at hnew
  -- Nothing that was queued or loaded is lost, and the imports are queued unless they are there.
  have hcovered : ∀ q, q ∈ ((p :: queue) ++ program.files.keys) ++ fs.importsOf p text →
      q ∈ Program.enqueue queue (fs.importsOf p text)
          (program'.addFile p text (fs.importsOf p text)) ++
        (program'.addFile p text (fs.importsOf p text)).files.keys := by
    intro q hq
    rw [← hfiles] at hq
    exact Program.covered_addFile (fun k hk => (h.rooted (hfiles ▸ hk)).canonical)
      hp.rooted.canonical hnew (fun q hq => (himported q hq).1.rooted.canonical) hq
  have hold : ∀ q ∈ (p :: queue) ++ program.files.keys, _ :=
    fun q hq => hcovered q (List.mem_append_left _ hq)
  refine ⟨?_, ?_, fun q hq hisFile => hold q (h.roots q hq hisFile), ?_⟩
  · intro q hq
    rcases List.mem_append.1 hq with hq | hq
    · exact h.queued q (List.mem_cons_of_mem p hq)
    · exact (himported q (List.mem_filter.1 hq).1).imp_right Or.inr
  · intro q file hfile
    rcases (PathMap.mem_insert_of_not_contains hnew).1 hfile with heq | hfile
    · cases heq
      exact ⟨hp, hleads, rfl, htext, rfl⟩
    · exact h.loaded q file (hfiles ▸ hfile)
  · intro q file hfile q' hq'
    rcases (PathMap.mem_insert_of_not_contains hnew).1 hfile with heq | hfile
    · cases heq
      exact hcovered q' (List.mem_append_right _ hq')
    · exact hold q' (h.imports q file (hfiles ▸ hfile) q' hq')

/-! ## All steps -/

/-- **No step of loading breaks what it keeps**, and the state stays. -/
theorem loaded_invariant (h : host.Shows fs s) (roots : List Path) :
    Program.Invariant host fun queue program t => fs.Loaded roots queue program ∧ t = s where
  drop p queue program t hI hcontains := by
    obtain ⟨hloaded, rfl⟩ := hI
    have hp := (hloaded.queued p List.mem_cons_self).1.rooted
    exact ⟨hloaded.drop fun _ =>
      (Program.contains_iff_mem_keys (fun k hk => (hloaded.rooted hk).canonical) hp.canonical).1
        hcontains, rfl⟩
  missing p queue program t hI _ htext := by
    obtain ⟨hloaded, rfl⟩ := hI
    rw [h.textOf] at htext
    have hdropped : fs.Loaded roots queue program :=
      hloaded.drop fun hfile => absurd htext (textOf?_ne_none_of_isFile hfile)
    exact ⟨⟨hdropped.queued, hdropped.loaded, hdropped.roots, hdropped.imports⟩, rfl⟩
  load p text imports queue program program' t t' hI hnew htext hresolved := by
    obtain ⟨hloaded, rfl⟩ := hI
    rw [h.textOf] at htext
    obtain ⟨program₁, hfiles, hreturns⟩ :=
      returns_resolveAll h p (Script.specifiers (Script.scan text)) program
    obtain ⟨heq, rfl⟩ := hresolved.unique hreturns
    obtain ⟨rfl, rfl⟩ := Prod.mk.inj heq
    exact ⟨hloaded.load hnew htext hfiles, rfl⟩

/-- **A program holds the files that its roots lead to**, and building it leaves the state. -/
theorem loaded_of_build (h : host.Shows fs s) (hroots : ∀ p ∈ roots, IsScript p)
    (hreturns : Session.Returns host (Program.build roots) s result t) :
    fs.Loaded roots [] result ∧ t = s := by
  refine (loaded_invariant h roots).of_build (fun p hp => (hroots p hp).rooted) ⟨?_, rfl⟩ hreturns
  exact ⟨fun p hp => ⟨hroots p hp, Or.inl hp⟩, fun p file hfile => absurd hfile List.not_mem_nil,
    fun p hp _ => List.mem_append_left _ hp, fun p file hfile => absurd hfile List.not_mem_nil⟩

/-- A file is in a program that is loaded if the roots lead to it. -/
theorem Loaded.mem_keys_iff (h : fs.Loaded roots [] program) (p : Path) :
    p ∈ program.files.keys ↔ fs.Leads roots p := by
  refine ⟨?_, ?_⟩
  · intro hp
    obtain ⟨file, hfile⟩ := PathMap.mem_keys_iff.1 hp
    exact (h.loaded p file hfile).leads
  · intro hleads
    induction hleads with
    | root hroot hfile => exact h.roots _ hroot hfile
    | imported _ htext hmem ih =>
      -- the text of the program is the one that the files have
      obtain ⟨file, hfile⟩ := PathMap.mem_keys_iff.1 ih
      have hholds := h.loaded _ file hfile
      obtain rfl : _ = file.text := Option.some.inj (Except.ok.inj (htext.symm.trans hholds.text))
      exact h.imports _ file hfile _ (hholds.imports ▸ hmem)

/-! ## The files of a program -/

theorem Loaded.mem_values_iff (h : fs.Loaded roots queue program) :
    file ∈ program.files.values ↔ (file.path, file) ∈ program.files.toList :=
  Program.mem_values_iff fun p file hfile => (h.loaded p file hfile).path

theorem Loaded.holds (h : fs.Loaded roots queue program) (hfile : file ∈ program.files.values) :
    fs.Holds roots file.path file :=
  h.loaded _ file (h.mem_values_iff.1 hfile)

theorem Loaded.exists_file (h : fs.Loaded roots [] program) (hp : fs.Leads roots p) :
    ∃ file ∈ program.files.values, file.path = p := by
  obtain ⟨file, hfile⟩ := PathMap.mem_keys_iff.1 ((h.mem_keys_iff p).2 hp)
  have hpath := (h.loaded p file hfile).path
  exact ⟨file, h.mem_values_iff.2 (hpath ▸ hfile), hpath⟩

theorem Loaded.eq_of_path_eq {file' : SourceFile} (h : fs.Loaded roots queue program)
    (hfile : file ∈ program.files.values) (hfile' : file' ∈ program.files.values)
    (heq : file.path = file'.path) : file = file' :=
  congrArg Prod.snd (PathMap.eq_of_same (h.mem_values_iff.1 hfile) (h.mem_values_iff.1 hfile')
    (heq ▸ Path.same_refl _))

theorem Loaded.values_ordered (h : fs.Loaded roots queue program) :
    program.files.values.Pairwise fun a b => a.path.compare b.path = .lt := by
  refine List.pairwise_map.2 (program.files.ordered.imp_of_mem ?_)
  rintro ⟨p, a⟩ ⟨q, b⟩ ha hb hlt
  rw [(h.loaded p a ha).path, (h.loaded q b hb).path]
  exact hlt

end FileSystem

end SvelteTypings

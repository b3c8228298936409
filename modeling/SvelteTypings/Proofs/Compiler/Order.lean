import SvelteTypings.Compiler.Emission
import SvelteTypings.Proofs.Compiler.Answers

/-!
# The order of roots

With another order of the roots other files are loaded first, other questions are asked first, and a
file can stand in the queue at other times and several times. A steady host makes up for it: what is
loaded is what the roots lead to, what has been asked for is what the loaded files ask for, and what
is remarked is remarked on a loaded file or on a missing root (`Answers.Loaded`). None of this
speaks of an order, so two builds whose roots are the same come to the same (`Steady.sameBuild`).
-/

namespace SvelteTypings

open SvelteTypings.Path (IsCanonical)

namespace Answers

variable {a : Answers} {Known : Path → Prop} {roots roots' queue asked asked' imports : List Path}
  {p q : Path} {text : String} {file file' : SourceFile} {program program' rest : Program}
  {e : Failure}

/-! ## What roots lead to -/

/-- What some roots lead to through imports. -/
inductive Leads (a : Answers) (roots : List Path) : Path → Prop where
  | root {p : Path} (h : p ∈ roots) : a.Leads roots p
  | imported {file target : Path} {text : String} {imports : List Path} {rest : Program}
      (h : a.Leads roots file) (htext : a.textOf file = .ok (some text))
      (hreading : (a.reading file text).result = .ok (imports, rest)) (hmem : target ∈ imports) :
      a.Leads roots target

/-- More roots lead to more. -/
theorem Leads.mono (h : a.Leads roots p) (hsub : roots ⊆ roots') : a.Leads roots' p := by
  induction h with
  | root h => exact .root (hsub h)
  | imported _ htext hreading hmem ih => exact .imported ih htext hreading hmem

/-- What known roots lead to can be read. -/
theorem Leads.offers (h : a.Leads roots p) (hroots : ∀ r ∈ roots, IsCanonical r ∧ Known r) :
    a.Offers Known p := by
  cases h with
  | root h => exact ⟨(hroots p h).1, Or.inl (hroots p h).2⟩
  | imported _ _ hreading hmem =>
    obtain ⟨hcanonical, hfile, -⟩ := found_of_mem_imports hreading hmem
    exact ⟨hcanonical, Or.inr hfile⟩

/-- The roots lead to a file that cannot be read, or of which an import cannot be resolved. -/
inductive Blocks (a : Answers) (roots : List Path) (e : Failure) : Prop where
  | unread (p : Path) (h : a.Leads roots p) (htext : a.textOf p = .error e)
  | unresolved (p : Path) (text : String) (h : a.Leads roots p)
      (htext : a.textOf p = .ok (some text)) (hreading : (a.reading p text).result = .error e)

theorem Blocks.mono (h : a.Blocks roots e) (hsub : roots ⊆ roots') : a.Blocks roots' e := by
  cases h with
  | unread p h htext => exact .unread p (h.mono hsub) htext
  | unresolved p text h htext hreading => exact .unresolved p text (h.mono hsub) htext hreading

/-! ## What is loaded -/

/-- A file of a program has its own text and imports. -/
structure Holds (a : Answers) (p : Path) (file : SourceFile) : Prop where
  path : file.path = p
  text : a.textOf p = .ok (some file.text)
  imports : ∃ rest, (a.reading p file.text).result = .ok (file.imports, rest)

/-- However the text of a file is known, its imports are what the reading of it comes to. -/
theorem Holds.reading_eq (h : a.Holds p file) (htext : a.textOf p = .ok (some text)) :
    text = file.text ∧ ∃ rest, (a.reading p text).result = .ok (file.imports, rest) := by
  obtain rfl : text = file.text := Option.some.inj (Except.ok.inj (htext.symm.trans h.text))
  exact ⟨rfl, h.imports⟩

theorem Holds.unique (h : a.Holds p file) (h' : a.Holds p file') : file = file' := by
  obtain ⟨htext, rest, hreading⟩ := h.reading_eq h'.text
  obtain ⟨rest', hreading'⟩ := h'.imports
  have himports : file.imports = file'.imports :=
    (Prod.mk.inj (Except.ok.inj (hreading.symm.trans hreading'))).1
  calc file = ⟨file.path, file.text, file.imports⟩ := rfl
    _ = ⟨file'.path, file'.text, file'.imports⟩ := by rw [h.path, h'.path, htext, himports]

/-- What is remarked on the imports of a file. -/
def remarks (a : Answers) (file : SourceFile) : List Diagnostic :=
  match (a.reading file.path file.text).result with
  | .ok (_, rest) => rest.diagnostics
  | .error _ => []

/-- The paths that are asked for when a file is loaded. -/
def probes (a : Answers) (file : SourceFile) : List Path :=
  (a.reading file.path file.text).state

/-- There is no file to read at the path. -/
def isMissing (a : Answers) (p : Path) : Bool :=
  match a.textOf p with
  | .ok none => true
  | _ => false

theorem isMissing_iff : a.isMissing p ↔ a.textOf p = .ok none := by
  rw [isMissing]
  split
  · next h => simp [h]
  · next h => simpa using h

def notFound (p : Path) : Diagnostic := ⟨some p, "File not found"⟩

/-- What holds while the files that some roots lead to are loaded. No part depends on an order. -/
structure Loaded (a : Answers) (roots queue : List Path) (program : Program) (asked : List Path) :
    Prop where
  queued : ∀ p ∈ queue, a.Leads roots p ∧ (p ∈ roots ∨ p ∈ asked)
  loaded : ∀ p file, (p, file) ∈ program.files.toList → a.Leads roots p ∧ a.Holds p file
  /-- `gone` are the roots of which it has turned out that they are missing. -/
  diagnostics : ∃ gone, (gone ++ queue.filter a.isMissing).Perm (roots.filter a.isMissing) ∧
    program.diagnostics.Perm (gone.map notFound ++ program.files.values.flatMap a.remarks)
  asked : ∀ q, q ∈ asked ↔ ∃ file ∈ program.files.values, q ∈ a.probes file
  roots : ∀ p ∈ roots, ¬ a.isMissing p → p ∈ queue ++ program.files.keys
  imports : ∀ p file, (p, file) ∈ program.files.toList → ∀ q ∈ file.imports,
    q ∈ queue ++ program.files.keys

theorem loaded_empty (a : Answers) (roots : List Path) : a.Loaded roots roots .empty [] where
  queued _ hp := ⟨.root hp, Or.inl hp⟩
  loaded _ _ hfile := absurd hfile List.not_mem_nil
  asked q := by simp [Program.empty, PathMap.values, PathMap.empty]
  roots _ hp _ := List.mem_append_left _ hp
  imports _ _ hfile := absurd hfile List.not_mem_nil
  diagnostics := ⟨[], .refl _, .refl _⟩

theorem Loaded.holds (h : a.Loaded roots queue program asked) (hp : p ∈ program.files.keys) :
    a.Leads roots p ∧ ∃ file, (p, file) ∈ program.files.toList ∧ a.Holds p file := by
  obtain ⟨file, hfile⟩ := PathMap.mem_keys_iff.1 hp
  obtain ⟨hleads, hholds⟩ := h.loaded p file hfile
  exact ⟨hleads, file, hfile, hholds⟩

theorem Loaded.not_isMissing (h : a.Loaded roots queue program asked)
    (hp : p ∈ program.files.keys) : ¬ a.isMissing p := by
  obtain ⟨-, file, -, hholds⟩ := h.holds hp
  rw [isMissing_iff, hholds.text]
  simp

/-! ## Steps -/

/-- A file that is loaded already may leave the queue. -/
theorem Loaded.drop (h : a.Loaded roots (p :: queue) program asked) (hp : p ∈ program.files.keys) :
    a.Loaded roots queue program asked := by
  have hsub : (p :: queue) ++ program.files.keys ⊆ queue ++ program.files.keys := by
    intro q hq
    rcases List.mem_cons.1 hq with rfl | hq
    · exact List.mem_append_right _ hp
    · exact hq
  obtain ⟨gone, hgone, hdiagnostics⟩ := h.diagnostics
  rw [List.filter_cons_of_neg (h.not_isMissing hp)] at hgone
  exact ⟨fun q hq => h.queued q (List.mem_cons_of_mem p hq), h.loaded, ⟨gone, hgone, hdiagnostics⟩,
    h.asked, fun q hq hmissing => hsub (h.roots q hq hmissing),
    fun q file hfile q' hq' => hsub (h.imports q file hfile q' hq')⟩

/-- A missing file leaves the queue with a remark. Only a root can be missing, since what is
imported has been found. -/
theorem Loaded.missing (h : a.Loaded roots (p :: queue) program asked)
    (hfound : ∀ q, IsCanonical q → a.isFile q = .ok true → a.textOf q ≠ .ok none)
    (htext : a.textOf p = .ok none) :
    a.Loaded roots queue (program.diagnose p "File not found") asked := by
  have hsub : ∀ q, ¬ a.isMissing q → q ∈ (p :: queue) ++ program.files.keys →
      q ∈ queue ++ program.files.keys := by
    intro q hmissing hq
    rcases List.mem_cons.1 hq with rfl | hq
    · exact absurd (isMissing_iff.2 htext) hmissing
    · exact hq
  refine ⟨fun q hq => h.queued q (List.mem_cons_of_mem p hq), h.loaded, ?_, h.asked,
    fun q hq hmissing => hsub q hmissing (h.roots q hq hmissing), ?_⟩
  · obtain ⟨gone, hgone, hdiagnostics⟩ := h.diagnostics
    rw [List.filter_cons_of_pos (isMissing_iff.2 htext)] at hgone
    refine ⟨gone ++ [p], by rwa [List.append_assoc], ?_⟩
    show (program.diagnostics ++ [notFound p]).Perm
      ((gone ++ [p]).map notFound ++ program.files.values.flatMap a.remarks)
    rw [List.map_append, List.append_assoc]
    refine (hdiagnostics.append_right _).trans ?_
    rw [List.append_assoc]
    exact List.perm_append_comm.append_left _
  · intro q file hfile q' hq'
    obtain ⟨rest, hreading⟩ := (h.loaded q file hfile).2.imports
    obtain ⟨hcanonical, hisFile, -⟩ := found_of_mem_imports hreading hq'
    have hmissing : ¬ a.isMissing q' := mt isMissing_iff.1 (hfound q' hcanonical hisFile)
    exact hsub q' hmissing (h.imports q file hfile q' hq')

/-- The files with one more, in whatever order. -/
theorem values_addFile_perm (text : String) (imports : List Path)
    (hnew : ¬ program.files.contains p) :
    (program.addFile p text imports).files.values.Perm
      (⟨p, text, imports⟩ :: program.files.values) :=
  (PathMap.insert_perm_of_not_contains hnew).map Prod.snd

/-- When a file is loaded, what is remarked on its imports is all that is added to the diagnostics.
Nothing that it imports is missing. -/
theorem Loaded.diagnostics_addFile (h : a.Loaded roots (p :: queue) program asked)
    (hfound : ∀ q, IsCanonical q → a.isFile q = .ok true → a.textOf q ≠ .ok none)
    (hnew : ¬ program'.files.contains p) (htext : a.textOf p = .ok (some text))
    (hreading : (a.reading p text).result = .ok (imports, rest))
    (hfiles : program'.files = program.files)
    (hremarked : program'.diagnostics = program.diagnostics ++ rest.diagnostics) :
    ∃ gone, (gone ++ (Program.enqueue queue imports (program'.addFile p text imports)).filter
        a.isMissing).Perm (roots.filter a.isMissing) ∧
      (program'.addFile p text imports).diagnostics.Perm
        (gone.map notFound ++
          (program'.addFile p text imports).files.values.flatMap a.remarks) := by
  obtain ⟨gone, hgone, hdiagnostics⟩ := h.diagnostics
  -- The file is there, and so are its imports: no root that is missing has gone from the queue.
  have hp : ¬ a.isMissing p := by rw [isMissing_iff, htext]; simp
  have himports : (imports.filter fun q =>
      !(program'.addFile p text imports).files.contains q).filter a.isMissing = [] := by
    refine List.filter_eq_nil_iff.2 fun q hq => ?_
    obtain ⟨hq, hisFile, -⟩ := found_of_mem_imports hreading (List.mem_filter.1 hq).1
    exact mt isMissing_iff.1 (hfound q hq hisFile)
  have hremarks : a.remarks ⟨p, text, imports⟩ = rest.diagnostics := by rw [remarks, hreading]
  have hvalues : ((program'.addFile p text imports).files.values.flatMap a.remarks).Perm
      (rest.diagnostics ++ program.files.values.flatMap a.remarks) := by
    have hperm := (values_addFile_perm text imports hnew).flatMap_right a.remarks
    rwa [List.flatMap_cons, hremarks, hfiles] at hperm
  refine ⟨gone, ?_, ?_⟩
  · rw [Program.enqueue, List.filter_append, himports, List.append_nil]
    rwa [List.filter_cons_of_neg hp] at hgone
  · show program'.diagnostics.Perm _
    rw [hremarked]
    refine (hdiagnostics.append_right _).trans ?_
    rw [List.append_assoc]
    exact (List.perm_append_comm.trans hvalues.symm).append_left _

/-- A file that has been read is loaded, and what it imports is queued. -/
theorem Loaded.load (h : a.Loaded roots (p :: queue) program asked)
    (hroots : ∀ r ∈ roots, IsCanonical r ∧ Known r)
    (hfound : ∀ q, IsCanonical q → a.isFile q = .ok true → a.textOf q ≠ .ok none)
    (hnew : ¬ program'.files.contains p) (htext : a.textOf p = .ok (some text))
    (hreading : (a.reading p text).result = .ok (imports, rest))
    (hfiles : program'.files = program.files)
    (hremarked : program'.diagnostics = program.diagnostics ++ rest.diagnostics) :
    a.Loaded roots (Program.enqueue queue imports (program'.addFile p text imports))
      (program'.addFile p text imports) ((a.reading p text).state ++ asked) := by
  obtain ⟨hleads, -⟩ := h.queued p List.mem_cons_self
  have himported : ∀ q ∈ imports, a.Leads roots q := fun q hq => .imported hleads htext hreading hq
  have hcanonical : ∀ q, a.Leads roots q → IsCanonical q := fun q hq => (hq.offers hroots).canonical
  -- Of the files only the one that was read is new.
  have hentries : ∀ q file, (q, file) ∈ (program'.addFile p text imports).files.toList →
      (q = p ∧ file = ⟨p, text, imports⟩) ∨ (q, file) ∈ program.files.toList := by
    intro q file hfile
    rw [← hfiles]
    exact ((PathMap.mem_insert_of_not_contains hnew).1 hfile).imp_left Prod.mk.inj
  -- Nothing that was queued or loaded is lost, and the imports are queued unless they are there.
  have hcovered : ∀ q, q ∈ ((p :: queue) ++ program.files.keys) ++ imports →
      q ∈ Program.enqueue queue imports (program'.addFile p text imports) ++
        (program'.addFile p text imports).files.keys := by
    intro q hq
    rw [← hfiles] at hq
    exact Program.covered_addFile (fun k hk => hcanonical k (h.holds (hfiles ▸ hk)).1)
      (hcanonical p hleads) hnew (fun q hq => hcanonical q (himported q hq)) hq
  have hold : ∀ q ∈ (p :: queue) ++ program.files.keys, _ :=
    fun q hq => hcovered q (List.mem_append_left imports hq)
  refine ⟨?_, ?_, h.diagnostics_addFile hfound hnew htext hreading hfiles hremarked, ?_,
    fun q hq hmissing => hold q (h.roots q hq hmissing), ?_⟩
  · intro q hq
    rcases List.mem_append.1 hq with hq | hq
    · obtain ⟨hq, hready⟩ := h.queued q (List.mem_cons_of_mem p hq)
      exact ⟨hq, hready.imp_right (List.mem_append_right _)⟩
    · have hmem := (List.mem_filter.1 hq).1
      exact ⟨himported q hmem,
        Or.inr (List.mem_append_left _ (found_of_mem_imports hreading hmem).2.2)⟩
  · intro q file hfile
    rcases hentries q file hfile with ⟨rfl, rfl⟩ | hfile
    · exact ⟨hleads, rfl, htext, rest, hreading⟩
    · exact h.loaded q file hfile
  · intro q
    rw [List.mem_append, h.asked, ← hfiles]
    simp only [(values_addFile_perm text imports hnew).mem_iff, List.mem_cons, exists_eq_or_imp]
    rfl
  · intro q file hfile q' hq'
    rcases hentries q file hfile with ⟨rfl, rfl⟩ | hfile
    · exact hcovered q' (List.mem_append_right _ hq')
    · exact hold q' (h.imports q file hfile q' hq')

/-! ## What is loaded in the end -/

/-- Everything that the roots lead to is loaded or missing. -/
theorem Loaded.covers (h : a.Loaded roots [] program asked) (hleads : a.Leads roots p) :
    p ∈ program.files.keys ∨ a.textOf p = .ok none := by
  induction hleads with
  | @root p hroot =>
    by_cases hmissing : a.isMissing p
    · exact Or.inr (isMissing_iff.1 hmissing)
    · exact Or.inl (h.roots _ hroot hmissing)
  | imported _ htext hreading hmem ih =>
    rcases ih with hkey | hnone
    · obtain ⟨-, file, hfile, hholds⟩ := h.holds hkey
      obtain ⟨-, rest, hreading'⟩ := hholds.reading_eq htext
      obtain ⟨rfl, -⟩ := Prod.mk.inj (Except.ok.inj (hreading.symm.trans hreading'))
      exact Or.inl (h.imports _ file hfile _ hmem)
    · exact absurd (htext.symm.trans hnone) (by simp)

theorem Loaded.exists_file (h : a.Loaded roots [] program asked) (hleads : a.Leads roots p)
    (htext : a.textOf p ≠ .ok none) : ∃ file, (p, file) ∈ program.files.toList ∧ a.Holds p file :=
  (h.holds ((h.covers hleads).resolve_right htext)).2

/-- Roots of which a program has been built lead to nothing that fails. -/
theorem Loaded.not_blocks (h : a.Loaded roots [] program asked) : ¬ a.Blocks roots e := by
  rintro (⟨p, hleads, htext⟩ | ⟨p, text, hleads, htext, hreading⟩)
  · obtain ⟨file, -, hholds⟩ := h.exists_file hleads (by simp [htext])
    exact absurd (htext.symm.trans hholds.text) (by simp)
  · obtain ⟨file, -, hholds⟩ := h.exists_file hleads (by simp [htext])
    obtain ⟨-, rest, hreading'⟩ := hholds.reading_eq htext
    exact absurd (hreading.symm.trans hreading') (by simp)

theorem Loaded.mem_of_subset (h : a.Loaded roots [] program asked)
    (h' : a.Loaded roots' [] program' asked') (hsub : roots ⊆ roots')
    (hfile : (p, file) ∈ program.files.toList) : (p, file) ∈ program'.files.toList := by
  obtain ⟨hleads, hholds⟩ := h.loaded p file hfile
  obtain ⟨file', hfile', hholds'⟩ := h'.exists_file (hleads.mono hsub) (by simp [hholds.text])
  exact hholds.unique hholds' ▸ hfile'

/-- **The files of a program do not depend on the order of the roots.** -/
theorem Loaded.files_eq (h : a.Loaded roots [] program asked)
    (h' : a.Loaded roots' [] program' asked') (hperm : roots.Perm roots') :
    program'.files = program.files := by
  refine PathMap.eq_of_mem_iff fun entry => ⟨?_, ?_⟩
  · exact h'.mem_of_subset h hperm.symm.subset
  · exact h.mem_of_subset h' hperm.subset

theorem Loaded.asked_iff (h : a.Loaded roots [] program asked)
    (h' : a.Loaded roots' [] program' asked') (hperm : roots.Perm roots') (q : Path) :
    q ∈ asked ↔ q ∈ asked' := by
  rw [h.asked, h'.asked, h.files_eq h' hperm]

/-- Nor do the diagnostics, apart from their order. -/
theorem Loaded.diagnostics_perm (h : a.Loaded roots [] program asked)
    (h' : a.Loaded roots' [] program' asked') (hperm : roots.Perm roots') :
    program'.diagnostics.Perm program.diagnostics := by
  obtain ⟨gone, hgone, hdiagnostics⟩ := h.diagnostics
  obtain ⟨gone', hgone', hdiagnostics'⟩ := h'.diagnostics
  rw [List.filter_nil, List.append_nil] at hgone hgone'
  have hmissing : gone'.Perm gone :=
    hgone'.trans ((hperm.symm.filter a.isMissing).trans hgone.symm)
  rw [h.files_eq h' hperm] at hdiagnostics'
  exact hdiagnostics'.trans (((hmissing.map notFound).append_right _).trans hdiagnostics.symm)

end Answers

end SvelteTypings

import SvelteTypings.Proofs.Compiler.Files

/-!
# Emission, and what it leaves

Compiling builds a program and writes its declarations (`build_and_write_of_compile`). The capturing
host keeps one text at each path that was written to. Two files whose paths differ in the suffix of
their language only have one declaration file, and the later of them in path order decides what is
in it (`get?_of_compile`).
-/

namespace SvelteTypings.Emission

open SvelteTypings.Path (IsRooted)

variable {fs : FileSystem} {cwd p q : Path} {o : CompilerOptions} {files : List SourceFile}
  {file : SourceFile} {roots : List Path} {writes writes' : PathMap String} {program : Program}
  {output : EmitOutput} {text : String}

/-! ## Declaration files -/

/-- A script is a stem with a suffix, and its declaration file is the stem with another. -/
theorem exists_stem (h : ∃ s ∈ sourceSuffixes, p.hasSuffix s) :
    ∃ s ∈ sourceSuffixes, p = (p.stem sourceSuffixes).appendSuffix s := by
  obtain ⟨s, hs, hsuffix⟩ := h
  rw [Path.stem]
  cases hfind : sourceSuffixes.findSome? p.stripSuffix? with
  | none =>
    have hnone := List.findSome?_eq_none_iff.1 hfind s hs
    obtain ⟨q, rfl⟩ := Path.hasSuffix_iff_exists.1 hsuffix
    rw [Path.stripSuffix?_appendSuffix] at hnone
    exact absurd hnone (by simp)
  | some q =>
    obtain ⟨s', hs', hstrip⟩ := List.exists_of_findSome?_eq_some hfind
    exact ⟨s', hs', (Path.stripSuffix?_eq_some_iff _ _ _).1 hstrip⟩

theorem isRooted_declarationPath (h : IsScript p) : IsRooted (declarationPath p) := by
  obtain ⟨s, hs, hp⟩ := exists_stem h.ending
  have hrooted : IsRooted ((p.stem sourceSuffixes).appendSuffix s) := hp ▸ h.rooted
  exact hrooted.exchangeSuffix (isSuffix_of_mem_sourceSuffixes hs) Path.isSuffix_declaration

/-! ## Compiling against any host -/

section Host

variable {σ : Type} {host : Host σ} {s t : σ}

/-- Compiling builds a program and writes its declarations. -/
theorem build_and_write_of_compile (h : Session.Returns host (compile roots o) s output t) :
    ∃ program s' written, Session.Returns host (Program.build roots) s program s' ∧
      Session.Returns host
        (writeAll o (program.files.values.filter fun file => shouldEmit o file.path)) s' written t := by
  rw [compile] at h
  split at h
  · exact absurd h Session.not_returns_fail
  · obtain ⟨program, s', hbuild, h⟩ := Session.returns_bind_iff.1 h
    obtain ⟨written, t', hwrite, h⟩ := Session.returns_bind_iff.1 h
    obtain ⟨u, t'', hreport, h⟩ := Session.returns_bind_iff.1 h
    obtain rfl : t' = t'' := Session.returns_report_iff.1 hreport
    obtain ⟨-, rfl⟩ := Session.returns_pure_iff.1 h
    exact ⟨program, s', written, hbuild, hwrite⟩

/-- What a host keeps when the declarations of files are written in order. -/
def saved (host : Host σ) (o : CompilerOptions) (files : List SourceFile) (s : σ) : σ :=
  files.foldl (fun s file =>
    (host.save s (declarationPath file.path) (Script.declarations o file.text)).2) s

/-- Writing fails only if the host fails. -/
theorem returns_writeAll (hsave : ∀ s p text, (host.save s p text).1 = .ok ()) (o : CompilerOptions)
    (files : List SourceFile) (s : σ) :
    Session.Returns host (writeAll o files) s (files.map fun file => declarationPath file.path)
      (saved host o files s) := by
  induction files generalizing s with
  | nil => exact Session.returns_pure _ _
  | cons file files ih =>
    have hwrite : Session.Returns host
        (Session.write (declarationPath file.path) (Script.declarations o file.text)) s ()
        (host.save s (declarationPath file.path) (Script.declarations o file.text)).2 :=
      Session.returns_write_iff.2 (Prod.ext (hsave _ _ _) rfl)
    exact hwrite.bind ((ih _).bind (Session.returns_pure _ _))

end Host

/-! ## Writing to the capturing host -/

/-- The last file whose declarations go to a path decides what is found there. -/
theorem get?_saved (fs : FileSystem) (cwd : Path) (o : CompilerOptions) (files : List SourceFile)
    (writes : PathMap String) (p : Path) :
    (saved (Host.capturing fs cwd) o files writes).get? p =
      ((files.reverse.find? fun file => (declarationPath file.path).same p).map fun file =>
        Script.declarations o file.text).or (writes.get? p) := by
  induction files generalizing writes with
  | nil => rfl
  | cons file files ih =>
    have hstep : saved (Host.capturing fs cwd) o (file :: files) writes =
        saved (Host.capturing fs cwd) o files
          (writes.insert (declarationPath file.path) (Script.declarations o file.text)) := rfl
    rw [hstep, ih, PathMap.get?_insert, List.reverse_cons, List.find?_append]
    cases files.reverse.find? fun file => (declarationPath file.path).same p with
    | some later => rfl
    | none =>
      by_cases hsame : (declarationPath file.path).same p
      · simp [hsame]
      · simp [hsame]

/-- In an ordered list, what is found from behind has everything else that would be found before it.
-/
theorem find?_reverse_eq_some_iff {α : Type} {R : α → α → Prop} {l : List α} {q : α → Bool} {a : α}
    (h : l.Pairwise R) (hasymm : ∀ a b, R a b → ¬ R b a) :
    l.reverse.find? q = some a ↔ a ∈ l ∧ q a ∧ ∀ b ∈ l, q b → b = a ∨ R b a := by
  have hlast : ∀ {a}, l.reverse.find? q = some a → a ∈ l ∧ q a ∧ ∀ b ∈ l, q b → b = a ∨ R b a := by
    intro a hfind
    obtain ⟨hq, behind, before, hsplit, hnot⟩ := List.find?_eq_some_iff_append.1 hfind
    obtain rfl : l = before.reverse ++ a :: behind.reverse := by
      rw [← l.reverse_reverse, hsplit]
      simp
    refine ⟨by simp, hq, fun b hb hqb => ?_⟩
    rcases List.mem_append.1 hb with hb | hb
    · exact Or.inr ((List.pairwise_append.1 h).2.2 b hb a List.mem_cons_self)
    · rcases List.mem_cons.1 hb with hb | hb
      · exact Or.inl hb
      · have hfalse := hnot b (List.mem_reverse.1 hb)
        rw [hqb] at hfalse
        exact absurd hfalse (by decide)
  refine ⟨hlast, ?_⟩
  rintro ⟨hmem, hq, hall⟩
  obtain ⟨a', hfind⟩ : ∃ a', l.reverse.find? q = some a' := by
    rw [← Option.isSome_iff_exists, List.find?_isSome]
    exact ⟨a, List.mem_reverse.2 hmem, hq⟩
  obtain ⟨hmem', hq', hall'⟩ := hlast hfind
  -- each of the two is behind the other, so they are one
  rcases hall a' hmem' hq' with heq | hlt
  · exact heq ▸ hfind
  · rcases hall' a hmem hq with heq | hgt
    · exact heq ▸ hfind
    · exact absurd hgt (hasymm _ _ hlt)

/-! ## Compiling to memory -/

/-- Of all files that some roots lead to, the last in path order whose declarations go to a path. -/
structure Decides (fs : FileSystem) (o : CompilerOptions) (roots : List Path) (p file : Path) :
    Prop where
  leads : fs.Leads roots file
  emits : shouldEmit o file
  goes : declarationPath file = p
  last : ∀ other, fs.Leads roots other → shouldEmit o other → declarationPath other = p →
    other = file ∨ other.compare file = .lt

/-- The text at a path when the declarations of all that some roots lead to have been written. -/
def Kept (fs : FileSystem) (o : CompilerOptions) (roots : List Path) (p : Path) (text : String) :
    Prop :=
  ∃ file source, Decides fs o roots p file ∧ fs.textOf? file = .ok (some source) ∧
    text = Script.declarations o source

/-- What compiling keeps are the declarations of the files of its program. -/
theorem exists_loaded_of_compile (hroots : ∀ p ∈ roots, IsScript p)
    (h : Session.Returns (Host.capturing fs cwd) (compile roots o) writes output writes') :
    ∃ program, fs.Loaded roots [] program ∧ writes' = saved (Host.capturing fs cwd) o
      (program.files.values.filter fun file => shouldEmit o file.path) writes := by
  obtain ⟨program, writes₁, written, hbuild, hwrite⟩ := build_and_write_of_compile h
  obtain ⟨hloaded, rfl⟩ :=
    FileSystem.loaded_of_build (Host.shows_capturing fs cwd writes) hroots hbuild
  exact ⟨program, hloaded, (hwrite.unique (returns_writeAll (fun _ _ _ => rfl) o _ _)).2⟩

/-- **The last file in path order decides what is kept** where its declarations go. -/
theorem get?_of_compile (hroots : ∀ p ∈ roots, IsScript p) (hp : IsRooted p)
    (h : Session.Returns (Host.capturing fs cwd) (compile roots o) .empty output writes') :
    writes'.get? p = some text ↔ Kept fs o roots p text := by
  obtain ⟨program, hloaded, rfl⟩ := exists_loaded_of_compile hroots h
  have hordered := hloaded.values_ordered.filter fun file => shouldEmit o file.path
  have hasymm : ∀ a b : SourceFile, a.path.compare b.path = .lt → ¬ b.path.compare a.path = .lt :=
    fun a b hab hba => Path.not_same_of_lt (Path.compare_trans hab hba) (Path.same_refl _)
  -- Two paths of declarations that are the same are equal, as both are rooted.
  have hgoes : ∀ q, fs.Leads roots q → ((declarationPath q).same p ↔ declarationPath q = p) := by
    intro q hq
    refine ⟨(isRooted_declarationPath (hq.isScript hroots)).eq_of_same hp, ?_⟩
    rintro rfl
    exact Path.same_refl _
  have hnone : PathMap.empty.get? p = (none : Option String) := rfl
  -- The files are saved in order, so the last one found is the one that stays.
  rw [get?_saved, hnone, Option.or_none, Option.map_eq_some_iff]
  refine ⟨?_, ?_⟩
  · rintro ⟨file, hfind, rfl⟩
    obtain ⟨hmem, hsame, hlast⟩ := (find?_reverse_eq_some_iff hordered hasymm).1 hfind
    obtain ⟨hmem, hemits⟩ := List.mem_filter.1 hmem
    have hholds := hloaded.holds hmem
    refine ⟨file.path, file.text, ⟨hholds.leads, hemits, (hgoes _ hholds.leads).1 hsame, ?_⟩,
      hholds.text, rfl⟩
    intro other hother hemits' hgoes'
    obtain ⟨x, hx, rfl⟩ := hloaded.exists_file hother
    refine (hlast x (List.mem_filter.2 ⟨hx, hemits'⟩) ((hgoes _ hother).2 hgoes')).imp_left ?_
    rintro rfl
    rfl
  · rintro ⟨q, source, hdecides, htext, rfl⟩
    obtain ⟨file, hmem, rfl⟩ := hloaded.exists_file hdecides.leads
    obtain rfl : file.text = source :=
      Option.some.inj (Except.ok.inj ((hloaded.holds hmem).text.symm.trans htext))
    refine ⟨file, (find?_reverse_eq_some_iff hordered hasymm).2
      ⟨List.mem_filter.2 ⟨hmem, hdecides.emits⟩, (hgoes _ hdecides.leads).2 hdecides.goes, ?_⟩, rfl⟩
    intro x hx hsame
    obtain ⟨hx, hemits⟩ := List.mem_filter.1 hx
    have hleads := (hloaded.holds hx).leads
    exact (hdecides.last x.path hleads hemits ((hgoes _ hleads).1 hsame)).imp_left
      (hloaded.eq_of_path_eq hx hmem)

end SvelteTypings.Emission

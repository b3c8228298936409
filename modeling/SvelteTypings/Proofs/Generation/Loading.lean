import SvelteTypings.Proofs.Compiler.Program
import SvelteTypings.Proofs.Generation.Reachability

/-!
# Loading a program

Loading goes through a queue of files. What it keeps is `Config.Loading`: files of the program have
been read as they are, what they import is loaded or queued, and so is whatever has been added to
the table. When the queue is empty, the files of the program are closed under imports.
-/

namespace SvelteTypings.Generation

open SvelteTypings.Path (IsRooted)

/-- A file that may stand in the queue: it is there, it is known if it is intermediate, and the
listed components lead to it. -/
structure Config.Loadable (c : Config) (fs : FileSystem) (transformer : Transformer) (t : Table)
    (p : Path) : Prop where
  typed : IsTyped p
  available : c.Available fs p
  known : c.Shows fs p → p ∈ t.keys
  reached : c.Reaches fs transformer p

/-- What holds while the files that some roots lead to are loaded. `start` is the table at the
beginning. -/
structure Config.Loading (c : Config) (fs : FileSystem) (transformer : Transformer) (start : Table)
    (roots queue : List Path) (program : Program) (t : Table) : Prop where
  grows : c.Grows fs transformer start (queue ++ program.files.keys) t
  queued : ∀ p ∈ queue, c.Loadable fs transformer t p
  loaded : ∀ p file, (p, file) ∈ program.files.toList →
    c.Loadable fs transformer t p ∧ file.path = p ∧ c.Serves fs transformer p file.text
  roots : ∀ p ∈ roots, p ∈ queue ++ program.files.keys
  imports : ∀ p ∈ program.files.keys, ∀ q, c.Imports fs transformer p q →
    q ∈ queue ++ program.files.keys
  /-- Whatever has been asked for a file that is loaded has been answered. -/
  asked : ∀ p ∈ program.files.keys, ∀ q, c.Asks fs transformer p q → c.Answers fs transformer q

variable {c : Config} {fs : FileSystem} {transformer : Transformer} {cwd p : Path}
  {t t' start : Table} {roots queue imports : List Path} {program program' result : Program}
  {text : String}

theorem Config.Loadable.of_grows {found : List Path} (h : c.Loadable fs transformer t p)
    (hgrows : c.Grows fs transformer t found t') : c.Loadable fs transformer t' p :=
  ⟨h.typed, h.available, fun hshows => hgrows.mem_keys (h.known hshows), h.reached⟩

theorem Config.Loadable.clearDiscovered (h : c.Loadable fs transformer t p) :
    c.Loadable fs transformer t.clearDiscovered p where
  typed := h.typed
  available := h.available
  known hshows := by
    rw [Table.keys_clearDiscovered]
    exact h.known hshows
  reached := h.reached

theorem Config.Loading.loadable (h : c.Loading fs transformer start roots queue program t)
    (hp : p ∈ program.files.keys) : c.Loadable fs transformer t p := by
  obtain ⟨file, hfile⟩ := PathMap.mem_keys_iff.1 hp
  exact (h.loaded p file hfile).1

theorem Config.Loading.rooted (h : c.Loading fs transformer start roots queue program t)
    (hp : p ∈ program.files.keys) : IsRooted p :=
  (h.loadable hp).typed.rooted

/-! ## Steps -/

/-- A file that is loaded already may leave the queue. -/
theorem Config.Loading.drop (h : c.Loading fs transformer start roots (p :: queue) program t)
    (hp : program.files.contains p) : c.Loading fs transformer start roots queue program t := by
  have hkey : p ∈ program.files.keys := (Program.contains_iff_mem_keys
    (fun k hk => (h.rooted hk).canonical)
    (h.queued p List.mem_cons_self).typed.rooted.canonical).1 hp
  have hsub : (p :: queue) ++ program.files.keys ⊆ queue ++ program.files.keys := by
    intro q hq
    rcases List.mem_cons.1 hq with rfl | hq
    · exact List.mem_append_right _ hkey
    · exact hq
  exact ⟨h.grows.mono hsub, fun q hq => h.queued q (List.mem_cons_of_mem p hq), h.loaded,
    fun q hq => hsub (h.roots q hq), fun q hq q' hq' => hsub (h.imports q hq q' hq'), h.asked⟩

/-- What a file imports is what its specifiers were resolved to. -/
theorem imports_iff_mem (hserves : c.Serves fs transformer p text)
    (himports : ∀ q, q ∈ imports ↔
      ∃ specifier ∈ Script.specifiers (Script.scan text), c.Resolves fs specifier p q) (q : Path) :
    c.Imports fs transformer p q ↔ q ∈ imports := by
  rw [himports]
  refine ⟨?_, ?_⟩
  · intro himported
    obtain ⟨text', specifier, hserves', hspecifier, hresolves⟩ := himported
    have htext : text' = text := hserves'.eq hserves
    exact ⟨specifier, htext ▸ hspecifier, hresolves⟩
  · intro hresolved
    obtain ⟨specifier, hspecifier, hresolves⟩ := hresolved
    exact ⟨text, specifier, hserves, hspecifier, hresolves⟩

/-- A file that has been read is loaded, and what it imports is queued. -/
theorem Config.Loading.load (h : c.Loading fs transformer start roots (p :: queue) program t)
    (hclear : c.RootClear fs) (hnew : ¬ program.files.contains p)
    (hserves : c.Serves fs transformer p text)
    (hresolved : Session.Returns (c.host fs transformer cwd)
      (Program.resolveAll p (Script.specifiers (Script.scan text)) program) t (imports, program') t') :
    c.Loading fs transformer start roots
      (Program.enqueue queue imports (program'.addFile p text imports))
      (program'.addFile p text imports) t' := by
  have hp := h.queued p List.mem_cons_self
  obtain ⟨hgrows, hfiles, hmem, hknown, hasked⟩ :=
    resolves_of_resolveAll hclear h.grows.view hp.typed hresolved
  have himports := imports_iff_mem hserves hmem
  have himported : ∀ q ∈ imports, c.Loadable fs transformer t' q := by
    intro q hq
    obtain ⟨specifier, -, hresolves⟩ := (hmem q).1 hq
    exact ⟨hresolves.isTyped hp.typed, hresolves.available, hknown q hq,
      .imported hp.reached ((himports q).2 hq)⟩
  rw [← hfiles] at hnew
  -- Nothing that was queued or loaded is lost, and the imports are queued unless they are there.
  have hcovered : ∀ q, q ∈ ((p :: queue) ++ program.files.keys) ++ imports →
      q ∈ Program.enqueue queue imports (program'.addFile p text imports) ++
        (program'.addFile p text imports).files.keys := by
    intro q hq
    rw [← hfiles] at hq
    exact Program.covered_addFile (fun k hk => (h.rooted (hfiles ▸ hk)).canonical)
      hp.typed.rooted.canonical hnew (fun q hq => (himported q hq).typed.rooted.canonical) hq
  have hold : ∀ q ∈ (p :: queue) ++ program.files.keys, _ :=
    fun q hq => hcovered q (List.mem_append_left imports hq)
  refine ⟨(h.grows.trans hgrows).mono hcovered, ?_, ?_, fun q hq => hold q (h.roots q hq), ?_, ?_⟩
  · intro q hq
    rcases List.mem_append.1 hq with hq | hq
    · exact (h.queued q (List.mem_cons_of_mem p hq)).of_grows hgrows
    · exact himported q (List.mem_filter.1 hq).1
  · intro q file hfile
    rcases (PathMap.mem_insert_of_not_contains hnew).1 hfile with heq | hfile
    · cases heq
      exact ⟨hp.of_grows hgrows, rfl, hserves⟩
    · obtain ⟨hq, hpath, htext⟩ := h.loaded q file (hfiles ▸ hfile)
      exact ⟨hq.of_grows hgrows, hpath, htext⟩
  · intro q hq q' hq'
    rcases (PathMap.mem_keys_insert_of_not_contains hnew).1 hq with rfl | hq
    · exact hcovered q' (List.mem_append_right _ ((himports q').1 hq'))
    · exact hold q' (h.imports q (hfiles ▸ hq) q' hq')
  · intro q hq q' hq'
    rcases (PathMap.mem_keys_insert_of_not_contains hnew).1 hq with rfl | hq
    · obtain ⟨text', specifier, hserves', hspecifier, hrelative, hprobes⟩ := hq'
      obtain rfl : text' = text := hserves'.eq hserves
      exact hasked specifier hspecifier hrelative q' hprobes
    · exact h.asked q (hfiles ▸ hq) q' hq'

/-! ## All steps -/

/-- **No step of loading breaks what it keeps.** -/
theorem loading_invariant (hclear : c.RootClear fs) (start : Table) (roots : List Path) :
    Program.Invariant (c.host fs transformer cwd) (c.Loading fs transformer start roots) where
  drop _ _ _ _ h hcontains := h.drop hcontains
  missing p _ _ _ h _ htext :=
    -- what is queued is there, so it can be read
    absurd htext (read?_ne_none (h.queued p List.mem_cons_self).available
      (h.queued p List.mem_cons_self).known)
  load p _ _ _ _ _ _ _ h hnew htext hresolved := by
    have hp := h.queued p List.mem_cons_self
    exact h.load hclear hnew (serves_of_read? h.grows.view hp.typed.rooted hp.known htext) hresolved

/-- Loading begins with the roots in the queue. -/
theorem Config.View.loading_empty (ht : c.View fs transformer t)
    (hroots : ∀ p ∈ roots, c.Loadable fs transformer t p) :
    c.Loading fs transformer t roots roots Program.empty t where
  grows := ht.grows_self.mono (List.nil_subset _)
  queued := hroots
  loaded _ _ hfile := absurd hfile List.not_mem_nil
  roots _ hp := List.mem_append_left _ hp
  imports _ hp := absurd hp List.not_mem_nil
  asked _ hp := absurd hp List.not_mem_nil

/-- **A program holds all that its roots lead to.** -/
theorem loading_of_build (hclear : c.RootClear fs) (ht : c.View fs transformer t)
    (hroots : ∀ p ∈ roots, c.Loadable fs transformer t p)
    (h : Session.Returns (c.host fs transformer cwd) (Program.build roots) t result t') :
    c.Loading fs transformer t roots [] result t' :=
  (loading_invariant hclear t roots).of_build (fun p hp => (hroots p hp).typed.rooted)
    (ht.loading_empty hroots) h

end SvelteTypings.Generation

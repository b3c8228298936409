import SvelteTypings.Compiler.Program
import SvelteTypings.Proofs.Compiler.Session
import SvelteTypings.Proofs.Path.Map
import SvelteTypings.Proofs.Path.Rooted

/-!
# Loading, step by step

A program is loaded from a queue of files. There are three steps: a file is dropped that is loaded
already, a file is dropped that is missing, or a file is loaded and what it imports is queued. What
no step breaks (`Program.Invariant`) holds when the queue is empty (`Program.Invariant.of_build`).
-/

namespace SvelteTypings.Program

open SvelteTypings.Path (IsCanonical IsRooted)

variable {σ : Type} {host : Host σ} {I : List Path → Program → σ → Prop} {s t : σ} {n : Nat}
  {p q : Path} {queue imports roots : List Path} {program result : Program}

/-! ## Steps -/

/-- What a file that is loaded still leaves to load. -/
def enqueue (queue imports : List Path) (program : Program) : List Path :=
  queue ++ imports.filter fun p => !program.files.contains p

/-- The program with one more file. -/
def addFile (p : Path) (text : String) (imports : List Path) (program : Program) : Program :=
  { program with files := program.files.insert p ⟨p, text, imports⟩ }

/-- No step of loading breaks a property of queue, program and state. -/
structure Invariant (host : Host σ) (I : List Path → Program → σ → Prop) : Prop where
  drop : ∀ p queue program s, I (p :: queue) program s → program.files.contains p →
    I queue program s
  missing : ∀ p queue program s, I (p :: queue) program s → ¬ program.files.contains p →
    host.textOf s p = .ok none → I queue (program.diagnose p "File not found") s
  load : ∀ p text imports queue program program' s t, I (p :: queue) program s →
    ¬ program.files.contains p → host.textOf s p = .ok (some text) →
      Session.Returns host (resolveAll p (Script.specifiers (Script.scan text)) program) s
        (imports, program') t →
        I (enqueue queue imports (program'.addFile p text imports))
          (program'.addFile p text imports) t

/-! ## Loops -/

/-- Files are dropped from the queue until one is not; what is done with that one ends the loading.
-/
theorem Invariant.of_drain {load : Path → String → List Path → Program → Session Program}
    (hI : Invariant host I)
    (hload : ∀ p text queue program s, I (p :: queue) program s → ¬ program.files.contains p →
      host.textOf s p = .ok (some text) →
        Session.Returns host (load p text queue program) s result t → I [] result t)
    (h : I queue program s) (hreturns : Session.Returns host (drain load queue program) s result t) :
    I [] result t := by
  induction queue generalizing program with
  | nil =>
    obtain ⟨rfl, rfl⟩ := Session.returns_pure_iff.1 hreturns
    exact h
  | cons p queue ih =>
    rw [drain] at hreturns
    by_cases hcontains : program.files.contains p
    · rw [if_pos hcontains] at hreturns
      exact ih (hI.drop p queue program s h hcontains) hreturns
    · rw [if_neg hcontains] at hreturns
      obtain ⟨text, s', hread, hreturns⟩ := Session.returns_bind_iff.1 hreturns
      obtain ⟨htext, rfl⟩ := Session.returns_read?_iff.1 hread
      cases text with
      | none => exact ih (hI.missing p queue program s h hcontains htext) hreturns
      | some text => exact hload p text queue program s h hcontains htext hreturns

/-- **What no step of loading breaks holds when all is loaded.** -/
theorem Invariant.of_loadAll (hI : Invariant host I) (h : I queue program s)
    (hreturns : Session.Returns host (loadAll n queue program) s result t) : I [] result t := by
  induction n generalizing queue program s with
  | zero =>
    refine hI.of_drain ?_ h hreturns
    intro p text queue program s h hnew htext hfail
    exact absurd hfail Session.not_returns_fail
  | succ n ih =>
    refine hI.of_drain ?_ h hreturns
    intro p text queue program s h hnew htext hload
    obtain ⟨⟨imports, program'⟩, s', hresolved, hload⟩ := Session.returns_bind_iff.1 hload
    exact ih (hI.load p text imports queue program program' s s' h hnew htext hresolved) hload

/-- Loading begins with the roots in the queue. -/
theorem Invariant.of_build (hI : Invariant host I) (hroots : ∀ p ∈ roots, IsRooted p)
    (h : I roots empty s) (hreturns : Session.Returns host (build roots) s result t) :
    I [] result t := by
  obtain ⟨directory, s', hdirectory, hreturns⟩ := Session.returns_bind_iff.1 hreturns
  obtain ⟨-, rfl⟩ := Session.returns_directory_iff.1 hdirectory
  obtain ⟨bound, s', hbound, hreturns⟩ := Session.returns_bind_iff.1 hreturns
  obtain ⟨-, rfl⟩ := Session.returns_bound_iff.1 hbound
  rw [Path.map_normalize_join _ hroots] at hreturns
  exact hI.of_loadAll h hreturns

/-! ## Loading that fails -/

/-- Resolution adds no files. -/
theorem files_of_resolveAll {importer : Path} {specifiers : List String} {program' : Program}
    (h : Session.Returns host (resolveAll importer specifiers program) s (imports, program') t) :
    program'.files = program.files := by
  induction specifiers generalizing program program' imports s t with
  | nil => rw [(Prod.mk.inj (Session.returns_pure_iff.1 h).1).2]
  | cons specifier specifiers ih =>
    rw [resolveAll] at h
    split at h
    · obtain ⟨found, s', -, h⟩ := Session.returns_bind_iff.1 h
      cases found with
      | none =>
        have hrest : Session.Returns host (resolveAll importer specifiers _) s' _ t := h
        exact (ih hrest).trans rfl
      | some found =>
        obtain ⟨⟨imports', program₁⟩, s'', hrest, h⟩ := Session.returns_bind_iff.1 h
        rw [← (Prod.mk.inj (Session.returns_pure_iff.1 h).1).2]
        exact ih hrest
    · exact ih h

/-- Why a file that is not loaded yet ends the loading: it cannot be read, an import of it cannot be
resolved, or as many files are loaded as may be. -/
inductive Stops (host : Host σ) (most : Nat) (p : Path) (program : Program) (s : σ) (e : Failure) :
    Prop where
  | unread (h : host.textOf s p = .error e)
  | unresolved (text : String) (htext : host.textOf s p = .ok (some text))
      (h : Session.Fails host (resolveAll p (Script.specifiers (Script.scan text)) program) s e)
  | full (text : String) (htext : host.textOf s p = .ok (some text))
      (h : program.files.size = most)

theorem Invariant.of_fails_drain {load : Path → String → List Path → Program → Session Program}
    {e : Failure} {Q : Prop} (hI : Invariant host I)
    (hread : ∀ p queue program' s, I (p :: queue) program' s → ¬ program'.files.contains p →
      host.textOf s p = .error e → Q)
    (hload : ∀ p text queue program' s, program'.files = program.files → I (p :: queue) program' s →
      ¬ program'.files.contains p → host.textOf s p = .ok (some text) →
        Session.Fails host (load p text queue program') s e → Q)
    (h : I queue program s) (hfails : Session.Fails host (drain load queue program) s e) : Q := by
  induction queue generalizing program with
  | nil => exact absurd hfails Session.not_fails_pure
  | cons p queue ih =>
    rw [drain] at hfails
    by_cases hcontains : program.files.contains p
    · rw [if_pos hcontains] at hfails
      exact ih hload (hI.drop p queue program s h hcontains) hfails
    · rw [if_neg hcontains] at hfails
      rcases Session.fails_bind_iff.1 hfails with hfails | ⟨text, s', hfound, hfails⟩
      · exact hread p queue program s h hcontains hfails
      · obtain ⟨htext, rfl⟩ := Session.returns_read?_iff.1 hfound
        cases text with
        | none =>
          have hmissing := hI.missing p queue program s h hcontains htext
          refine ih ?_ hmissing hfails
          exact hload
        | some text => exact hload p text queue program s rfl h hcontains htext hfails

/-- **Loading that fails stops at a file**, and what no step breaks holds there. -/
theorem Invariant.exists_stops_of_loadAll {e : Failure} (hI : Invariant host I)
    (h : I queue program s) (hfails : Session.Fails host (loadAll n queue program) s e) :
    ∃ p queue' program' s', I (p :: queue') program' s' ∧ ¬ program'.files.contains p ∧
      Stops host (program.files.size + n) p program' s' e := by
  induction n generalizing queue program s with
  | zero =>
    refine hI.of_fails_drain ?_ ?_ h hfails
    · intro p queue program' s h hnew herror
      exact ⟨p, queue, program', s, h, hnew, .unread herror⟩
    · intro p text queue program' s hfiles h hnew htext _
      exact ⟨p, queue, program', s, h, hnew, .full text htext (by rw [hfiles]; rfl)⟩
  | succ n ih =>
    refine hI.of_fails_drain ?_ ?_ h hfails
    · intro p queue program' s h hnew herror
      exact ⟨p, queue, program', s, h, hnew, .unread herror⟩
    · intro p text queue program' s hfiles h hnew htext hload
      rcases Session.fails_bind_iff.1 hload with hload | ⟨⟨imports, program₁⟩, s', hresolved, hload⟩
      · exact ⟨p, queue, program', s, h, hnew, .unresolved text htext hload⟩
      · have hsize : (program₁.addFile p text imports).files.size = program.files.size + 1 := by
          have hfiles₁ := files_of_resolveAll hresolved
          rw [addFile, hfiles₁, PathMap.size_insert_of_not_contains hnew, hfiles]
        obtain ⟨q, queue', program₂, s₂, hI₂, hnew₂, hstops⟩ :=
          ih (hI.load p text imports queue program' program₁ s s' h hnew htext hresolved) hload
        have hmost : (program₁.addFile p text imports).files.size + n =
            program.files.size + (n + 1) := by omega
        exact ⟨q, queue', program₂, s₂, hI₂, hnew₂, hmost ▸ hstops⟩

/-! ## What is loaded or queued -/

/-- Of canonical paths, only those that are loaded count as loaded. -/
theorem contains_iff_mem_keys (hkeys : ∀ k ∈ program.files.keys, IsCanonical k)
    (hp : IsCanonical p) :
    program.files.contains p ↔ p ∈ program.files.keys := by
  refine ⟨?_, PathMap.contains_of_mem_keys⟩
  intro hcontains
  obtain ⟨k, hk, hsame⟩ := PathMap.contains_iff.1 hcontains
  exact (hkeys k hk).eq_of_same hp hsame ▸ hk

/-- When a file is loaded, whatever was queued or loaded still is, and so is everything it imports.
-/
theorem covered_addFile {text : String} (hold : ∀ k ∈ program.files.keys, IsCanonical k)
    (hp : IsCanonical p) (hnew : ¬ program.files.contains p)
    (himports : ∀ q ∈ imports, IsCanonical q)
    (hq : q ∈ ((p :: queue) ++ program.files.keys) ++ imports) :
    q ∈ enqueue queue imports (program.addFile p text imports) ++
      (program.addFile p text imports).files.keys := by
  have hkeys : ∀ k, k ∈ (program.addFile p text imports).files.keys ↔
      k = p ∨ k ∈ program.files.keys :=
    fun k => PathMap.mem_keys_insert_of_not_contains hnew
  have hcanonical : ∀ k ∈ (program.addFile p text imports).files.keys, IsCanonical k := by
    intro k hk
    rcases (hkeys k).1 hk with rfl | hk
    · exact hp
    · exact hold k hk
  rw [enqueue]
  rcases List.mem_append.1 hq with hq | hq
  · rcases List.mem_append.1 hq with hq | hq
    · rcases List.mem_cons.1 hq with hq | hq
      · exact List.mem_append_right _ ((hkeys q).2 (Or.inl hq))
      · exact List.mem_append_left _ (List.mem_append_left _ hq)
    · exact List.mem_append_right _ ((hkeys q).2 (Or.inr hq))
  · by_cases hcontains : (program.addFile p text imports).files.contains q
    · -- it is not queued because it is loaded; the key may be spelled otherwise, but both are
      -- canonical
      exact List.mem_append_right _ ((contains_iff_mem_keys hcanonical (himports q hq)).1 hcontains)
    · refine List.mem_append_left _ (List.mem_append_right _ (List.mem_filter.2 ⟨hq, ?_⟩))
      simpa using hcontains

/-- The files of a program whose keys are the paths of the files. -/
theorem mem_values_iff {file : SourceFile}
    (h : ∀ p file, (p, file) ∈ program.files.toList → file.path = p) :
    file ∈ program.files.values ↔ (file.path, file) ∈ program.files.toList := by
  rw [PathMap.values, List.mem_map]
  refine ⟨?_, fun hmem => ⟨_, hmem, rfl⟩⟩
  rintro ⟨⟨p, file'⟩, hmem, rfl⟩
  exact h p file' hmem ▸ hmem

end SvelteTypings.Program

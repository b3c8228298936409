import SvelteTypings.Proofs.Compiler.Program

/-!
# Loading comes to an end

`Program.loadAll` is given a bound on the files that it may load. `Program.Loads` says how loading
goes without one: as long as something is queued, the first file of the queue is taken, and a run is
a finite sequence of such steps. Every file of the program that comes out is loaded once
(`Loads.perm`). Where a property that no step breaks keeps the program small, the bound never
matters: loading under the bound is a run without it (`Invariant.exists_loads`).
-/

namespace SvelteTypings.Program

variable {σ : Type} {host : Host σ} {I : List Path → Program → σ → Prop} {s t : σ} {n : Nat}
  {queue loaded : List Path} {program : Program} {r : Except Failure Program}

/-! ## Runs without a bound -/

/-- Loading begins with a queue, a program and a state, and comes to an end with a result and a
state. `loaded` are the files that are read and scanned on the way, in order. Nothing bounds how
many there are. -/
inductive Loads (host : Host σ) : List Path → Program → σ → List Path → Except Failure Program →
    σ → Prop where
  | done (program : Program) (s : σ) : Loads host [] program s [] (.ok program) s
  /-- A file that is loaded already is passed over. -/
  | drop {p queue program s loaded r t} (hcontains : program.files.contains p)
      (hrest : Loads host queue program s loaded r t) :
      Loads host (p :: queue) program s loaded r t
  /-- A file that is missing is remarked on. -/
  | missing {p queue program s loaded r t} (hnew : ¬ program.files.contains p)
      (htext : host.textOf s p = .ok none)
      (hrest : Loads host queue (program.diagnose p "File not found") s loaded r t) :
      Loads host (p :: queue) program s loaded r t
  | unread {p queue program s e} (hnew : ¬ program.files.contains p)
      (htext : host.textOf s p = .error e) :
      Loads host (p :: queue) program s [] (.error e) s
  /-- An import of the file cannot be resolved. -/
  | unresolved {p text queue program s e} (hnew : ¬ program.files.contains p)
      (htext : host.textOf s p = .ok (some text))
      (hfails : Session.Fails host
        (resolveAll p (Script.specifiers (Script.scan text)) program) s e) :
      Loads host (p :: queue) program s [p] (.error e)
        ((resolveAll p (Script.specifiers (Script.scan text)) program).run host s).state
  /-- A file is added to the program, and its imports to the queue. -/
  | load {p text imports queue program program' s s' loaded r t}
      (hnew : ¬ program.files.contains p) (htext : host.textOf s p = .ok (some text))
      (hresolved : Session.Returns host
        (resolveAll p (Script.specifiers (Script.scan text)) program) s (imports, program') s')
      (hrest : Loads host (enqueue queue imports (program'.addFile p text imports))
        (program'.addFile p text imports) s' loaded r t) :
      Loads host (p :: queue) program s (p :: loaded) r t

/-- **Every file that a program gains is loaded once**, and nothing is loaded besides. -/
theorem Loads.perm {result : Program} (h : Loads host queue program s loaded (.ok result) t) :
    (program.files.keys ++ loaded).Perm result.files.keys := by
  generalize hr : (Except.ok result : Except Failure Program) = r at h
  induction h with
  | done program s =>
    obtain rfl := Except.ok.inj hr
    rw [List.append_nil]
  | drop _ _ ih => exact ih hr
  | missing _ _ _ ih => exact ih hr
  | unread => exact absurd hr (by simp)
  | unresolved => exact absurd hr (by simp)
  | @load p text imports queue program program' s s' loaded r t hnew _ hresolved _ ih =>
    have hkeys : (program'.addFile p text imports).files.keys.Perm (p :: program.files.keys) := by
      rw [addFile, files_of_resolveAll hresolved]
      exact (PathMap.insert_perm_of_not_contains hnew).map Prod.fst
    have hmiddle : (program.files.keys ++ p :: loaded).Perm
        ((program'.addFile p text imports).files.keys ++ loaded) :=
      List.perm_middle.trans (hkeys.symm.append_right loaded)
    exact hmiddle.trans (ih hr)

/-! ## The bound -/

/-- Files are dropped from the queue, as in a run without a bound, until one is loaded. -/
theorem Invariant.exists_loads_of_drain
    {load : Path → String → List Path → Program → Session Program} (hI : Invariant host I)
    (hload : ∀ p text queue program' s, program'.files = program.files →
      I (p :: queue) program' s → ¬ program'.files.contains p → host.textOf s p = .ok (some text) →
        ∃ loaded, Loads host (p :: queue) program' s loaded
          ((load p text queue program').run host s).result
          ((load p text queue program').run host s).state)
    (h : I queue program s) :
    ∃ loaded, Loads host queue program s loaded ((drain load queue program).run host s).result
      ((drain load queue program).run host s).state := by
  induction queue generalizing program with
  | nil => exact ⟨[], .done program s⟩
  | cons p queue ih =>
    rw [drain]
    by_cases hcontains : program.files.contains p
    · rw [if_pos hcontains]
      obtain ⟨loaded, hloads⟩ := ih hload (hI.drop p queue program s h hcontains)
      exact ⟨loaded, .drop hcontains hloads⟩
    · rw [if_neg hcontains, Session.run_bind]
      cases htext : ((Session.read? p).run host s).result with
      | error e => exact ⟨[], .unread hcontains htext⟩
      | ok text =>
        cases text with
        | none =>
          have hmissing := hI.missing p queue program s h hcontains htext
          obtain ⟨loaded, hloads⟩ := @ih (program.diagnose p "File not found") hload hmissing
          exact ⟨loaded, .missing hcontains htext hloads⟩
        | some text => exact hload p text queue program s rfl h hcontains htext

/-- **The bound never matters** where what no step breaks leaves room for another file whenever
there is one to load: loading under the bound is a run without it. -/
theorem Invariant.exists_loads {most : Nat} (hI : Invariant host I)
    (hmost : ∀ p text queue program s, I (p :: queue) program s → ¬ program.files.contains p →
      host.textOf s p = .ok (some text) → program.files.size < most)
    (h : I queue program s) (hn : most ≤ n + program.files.size) :
    ∃ loaded, Loads host queue program s loaded ((loadAll n queue program).run host s).result
      ((loadAll n queue program).run host s).state := by
  -- Each file that is loaded uses up one of the bound and one of the room.
  induction n generalizing queue program s with
  | zero =>
    refine hI.exists_loads_of_drain ?_ h
    intro p text queue program' s hfiles h hnew htext
    have hlt := hmost p text queue program' s h hnew htext
    rw [hfiles] at hlt
    omega
  | succ n ih =>
    refine hI.exists_loads_of_drain ?_ h
    intro p text queue program' s hfiles h hnew htext
    rw [Session.run_bind]
    cases hresult : ((resolveAll p (Script.specifiers (Script.scan text)) program').run host
        s).result with
    | error e => exact ⟨[p], .unresolved hnew htext hresult⟩
    | ok resolved =>
      obtain ⟨imports, program₁⟩ := resolved
      have hresolved : Session.Returns host
          (resolveAll p (Script.specifiers (Script.scan text)) program') s (imports, program₁)
          ((resolveAll p (Script.specifiers (Script.scan text)) program').run host s).state :=
        ⟨hresult, rfl⟩
      have hsize : (program₁.addFile p text imports).files.size = program.files.size + 1 := by
        rw [addFile, files_of_resolveAll hresolved, PathMap.size_insert_of_not_contains hnew, hfiles]
      obtain ⟨loaded, hloads⟩ :=
        ih (hI.load p text imports queue program' program₁ s _ h hnew htext hresolved) (by omega)
      exact ⟨p :: loaded, .load hnew htext hresolved hloads⟩

end SvelteTypings.Program

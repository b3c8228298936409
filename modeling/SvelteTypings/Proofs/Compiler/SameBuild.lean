import SvelteTypings.Proofs.Compiler.Order

/-!
# Builds that come to the same

A build against a steady host loads what its roots lead to, or stops at a file that the roots lead
to and that cannot be loaded (`Steady.loaded_of_build`, `Steady.blocks_of_fails`). Nothing is
written before everything is loaded, and what is written then is a function of the loaded files. So
the order of the roots shows in the order of the diagnostics only (`Steady.sameBuild`).
-/

namespace SvelteTypings

open SvelteTypings.Path (IsCanonical)

variable {σ : Type} {host : Host σ} {start s t : σ} {a : Answers} {Known : Path → Prop}
  {After : List Path → σ → Prop} {roots roots' queue asked : List Path}
  {program program' : Program} {e : Failure} {o : CompilerOptions}

/-! ## Loading -/

namespace Steady

/-- What holds of queue, program and state while files are loaded. -/
def Loading (a : Answers) (After : List Path → σ → Prop) (roots queue : List Path)
    (program : Program) (s : σ) : Prop :=
  ∃ asked, After asked s ∧ a.Loaded roots queue program asked

/-- The file that is next in the queue is read as it is. -/
theorem textOf_of_queued {p : Path} (h : Steady host start a Known After)
    (hroots : ∀ r ∈ roots, IsCanonical r ∧ Known r) (hs : After asked s)
    (hloaded : a.Loaded roots (p :: queue) program asked) : host.textOf s p = a.textOf p := by
  obtain ⟨hleads, hready⟩ := hloaded.queued p List.mem_cons_self
  exact h.textOf asked s p hs (hleads.offers hroots) (hready.imp_left fun hp => (hroots p hp).2)

/-- **No step of loading breaks what it keeps.** -/
theorem loading_invariant (h : Steady host start a Known After)
    (hroots : ∀ r ∈ roots, IsCanonical r ∧ Known r) :
    Program.Invariant host (Loading a After roots) where
  drop p queue program s hI hcontains := by
    obtain ⟨asked, hs, hloaded⟩ := hI
    have hcanonical : ∀ q, a.Leads roots q → IsCanonical q :=
      fun q hq => (hq.offers hroots).canonical
    have hp := hcanonical p (hloaded.queued p List.mem_cons_self).1
    exact ⟨asked, hs, hloaded.drop ((Program.contains_iff_mem_keys
      (fun k hk => hcanonical k (hloaded.holds hk).1) hp).1 hcontains)⟩
  missing p queue program s hI _ htext := by
    obtain ⟨asked, hs, hloaded⟩ := hI
    rw [h.textOf_of_queued hroots hs hloaded] at htext
    exact ⟨asked, hs, hloaded.missing h.textOf_ne_none htext⟩
  load p text imports queue program program' s t hI hnew htext hresolved := by
    obtain ⟨asked, hs, hloaded⟩ := hI
    rw [h.textOf_of_queued hroots hs hloaded] at htext
    obtain ⟨rest, hreading, rfl, hafter⟩ := h.returns_resolveAll hs hresolved
    exact ⟨_, hafter, hloaded.load hroots h.textOf_ne_none hnew htext hreading rfl rfl⟩

/-! ## Builds -/

/-- The paths under which the roots are loaded. -/
def rootsOf (host : Host σ) (roots : List Path) : List Path :=
  roots.map fun root => (host.currentDirectory.join root).normalize

theorem canonical_known_of_mem_rootsOf (hknown : ∀ r ∈ rootsOf host roots, Known r) :
    ∀ r ∈ rootsOf host roots, IsCanonical r ∧ Known r := by
  intro r hr
  obtain ⟨root, -, rfl⟩ := List.mem_map.1 hr
  exact ⟨Path.isCanonical_normalize _, hknown _ hr⟩

theorem loading_empty (h : Steady host start a Known After) (roots : List Path) :
    Loading a After roots roots .empty start :=
  ⟨[], h.initial, a.loaded_empty roots⟩

/-- **A program that is built holds what its roots lead to.** -/
theorem loaded_of_build (h : Steady host start a Known After)
    (hknown : ∀ r ∈ rootsOf host roots, Known r)
    (hreturns : Session.Returns host (Program.build roots) start program t) :
    ∃ asked, After asked t ∧ a.Loaded (rootsOf host roots) [] program asked := by
  obtain ⟨directory, s', hdirectory, hreturns⟩ := Session.returns_bind_iff.1 hreturns
  obtain ⟨rfl, rfl⟩ := Session.returns_directory_iff.1 hdirectory
  obtain ⟨bound, s', hbound, hreturns⟩ := Session.returns_bind_iff.1 hreturns
  obtain ⟨-, rfl⟩ := Session.returns_bound_iff.1 hbound
  exact (h.loading_invariant (canonical_known_of_mem_rootsOf hknown)).of_loadAll (h.loading_empty _)
    hreturns

/-- The host announces more files than are loaded as long as one is left that can be. -/
theorem size_lt_capacity {p : Path} {text : String} (h : Steady host start a Known After)
    (hroots : ∀ r ∈ roots, IsCanonical r ∧ Known r)
    (hloaded : a.Loaded roots (p :: queue) program asked) (hnew : ¬ program.files.contains p)
    (htext : a.textOf p = .ok (some text)) : program.files.size < host.capacity start := by
  have hnot : p ∉ program.files.keys := fun hmem => hnew (PathMap.contains_of_mem_keys hmem)
  have hnodup : (p :: program.files.keys).Nodup :=
    List.nodup_cons.2 ⟨hnot, PathMap.nodup_keys program.files⟩
  have hlength := h.capacity (p :: program.files.keys) hnodup fun q hq => by
    rcases List.mem_cons.1 hq with rfl | hq
    · exact ⟨(hloaded.queued q List.mem_cons_self).1.offers hroots, text, htext⟩
    · obtain ⟨hleads, file, -, hholds⟩ := hloaded.holds hq
      exact ⟨hleads.offers hroots, file.text, hholds.text⟩
  have hsize : program.files.keys.length = program.files.size := List.length_map _
  rw [List.length_cons, hsize] at hlength
  omega

/-- **A build fails only at a file that its roots lead to.** -/
theorem blocks_of_fails (h : Steady host start a Known After)
    (hknown : ∀ r ∈ rootsOf host roots, Known r)
    (hfails : Session.Fails host (Program.build roots) start e) :
    a.Blocks (rootsOf host roots) e := by
  rcases Session.fails_bind_iff.1 hfails with hfails | ⟨directory, s', hdirectory, hfails⟩
  · exact absurd hfails Session.not_fails_directory
  obtain ⟨rfl, rfl⟩ := Session.returns_directory_iff.1 hdirectory
  rcases Session.fails_bind_iff.1 hfails with hfails | ⟨bound, s', hbound, hfails⟩
  · exact absurd hfails Session.not_fails_bound
  obtain ⟨rfl, rfl⟩ := Session.returns_bound_iff.1 hbound
  have hroots := canonical_known_of_mem_rootsOf hknown
  obtain ⟨p, queue, program, s, ⟨asked, hs, hloaded⟩, hnew, hstops⟩ :=
    (h.loading_invariant hroots).exists_stops_of_loadAll (h.loading_empty _) hfails
  have hleads := (hloaded.queued p List.mem_cons_self).1
  have htextOf := h.textOf_of_queued hroots hs hloaded
  cases hstops with
  | unread herror => exact .unread p hleads (htextOf.symm.trans herror)
  | unresolved text htext hfails =>
    exact .unresolved p text hleads (htextOf.symm.trans htext) (h.fails_resolveAll hs hfails)
  | full text htext hsize =>
    have hlt := h.size_lt_capacity hroots hloaded hnew (htextOf.symm.trans htext)
    have hempty : Program.empty.files.size = 0 := rfl
    omega

end Steady

/-- A failure that the host gives for an answer, when a file is asked for or when it is read then.
-/
def Host.Refuses (host : Host σ) (s : σ) (e : Failure) : Prop :=
  ∃ p, (host.fileExists s p).1 = .error e ∨ host.textOf (host.fileExists s p).2 p = .error e

theorem Steady.refuses_of_blocks (h : Steady host start a Known After)
    (hroots : ∀ r ∈ roots, IsCanonical r ∧ Known r) (hblocks : a.Blocks roots e) :
    host.Refuses start e := by
  cases hblocks with
  | unread p hleads htext =>
    have hoffers := hleads.offers hroots
    obtain ⟨-, hafter⟩ := h.fileExists [] start p h.initial hoffers.canonical
    exact ⟨p, Or.inr ((h.textOf _ _ p hafter hoffers (Or.inr List.mem_cons_self)).trans htext)⟩
  | unresolved p text _ _ hreading =>
    obtain ⟨q, hq, herror⟩ := Answers.isFile_of_reading_eq_error hreading
    exact ⟨q, Or.inl ((h.fileExists [] start q h.initial hq).1.trans herror)⟩

/-! ## Nothing is written while files are loaded -/

theorem Resolution.writesNothing_resolve (specifier : String) (importer : Path) :
    (resolve specifier importer).WritesNothing host := by
  rw [resolve]
  split
  · refine search_induction (fun _ => rfl) ?_ ?_
    · intro p _ rest hrest
      refine Session.WritesNothing.bind (fun _ => rfl) fun found => ?_
      cases found with
      | true => exact fun _ => rfl
      | false => exact hrest
    · exact fun next hnext => Session.WritesNothing.bind (fun _ => rfl) hnext
  · exact fun _ => rfl

namespace Program

theorem writesNothing_resolveAll (importer : Path) (specifiers : List String) (program : Program) :
    (resolveAll importer specifiers program).WritesNothing host := by
  induction specifiers generalizing program with
  | nil => exact fun _ => rfl
  | cons specifier specifiers ih =>
    rw [resolveAll]
    split
    · refine (Resolution.writesNothing_resolve specifier importer).bind fun found => ?_
      cases found with
      | none => exact ih _
      | some found => exact (ih program).bind fun _ _ => rfl
    · exact ih program

theorem writesNothing_drain {load : Path → String → List Path → Program → Session Program}
    (hload : ∀ p text queue program, (load p text queue program).WritesNothing host)
    (queue : List Path) (program : Program) : (drain load queue program).WritesNothing host := by
  induction queue generalizing program with
  | nil => exact fun _ => rfl
  | cons p queue ih =>
    rw [drain]
    split
    · exact ih program
    · refine Session.WritesNothing.bind (fun _ => rfl) fun text => ?_
      cases text with
      | none => exact ih _
      | some text => exact hload p text queue program

theorem writesNothing_loadAll (n : Nat) (queue : List Path) (program : Program) :
    (loadAll n queue program).WritesNothing host := by
  induction n generalizing queue program with
  | zero => exact writesNothing_drain (fun _ _ _ _ _ => rfl) queue program
  | succ n ih =>
    refine writesNothing_drain ?_ queue program
    intro p text queue program
    exact (writesNothing_resolveAll p _ program).bind fun r => ih _ _

theorem writesNothing_build (roots : List Path) : (build roots).WritesNothing host :=
  Session.WritesNothing.bind (fun _ => rfl) fun _ =>
    Session.WritesNothing.bind (fun _ => rfl) fun bound => writesNothing_loadAll bound _ _

end Program

/-! ## Emission -/

namespace Emission

/-- What is done with a program that has been built. -/
def emit (o : CompilerOptions) (program : Program) : Session EmitOutput := do
  let emitted ← writeAll o (program.files.values.filter fun file => shouldEmit o file.path)
  Session.report "emitted declarations"
  return ⟨emitted, program.diagnostics⟩

theorem compile_eq (roots : List Path) (o : CompilerOptions) :
    compile roots o = if !o.declaration then Session.fail (.compile missingOption)
      else Program.build roots >>= emit o := rfl

/-- The same failure, or the same files and the same diagnostics in whatever order. -/
inductive Alike : Except Failure EmitOutput → Except Failure EmitOutput → Prop where
  | failed (e : Failure) : Alike (.error e) (.error e)
  | emitted (paths : List Path) (ds ds' : List Diagnostic) (h : ds'.Perm ds) :
      Alike (.ok ⟨paths, ds⟩) (.ok ⟨paths, ds'⟩)

/-- Two ways to compile that write the same in the same order, and leave the same state. -/
structure Same (host : Host σ) (x x' : Session EmitOutput) (s : σ) : Prop where
  saves : x'.saves host s = x.saves host s
  state : (x'.run host s).state = (x.run host s).state
  result : Alike (x.run host s).result (x'.run host s).result

/-- The diagnostics of a program have no part in what is written. -/
theorem same_emit (o : CompilerOptions) (s : σ) (hfiles : program'.files = program.files)
    (hdiagnostics : program'.diagnostics.Perm program.diagnostics) :
    Same host (emit o program) (emit o program') s := by
  have hsaves : ∀ program : Program, (emit o program).saves host s =
      (writeAll o (program.files.values.filter fun file => shouldEmit o file.path)).saves host
        s := by
    intro program
    rw [emit, Session.saves_bind]
    cases (Session.run host _ s).result with
    | ok emitted => exact List.append_nil _
    | error e => exact List.append_nil _
  refine ⟨by rw [hsaves, hsaves, hfiles], ?_, ?_⟩
  · rw [emit, emit, Session.run_bind, Session.run_bind, hfiles]
    cases (Session.run host (writeAll o _) s).result <;> rfl
  · rw [emit, emit, Session.run_bind, Session.run_bind, hfiles]
    cases (Session.run host (writeAll o _) s).result with
    | ok emitted => exact .emitted emitted _ _ hdiagnostics
    | error e => exact .failed e

/-- After builds that end in one state with the same files, emission is the same. -/
theorem same_compile (o : CompilerOptions)
    (h : Session.Returns host (Program.build roots) s program t)
    (h' : Session.Returns host (Program.build roots') s program' t)
    (hfiles : program'.files = program.files)
    (hdiagnostics : program'.diagnostics.Perm program.diagnostics) :
    Same host (compile roots o) (compile roots' o) s := by
  rw [compile_eq, compile_eq]
  split
  · exact ⟨rfl, rfl, .failed _⟩
  · have hsame : Same host (emit o program) (emit o program') t :=
      same_emit o t hfiles hdiagnostics
    obtain ⟨hsaves, hstate, hresult⟩ := hsame
    refine ⟨?_, ?_, ?_⟩
    · rw [h.saves_bind, h'.saves_bind, Program.writesNothing_build, Program.writesNothing_build,
        hsaves]
    · rw [Session.run_bind, Session.run_bind, h.1, h'.1, h.2, h'.2]
      exact hstate
    · rw [Session.run_bind, Session.run_bind, h.1, h'.1, h.2, h'.2]
      exact hresult

end Emission

/-! ## The order of roots -/

/-- Two lists of roots come to the same. Neither gives a program, since the host refuses an answer;
or both give a program with the same files and, in whatever order, the same diagnostics, and leave
the same state, and whatever the options compiling them writes the same in the same order and leaves
the same state. -/
inductive SameBuild (host : Host σ) (s : σ) (roots roots' : List Path) : Prop where
  | refused (e e' : Failure) (h : Session.Fails host (Program.build roots) s e)
      (he : host.Refuses s e) (h' : Session.Fails host (Program.build roots') s e')
      (he' : host.Refuses s e') : SameBuild host s roots roots'
  | built (program program' : Program) (t : σ)
      (h : Session.Returns host (Program.build roots) s program t)
      (h' : Session.Returns host (Program.build roots') s program' t)
      (hfiles : program'.files = program.files)
      (hdiagnostics : program'.diagnostics.Perm program.diagnostics)
      (hemission : ∀ o,
        Emission.Same host (Emission.compile roots o) (Emission.compile roots' o) s) :
      SameBuild host s roots roots'

namespace Steady

/-- A list of roots fails if another order of it does. -/
theorem exists_fails_of_perm (h : Steady host start a Known After)
    (hknown : ∀ r ∈ rootsOf host roots', Known r) (hperm : roots.Perm roots')
    (hblocks : a.Blocks (rootsOf host roots) e) :
    ∃ e', Session.Fails host (Program.build roots') start e' := by
  rcases Session.returns_or_fails host (Program.build roots') start with
    ⟨program, t, hreturns⟩ | hfails
  · obtain ⟨asked, -, hloaded⟩ := h.loaded_of_build hknown hreturns
    exact absurd (hblocks.mono (hperm.map _).subset) hloaded.not_blocks
  · exact hfails

/-- **The order of the roots does not matter** to a steady host. -/
theorem sameBuild (h : Steady host start a Known After)
    (hknown : ∀ r ∈ rootsOf host roots, Known r) (hperm : roots.Perm roots') :
    SameBuild host start roots roots' := by
  have hmap : (rootsOf host roots).Perm (rootsOf host roots') := hperm.map _
  have hknown' : ∀ r ∈ rootsOf host roots', Known r := fun r hr => hknown r (hmap.mem_iff.2 hr)
  rcases Session.returns_or_fails host (Program.build roots) start with
    ⟨program, t, hreturns⟩ | ⟨e, hfails⟩
  · rcases Session.returns_or_fails host (Program.build roots') start with
      ⟨program', t', hreturns'⟩ | ⟨e', hfails'⟩
    · obtain ⟨asked, hafter, hloaded⟩ := h.loaded_of_build hknown hreturns
      obtain ⟨asked', hafter', hloaded'⟩ := h.loaded_of_build hknown' hreturns'
      -- the same files have asked for the same paths, so the states agree
      obtain rfl : t = t' :=
        h.unique asked asked' t t' (hloaded.asked_iff hloaded' hmap) hafter hafter'
      have hfiles := hloaded.files_eq hloaded' hmap
      have hdiagnostics := hloaded.diagnostics_perm hloaded' hmap
      exact .built program program' t hreturns hreturns' hfiles hdiagnostics fun o =>
        Emission.same_compile o hreturns hreturns' hfiles hdiagnostics
    · have hblocks := h.blocks_of_fails hknown' hfails'
      obtain ⟨e, hfails⟩ := h.exists_fails_of_perm hknown hperm.symm hblocks
      exact absurd hfails hreturns.not_fails
  · have hblocks := h.blocks_of_fails hknown hfails
    obtain ⟨e', hfails'⟩ := h.exists_fails_of_perm hknown' hperm hblocks
    have hblocks' := h.blocks_of_fails hknown' hfails'
    exact .refused e e' hfails
      (h.refuses_of_blocks (canonical_known_of_mem_rootsOf hknown) hblocks) hfails'
      (h.refuses_of_blocks (canonical_known_of_mem_rootsOf hknown') hblocks')

end Steady

end SvelteTypings

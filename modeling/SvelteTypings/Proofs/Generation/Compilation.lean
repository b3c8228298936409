import SvelteTypings.Proofs.Compiler.Emission
import SvelteTypings.Proofs.Generation.Writing

/-!
# What compiling comes to

One pass of the library's own compiler loads everything that its roots lead to and writes the
declarations of it (`Config.Passed`). The first pass has every listed component among its roots, so
after it the table is *settled*: it holds all that can be reached, each entry with the declarations
of its own text. Later passes write the same texts again (`Config.Passed.settled`).
-/

namespace SvelteTypings.Generation

open Emission (packageDirectory shouldEmit)

/-! ## One pass -/

/-- The output of an entry is made from its own text. In a package it has none. -/
def Config.Written (c : Config) (key : Path) (e : Entry) : Prop :=
  e.output = if key.components.contains packageDirectory then none
    else some (Script.declarations c.options.declarationOnly e.source)

/-- What a pass does to a table. `files` are the files of its program. -/
structure Config.Passed (c : Config) (fs : FileSystem) (transformer : Transformer) (t : Table)
    (roots files : List Path) (t' : Table) : Prop where
  view : c.View fs transformer t'
  keeps : ∀ k ∈ t.keys, k ∈ t'.keys
  gains : ∀ k ∈ t'.keys, k ∈ t.keys ∨ k ∈ files
  roots : ∀ p ∈ roots, p ∈ files
  loadable : ∀ p ∈ files, c.Loadable fs transformer t' p
  closed : ∀ p ∈ files, ∀ q, c.Imports fs transformer p q → q ∈ files
  asked : ∀ p ∈ files, ∀ q, c.Asks fs transformer p q → c.Answers fs transformer q
  written : (∀ k e, t.Holds k e → e.output = none ∨ c.Written k e) →
    ∀ k e, t'.Holds k e → k ∈ files → c.Written k e
  others : ∀ k e, t'.Holds k e → k ∉ files →
    ∃ before, t.Holds k before ∧ e.output = before.output ∧ e.source = before.source

variable {c : Config} {fs : FileSystem} {transformer : Transformer} {cwd p k : Path} {e x : Entry}
  {t t' t₁ start : Table} {roots files : List Path} {program : Program}

/-- The files whose declarations a program emits. -/
abbrev Config.emitted (c : Config) (program : Program) : List SourceFile :=
  program.files.values.filter fun file => shouldEmit c.options.declarationOnly file.path

theorem Config.Loading.mem_emitted_iff (h : c.Loading fs transformer t roots [] program t')
    {file : SourceFile} :
    file ∈ c.emitted program ↔ (file.path, file) ∈ program.files.toList ∧
      shouldEmit c.options.declarationOnly file.path := by
  rw [Config.emitted, List.mem_filter,
    Program.mem_values_iff fun p file hfile => (h.loaded p file hfile).2.1]

/-- A pass loads a program and writes its declarations. -/
theorem exists_loading_of_compile {output : EmitOutput} (hclear : c.RootClear fs)
    (ht : c.View fs transformer t) (hroots : ∀ p ∈ roots, c.Loadable fs transformer t p)
    (h : ((c.setting transformer Emission.compile fs cwd).compile roots t).result = .ok output) :
    ∃ program t₁ written, c.Loading fs transformer t.clearDiscovered roots [] program t₁ ∧
      Session.Returns (c.host fs transformer cwd)
        (Emission.writeAll c.options.declarationOnly (c.emitted program)) t₁ written
        ((c.setting transformer Emission.compile fs cwd).compile roots t).state := by
  have hreturns : Session.Returns (c.host fs transformer cwd)
      (Emission.compile roots c.options.declarationOnly) t.clearDiscovered output
      ((c.setting transformer Emission.compile fs cwd).compile roots t).state := ⟨h, rfl⟩
  obtain ⟨program, t₁, written, hbuild, hwrite⟩ := Emission.build_and_write_of_compile hreturns
  have hroots' : ∀ p ∈ roots, c.Loadable fs transformer t.clearDiscovered p :=
    fun p hp => (hroots p hp).clearDiscovered
  exact ⟨program, t₁, written, loading_of_build hclear ht.clearDiscovered hroots' hbuild, hwrite⟩

/-- An entry was in the table when the pass began, or it was found and has no output yet. -/
theorem Config.Loading.before_or_found
    (h : c.Loading fs transformer t.clearDiscovered roots [] program t₁) (he : t₁.Holds k e) :
    (∃ before, t.Holds k before ∧ e = { before with discovered := false }) ∨
      (k ∈ program.files.keys ∧ e.output = none) := by
  refine (h.grows.gains k e he).imp_left ?_
  intro he
  exact Table.holds_clearDiscovered_iff.1 he

/-- An entry whose file is not in the program is not written. -/
theorem Config.Loading.eq_of_not_file (h : c.Loading fs transformer start roots [] program t₁)
    (hk : k ∉ program.files.keys)
    (hrewritten : Rewritten c.options.declarationOnly (c.emitted program) k e x) : x = e := by
  rcases hrewritten with ⟨heq, -⟩ | ⟨file, hfile, hpath, -⟩
  · exact heq
  · have hmem := PathMap.mem_keys_of_mem (h.mem_emitted_iff.1 hfile).1
    rw [hpath] at hmem
    exact absurd hmem hk

/-- **An entry whose file is in the program gets the declarations of its own text.** -/
theorem Config.Loading.written_of_file (h : c.Loading fs transformer start roots [] program t₁)
    (ht' : c.View fs transformer t') (hx : t'.Holds k x) (hk : k ∈ program.files.keys)
    (hopen : k.components.contains packageDirectory → e.output = none)
    (hrewritten : Rewritten c.options.declarationOnly (c.emitted program) k e x) : c.Written k x := by
  have hkey : k = Table.keyFor x.component := (ht'.admitted k x hx).key
  have hemits : shouldEmit c.options.declarationOnly k =
      !k.components.contains packageDirectory := by
    rw [hkey]
    exact shouldEmit_keyFor _ _
  rw [Config.Written]
  cases hpackage : k.components.contains packageDirectory with
  | true =>
    -- nothing is written into a package, so the entry is as it was
    rw [hpackage] at hemits hopen
    rcases hrewritten with ⟨rfl, -⟩ | ⟨file, hfile, hpath, -⟩
    · exact hopen rfl
    · have hemit := (h.mem_emitted_iff.1 hfile).2
      rw [hpath, hemits] at hemit
      exact absurd hemit (by decide)
  | false =>
    rw [hpackage] at hemits
    rcases hrewritten with ⟨-, hnot⟩ | ⟨file, hfile, hpath, rfl⟩
    · obtain ⟨file, hfile⟩ := PathMap.mem_keys_iff.1 hk
      have hpath := (h.loaded k file hfile).2.1
      have hemitted : file ∈ c.emitted program := by
        refine h.mem_emitted_iff.2 ⟨?_, ?_⟩
        · rw [hpath]
          exact hfile
        · rw [hpath, hemits]
          rfl
      exact absurd hpath (hnot file hemitted)
    · -- the text that was loaded is the text of the entry
      have hmem := (h.mem_emitted_iff.1 hfile).1
      have hloaded := (h.loaded _ file hmem).2.2
      rw [hpath] at hloaded
      have hserved := ht'.serves hx
      have htext : file.text = e.source := hloaded.eq hserved
      rw [htext]
      rfl

/-- **What a pass does.** -/
theorem passed_of_compile {output : EmitOutput} (hclear : c.RootClear fs)
    (ht : c.View fs transformer t) (hroots : ∀ p ∈ roots, c.Loadable fs transformer t p)
    (h : ((c.setting transformer Emission.compile fs cwd).compile roots t).result = .ok output) :
    ∃ files, c.Passed fs transformer t roots files
      ((c.setting transformer Emission.compile fs cwd).compile roots t).state := by
  -- A compile is a loading and then a writing, and the table grows only in the first.
  obtain ⟨program, t₁, written, hloading, hwrite⟩ := exists_loading_of_compile hclear ht hroots h
  generalize ((c.setting transformer Emission.compile fs cwd).compile roots t).state = t' at hwrite ⊢
  have hemitted : ∀ file ∈ c.emitted program,
      IsTyped file.path ∧ c.Available fs file.path := by
    intro file hfile
    have hmem := (hloading.mem_emitted_iff.1 hfile).1
    have hloadable := (hloading.loaded file.path file hmem).1
    exact ⟨hloadable.typed, hloadable.available⟩
  obtain ⟨hview, hkeys, hrewritten⟩ :=
    rewritten_of_writeAll hloading.grows.view hemitted hwrite
  refine ⟨program.files.keys, hview, ?_, ?_, hloading.roots, ?_, hloading.imports,
    hloading.asked, ?_, ?_⟩
  · intro k hk
    rw [hkeys]
    refine hloading.grows.mem_keys ?_
    rw [Table.keys_clearDiscovered]
    exact hk
  · intro k hk
    rw [hkeys] at hk
    obtain ⟨e, he⟩ := Table.mem_keys_iff.1 hk
    rcases hloading.before_or_found he with ⟨before, hbefore, -⟩ | ⟨hfile, -⟩
    · exact Or.inl hbefore.mem_keys
    · exact Or.inr hfile
  · intro p hp
    have hload := hloading.loadable hp
    exact ⟨hload.typed, hload.available, fun hshows => hkeys ▸ hload.known hshows, hload.reached⟩
  · intro hopen k x hx hk
    obtain ⟨e, he, hrewritten⟩ := hrewritten k x hx
    refine hloading.written_of_file hview hx hk ?_ hrewritten
    intro hpackage
    rcases hloading.before_or_found he with ⟨before, hbefore, rfl⟩ | ⟨-, hnone⟩
    · rcases hopen k before hbefore with hnone | hwritten
      · exact hnone
      · rw [Config.Written, if_pos hpackage] at hwritten
        exact hwritten
    · exact hnone
  · intro k x hx hk
    obtain ⟨e, he, hrewritten⟩ := hrewritten k x hx
    obtain rfl := hloading.eq_of_not_file hk hrewritten
    rcases hloading.before_or_found he with ⟨before, hbefore, rfl⟩ | ⟨hfile, -⟩
    · exact ⟨before, hbefore, rfl, rfl⟩
    · exact absurd hfile hk

/-! ## Settled tables -/

/-- The table holds exactly what can be reached, with the right outputs. -/
structure Config.Settled (c : Config) (fs : FileSystem) (transformer : Transformer) (t : Table) :
    Prop where
  view : c.View fs transformer t
  written : ∀ k e, t.Holds k e → c.Written k e
  reached : ∀ k ∈ t.keys, c.Reaches fs transformer k
  complete : ∀ p, c.Reaches fs transformer p → c.Shows fs p → p ∈ t.keys

/-- A key in the table may be a root. -/
theorem Config.View.loadable (h : c.View fs transformer t) (hk : k ∈ t.keys)
    (hreached : c.Reaches fs transformer k) : c.Loadable fs transformer t k :=
  ⟨⟨h.rooted k hk, Or.inr (h.shows hk).hasSuffix⟩, Or.inl (h.shows hk), fun _ => hk, hreached⟩

/-- The files of a pass that begins with all listed components hold everything that can be reached.
-/
theorem Config.Passed.mem_files (h : c.Passed fs transformer t roots files t')
    (hlisted : ∀ k, c.Lists fs k → k ∈ roots) (hp : c.Reaches fs transformer p) : p ∈ files := by
  induction hp with
  | listed hlists => exact h.roots _ (hlisted _ hlists)
  | imported _ himports ih => exact h.closed _ ih _ himports

/-- **The first pass settles the table.** -/
theorem Config.Passed.settled_first (h : c.Passed fs transformer t t.keys files t')
    (ht : c.View fs transformer t) (houtput : ∀ k e, t.Holds k e → e.output = none) :
    c.Settled fs transformer t' := by
  have hfiles : ∀ k ∈ t'.keys, k ∈ files := fun k hk =>
    (h.gains k hk).elim (h.roots k) id
  refine ⟨h.view, ?_, fun k hk => (h.loadable k (hfiles k hk)).reached, ?_⟩
  · intro k e he
    exact h.written (fun k e he => Or.inl (houtput k e he)) k e he (hfiles k he.mem_keys)
  · intro p hp hshows
    exact (h.loadable p (h.mem_files ht.listed hp)).known hshows

/-- A later pass leaves a settled table settled. -/
theorem Config.Passed.settled (h : c.Passed fs transformer t roots files t')
    (ht : c.Settled fs transformer t) : c.Settled fs transformer t' := by
  refine ⟨h.view, ?_, ?_, fun p hp hshows => h.keeps p (ht.complete p hp hshows)⟩
  · intro k e he
    by_cases hk : k ∈ files
    · exact h.written (fun k e he => Or.inr (ht.written k e he)) k e he hk
    · obtain ⟨before, hbefore, houtput, hsource⟩ := h.others k e he hk
      rw [Config.Written, houtput, hsource]
      exact ht.written k before hbefore
  · intro k hk
    rcases h.gains k hk with hk | hk
    · exact ht.reached k hk
    · exact (h.loadable k hk).reached

end SvelteTypings.Generation

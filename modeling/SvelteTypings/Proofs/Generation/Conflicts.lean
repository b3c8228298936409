import SvelteTypings.Proofs.Generation.Convergence
import SvelteTypings.Proofs.Generation.Progress

/-!
# Hand-written files beside imported components

The guard is asked when something asks for the intermediate file of a component. Whether an import
does so depends on what stands beside the component. A file that ends in `.ts` is found first, so it
is what the import means, and the guard is not asked at all. Without such a file the intermediate
file is asked for next, so a hand-written one that ends in `.tsx` ends the run with a conflict,
unless something else has ended it before (`conflict_of_generate`).
-/

namespace SvelteTypings.Generation

open SvelteTypings.Path (IsRooted IsSuffix typedSuffix intermediateSuffix)
open Resolution (IsBare candidates importBase)

variable {c : Config} {fs : FileSystem} {transformer : Transformer} {cwd component file p : Path}
  {m : MemoryFiles} {t : Table} {specifier text s : String} {kind : TypedKind} {typed : Path}
  {e : Failure}

/-! ## Failures of a run -/

/-- **What ends a run** over files in memory: a listed component that gets no entry, or a question
that is refused. -/
theorem error_of_generate (habsolute : ∀ p ∈ c.components, p.isAbsolute)
    (h : (generate c transformer Emission.compile m.fileSystem cwd).result = .error e) :
    (initialTable c transformer m.fileSystem cwd c.components .empty).1 = .error e ∨
      c.Refuses m.fileSystem transformer e := by
  simp only [generate] at h
  cases hinitial : (initialTable c transformer m.fileSystem cwd c.components .empty).1 with
  | error e' =>
    simp only [hinitial, Except.error.injEq] at h
    exact Or.inl (congrArg Except.error h)
  | ok initial =>
    simp only [hinitial] at h
    cases hresult : ((c.setting transformer Emission.compile m.fileSystem cwd).run c.maxPasses
        initial).result with
    | error e' =>
      simp only [hresult, Except.error.injEq] at h
      exact Or.inr (h ▸ refuses_of_run (fresh_initialTable habsolute hinitial) hresult)
    | ok report => simp [hresult] at h

/-- The guard refuses a component with a typed file beside it. -/
theorem discoverComponent_of_sibling (hfile : fs.isFile component)
    (hcomponent : c.isComponent component)
    (hsibling : typedSibling? fs component = some (kind, typed)) :
    discoverComponent c fs transformer (Table.keyFor component) =
      .error (.conflict kind typed component) := by
  have hstrip : (Table.keyFor component).stripSuffix? intermediateSuffix = some component :=
    Path.stripSuffix?_appendSuffix component intermediateSuffix
  have hguard : mayType fs component = .error (.conflict kind typed component) := by
    rw [mayType, hsibling]
  rw [discoverComponent, hstrip]
  simp only [hfile, hcomponent, hguard]
  rfl

theorem exists_typedSibling? (h : fs.isFile (component.appendSuffix intermediateSuffix)) :
    ∃ kind typed, typedSibling? fs component = some (kind, typed) := by
  have hpresent : fs.present (component.appendSuffix intermediateSuffix) := by
    rw [FileSystem.isFile, Bool.and_eq_true] at h
    exact h.1
  simp only [typedSibling?, hpresent]
  split
  · exact ⟨_, _, rfl⟩
  · exact ⟨_, _, rfl⟩

/-! ## What an import of a component asks for -/

theorem Config.Reaches.isTyped (habsolute : ∀ p ∈ c.components, p.isAbsolute)
    (h : c.Reaches fs transformer p) : IsTyped p := by
  induction h with
  | listed hlists =>
    obtain ⟨q, hq, -, rfl⟩ := hlists
    exact ⟨(Path.isRooted_normalize (habsolute q hq)).appendSuffix Path.isSuffix_intermediate,
      Or.inr (hasSuffix_keyFor _)⟩
  | imported _ himports ih =>
    obtain ⟨text, specifier, -, -, hresolves⟩ := himports
    exact hresolves.isTyped ih

/-- The root is no file if there is a file beside it. -/
theorem ne_root_of_isFile (hs : IsSuffix (Text.encode s)) (hfile : m.fileSystem.isFile p)
    (hbeside : m.fileSystem.isFile (p.appendSuffix s)) : p ≠ Path.root := by
  rintro rfl
  obtain ⟨text, hread⟩ := MemoryFiles.exists_text_of_isFile hbeside
  have hsplit : Path.split Path.root.bytes = [[]] ++ [[]] := rfl
  have hcomponents : (Path.root.appendSuffix s).components = [.root, .name (Text.encode s)] :=
    Path.components_appendSuffix hsplit hs
  have hbelow : (Path.root.appendSuffix s).startsWith Path.root := by
    rw [Path.startsWith, hcomponents, List.isPrefixOf_iff_prefix]
    exact ⟨[.name (Text.encode s)], rfl⟩
  have hne : ¬ (Path.root.appendSuffix s).same Path.root := by
    have hroot : Path.root.components = [.root] := rfl
    rw [Path.same_iff, hcomponents, hroot]
    simp
  rw [isFile_eq_false_of_below hread hbelow hne] at hfile
  exact absurd hfile Bool.false_ne_true

/-- The typed file beside a component is what an import of the component means. -/
theorem first_typed (hrooted : IsRooted component) (hne : component ≠ Path.root)
    (hbare : IsBare component) (h : fs.isFile (component.appendSuffix typedSuffix)) :
    c.First fs component (candidates component) (component.appendSuffix typedSuffix) ∧
      ¬ c.Probes fs component (candidates component) (Table.keyFor component) := by
  obtain ⟨rest, hcandidates⟩ := Resolution.exists_candidates_eq hbare
  have hindex := Resolution.isIndex_appendSuffix hrooted hne Path.isSuffix_typed
  have hstops : c.Stops fs component (component.appendSuffix typedSuffix) :=
    ⟨fun h => absurd h (by rw [hindex]; exact Bool.false_ne_true), Or.inr h⟩
  rw [hcandidates]
  refine ⟨.cons hstops _, fun hprobes => ?_⟩
  rcases hprobes.cons_cases with ⟨heq, -⟩ | ⟨hnot, -⟩
  · exact not_intermediate_of_typed (Path.hasSuffix_appendSuffix component typedSuffix)
      (heq ▸ hasSuffix_keyFor component)
  · exact hnot hstops

/-- Without it, the intermediate file of the component is asked for. -/
theorem probes_intermediate (hrooted : IsRooted component) (hne : component ≠ Path.root)
    (hbare : IsBare component) (h : ¬ fs.isFile (component.appendSuffix typedSuffix)) :
    c.Probes fs component (candidates component) (Table.keyFor component) := by
  obtain ⟨rest, hcandidates⟩ := Resolution.exists_candidates_eq hbare
  have hindex := Resolution.isIndex_appendSuffix hrooted hne Path.isSuffix_intermediate
  have hnot : ¬ c.Stops fs component (component.appendSuffix typedSuffix) := by
    intro hstops
    -- a typed path is no intermediate file, so only a real file could be there
    refine h (hstops.available.resolve_left fun hshows => ?_)
    exact not_intermediate_of_typed (Path.hasSuffix_appendSuffix component typedSuffix)
      hshows.hasSuffix
  rw [hcandidates]
  exact .cons hnot (.head fun h => absurd h (by rw [hindex]; exact Bool.false_ne_true))

/-! ## Runs -/

/-- **A typed file beside an imported component.** If it ends in `.ts`, the import means it, and the
intermediate file of the component is not asked for. If there is none of that kind but one that ends
in `.tsx`, the run fails: with the conflict, or with what has failed before, for a listed component
or in another question. -/
theorem conflict_of_generate (c : Config) (transformer : Transformer) (m : MemoryFiles)
    (cwd component file : Path) (text specifier : String)
    (habsolute : ∀ p ∈ c.components, p.isAbsolute) (hmax : 1 ≤ c.maxPasses)
    (hreached : c.Reaches m.fileSystem transformer file)
    (hserves : c.Serves m.fileSystem transformer file text)
    (hspecifier : specifier ∈ Script.specifiers (Script.scan text))
    (hrelative : Script.isRelative specifier) (hbase : importBase specifier file = component)
    (hbare : IsBare component) (hfile : m.fileSystem.isFile component)
    (hcomponent : c.isComponent component) :
    (m.fileSystem.isFile (component.appendSuffix typedSuffix) →
      c.Resolves m.fileSystem specifier file (component.appendSuffix typedSuffix) ∧
        ¬ c.Probes m.fileSystem component (candidates component) (Table.keyFor component)) ∧
    (¬ m.fileSystem.isFile (component.appendSuffix typedSuffix) →
      m.fileSystem.isFile (component.appendSuffix intermediateSuffix) →
        ∃ kind typed e, typedSibling? m.fileSystem component = some (kind, typed) ∧
          (generate c transformer Emission.compile m.fileSystem cwd).result = .error e ∧
            (e = .conflict kind typed component ∨
              (initialTable c transformer m.fileSystem cwd c.components .empty).1 = .error e ∨
                ∃ p q, c.Reaches m.fileSystem transformer p ∧ c.Asks m.fileSystem transformer p q ∧
                  q ≠ Table.keyFor component ∧
                    discoverComponent c m.fileSystem transformer q = .error e)) := by
  subst hbase
  have hrooted : IsRooted (importBase specifier file) :=
    Resolution.isRooted_importBase specifier (hreached.isTyped habsolute).isScript
  refine ⟨fun hts => ?_, fun hts htsx => ?_⟩
  · have hne := ne_root_of_isFile Path.isSuffix_typed hfile hts
    obtain ⟨hfirst, hnot⟩ := first_typed (c := c) hrooted hne hbare hts
    exact ⟨⟨hrelative, hfirst⟩, hnot⟩
  · have hne := ne_root_of_isFile Path.isSuffix_intermediate hfile htsx
    obtain ⟨kind, typed, hsibling⟩ := exists_typedSibling? htsx
    have hrefused : discoverComponent c m.fileSystem transformer
        (Table.keyFor (importBase specifier file)) =
          .error (.conflict kind typed (importBase specifier file)) :=
      discoverComponent_of_sibling hfile hcomponent hsibling
    have hasks : c.Asks m.fileSystem transformer file (Table.keyFor (importBase specifier file)) :=
      ⟨text, specifier, hserves, hspecifier, hrelative, probes_intermediate hrooted hne hbare hts⟩
    cases hresult : (generate c transformer Emission.compile m.fileSystem cwd).result with
    | ok t =>
      -- a run that succeeds has had an answer to this question
      obtain ⟨found, hfound⟩ := answered_of_generate habsolute hmax hresult file hreached _ hasks
      rw [hrefused] at hfound
      exact absurd hfound (by simp)
    | error e =>
      refine ⟨kind, typed, e, hsibling, rfl, ?_⟩
      rcases error_of_generate habsolute hresult with hinitial | ⟨p, q, hp, hq, hfailed⟩
      · exact Or.inr (Or.inl hinitial)
      · by_cases hkey : q = Table.keyFor (importBase specifier file)
        · rw [hkey, hrefused, Except.error.injEq] at hfailed
          exact Or.inl hfailed.symm
        · exact Or.inr (Or.inr ⟨p, q, hp, hq, hkey, hfailed⟩)

/-- The pair, with a hand-written file beside the component that is imported. -/
def besideFiles (suffix : String) : MemoryFiles :=
  pairFiles.add (.ofString ("/s/B.svelte" ++ suffix)) ""

def besideText : String := directiveText ++ "import './B.svelte'"

/-- The listed component of the pair, which imports the other one. -/
theorem imports_beside (hsuffix : s ∈ [typedSuffix, intermediateSuffix]) :
    pairConfig.Reaches (besideFiles s).fileSystem (fun text _ => .ok text)
        (.ofString "/s/A.svelte.tsx") ∧
      pairConfig.Serves (besideFiles s).fileSystem (fun text _ => .ok text)
        (.ofString "/s/A.svelte.tsx") besideText := by
  have hguard : ∀ s ∈ [typedSuffix, intermediateSuffix],
      (mayType (besideFiles s).fileSystem (Path.ofString "/s/A.svelte").normalize).toOption =
        some true := by decide
  have hsource : ∀ s ∈ [typedSuffix, intermediateSuffix],
      (synthesize (besideFiles s).fileSystem (fun text _ => .ok text)
        (.ofString "/s/A.svelte")).toOption = some besideText := by decide
  have hlists : pairConfig.Lists (besideFiles s).fileSystem
      (Table.keyFor (.ofString "/s/A.svelte")) :=
    ⟨.ofString "/s/A.svelte", by decide,
      ⟨eq_ok_of_toOption (hguard s hsuffix), by decide⟩, by decide⟩
  exact ⟨.listed hlists, .intermediate (Or.inl hlists) (eq_ok_of_toOption (hsource s hsuffix))⟩

/-- Beside a file that ends in `.tsx` the run fails, and one that ends in `.ts` is what the import
means. -/
theorem conflict_of_generate_beside :
    (∃ e, (generate pairConfig (fun text _ => .ok text) Emission.compile
        (besideFiles intermediateSuffix).fileSystem .root).result = .error e) ∧
      pairConfig.Resolves (besideFiles typedSuffix).fileSystem "./B.svelte"
        (.ofString "/s/A.svelte.tsx") (.ofString "/s/B.svelte.ts") := by
  have hspecifier : "./B.svelte" ∈ Script.specifiers (Script.scan besideText) := by decide +kernel
  have hbase : importBase "./B.svelte" (.ofString "/s/A.svelte.tsx") = .ofString "/s/B.svelte" := by
    decide
  have happlies := fun s (hsuffix : s ∈ [typedSuffix, intermediateSuffix]) hfile =>
    conflict_of_generate pairConfig (fun text _ => .ok text) (besideFiles s) .root
      (.ofString "/s/B.svelte") (.ofString "/s/A.svelte.tsx") besideText "./B.svelte" (by decide)
      (by decide) (imports_beside hsuffix).1 (imports_beside hsuffix).2 hspecifier (by decide) hbase
      (by decide) hfile (by decide +kernel)
  refine ⟨?_, ?_⟩
  · obtain ⟨kind, typed, e, -, hresult, -⟩ :=
      (happlies intermediateSuffix (by decide) (by decide)).2 (by decide)
        (by decide)
    exact ⟨e, hresult⟩
  · exact ((happlies typedSuffix (by decide) (by decide)).1 (by decide)).1

/-- Beside a file that ends in `.ts` no conflict is reported: the imported component is a file under
the source root and of the right kind, it is not listed, and the run succeeds without it. -/
theorem exists_generate_beside :
    (besideFiles typedSuffix).fileSystem.isFile (.ofString "/s/B.svelte") ∧
      (besideFiles typedSuffix).fileSystem.isFile (.ofString "/s/B.svelte.ts") ∧
      pairConfig.isComponent (.ofString "/s/B.svelte") ∧
      pairConfig.isUnderSource (.ofString "/s/B.svelte") ∧
      .ofString "/s/B.svelte" ∉ pairConfig.components ∧
      pairConfig.Reaches (besideFiles typedSuffix).fileSystem (fun text _ => .ok text)
        (.ofString "/s/A.svelte.tsx") ∧
      pairConfig.Serves (besideFiles typedSuffix).fileSystem (fun text _ => .ok text)
        (.ofString "/s/A.svelte.tsx") besideText ∧
      "./B.svelte" ∈ Script.specifiers (Script.scan besideText) ∧
      importBase "./B.svelte" (.ofString "/s/A.svelte.tsx") = .ofString "/s/B.svelte" ∧
      ∃ t, (generate pairConfig (fun text _ => .ok text) Emission.compile
        (besideFiles typedSuffix).fileSystem .root).result = .ok t ∧
          t.keys = [.ofString "/s/A.svelte.tsx"] := by
  have hkeys : (generate pairConfig (fun text _ => .ok text) Emission.compile
      (besideFiles typedSuffix).fileSystem .root).result.toOption.map Table.keys =
        some [.ofString "/s/A.svelte.tsx"] := by decide +kernel
  obtain ⟨t, ht, hkeys⟩ := Option.map_eq_some_iff.1 hkeys
  obtain ⟨hreached, hserves⟩ := imports_beside (s := typedSuffix) (by decide)
  exact ⟨by decide +kernel, by decide +kernel, by decide +kernel, by decide +kernel, by decide,
    hreached, hserves, by decide +kernel, by decide +kernel, t, eq_ok_of_toOption ht, hkeys⟩

end SvelteTypings.Generation

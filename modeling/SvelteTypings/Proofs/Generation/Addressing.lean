import SvelteTypings.Proofs.Generation.Convergence
import SvelteTypings.Proofs.Path.Spelling
import SvelteTypings.Proofs.Path.Walk

/-!
# How entries are found

The key of an entry is made by normalising the path of a component and appending a suffix. A probe
for it is made by joining, normalising and appending one suffix after the other. The two meet for
every spelling of an import (`resolve_of_occurs`): the walk that the spelling describes is what
normalisation computes, the typed file beside an admitted component is not there, and the
intermediate file is in the table.
-/

namespace SvelteTypings.Generation

open SvelteTypings.Path (IsRooted typedSuffix intermediateSuffix)
open Resolution (IsBare importBase)

variable {c : Config} {fs : FileSystem} {transformer : Transformer} {compiler : Compiler}
  {cwd directory importer p k : Path} {e : Entry} {t : Table} {specifier : String}

/-! ## Tables of a run -/

/-- A table that a run goes through, whether it fails later or not. -/
inductive Config.Occurs (c : Config) (transformer : Transformer) (compiler : Compiler)
    (fs : FileSystem) (cwd : Path) : Table → Prop where
  | listed {initial : Table}
      (h : (initialTable c transformer fs cwd c.components .empty).1 = .ok initial) :
      c.Occurs transformer compiler fs cwd initial
  | before {initial : Table} {m : Moment Event Table}
      (h : (initialTable c transformer fs cwd c.components .empty).1 = .ok initial)
      (hm : m ∈ c.history transformer compiler fs cwd initial) :
      c.Occurs transformer compiler fs cwd m.before
  | after {initial : Table} {m : Moment Event Table}
      (h : (initialTable c transformer fs cwd c.components .empty).1 = .ok initial)
      (hm : m ∈ c.history transformer compiler fs cwd initial) :
      c.Occurs transformer compiler fs cwd m.after
  | returned {t : Table} (h : (generate c transformer compiler fs cwd).result = .ok t) :
      c.Occurs transformer compiler fs cwd t

/-- No event breaks the admission of the listed components. -/
theorem admitted_history {initial : Table}
    (h : (initialTable c transformer fs cwd c.components .empty).1 = .ok initial) :
    (∀ m ∈ c.history transformer compiler fs cwd initial,
      c.Admitted fs transformer m.before ∧ c.Admitted fs transformer m.after) ∧
      c.Admitted fs transformer (c.run transformer compiler fs cwd initial).table := by
  have hlisted : c.Listed fs transformer c.components initial := listed_initialTable listed_empty h
  refine (linked_history _ c.maxPasses initial).invariant (hlisted.admitted fun _ => id) ?_
  intro m hm hbefore
  rw [after_of_mem_history _ _ m hm]
  exact hbefore.after m.event

theorem Config.Occurs.admitted (h : c.Occurs transformer compiler fs cwd t) :
    c.Admitted fs transformer t := by
  cases h with
  | listed h =>
    have hlisted : c.Listed fs transformer c.components t := listed_initialTable listed_empty h
    exact hlisted.admitted fun _ => id
  | before h hm => exact ((admitted_history h).1 _ hm).1
  | after h hm => exact ((admitted_history h).1 _ hm).2
  | returned h =>
    obtain ⟨initial, hinitial, -, rfl⟩ := exists_initial_of_generate h
    exact (admitted_history hinitial).2

/-! ## The two probes -/

/-- A typed path is no key: keys end in the suffix of intermediate files. -/
theorem not_contains_typed (ht : c.Admitted fs transformer t) :
    ¬ t.contains (p.appendSuffix typedSuffix) := by
  intro hcontains
  have htyped := Path.hasSuffix_appendSuffix p typedSuffix
  obtain ⟨k, hk, hsame⟩ := Table.contains_iff.1 hcontains
  obtain ⟨e, he⟩ := Table.mem_keys_iff.1 hk
  rw [(ht k e he).key] at hsame
  exact not_intermediate_of_typed htyped
    (Path.hasSuffix_of_same Path.isSuffix_intermediate (Path.same_symm hsame)
      (Path.not_endsVoid_of_hasSuffix Path.isSuffix_typed htyped))

/-- A question for a typed path is a question for the real file. -/
theorem returns_exists?_typed (ht : c.Admitted fs transformer t) (p : Path) :
    Session.Returns (c.host fs transformer cwd) (Session.exists? (p.appendSuffix typedSuffix)) t
      (fs.isFile (p.appendSuffix typedSuffix)) t := by
  have hstrip : (p.appendSuffix typedSuffix).stripSuffix? intermediateSuffix = none :=
    if_neg (not_intermediate_of_typed (Path.hasSuffix_appendSuffix p typedSuffix))
  have hnothing : discoverComponent c fs transformer (p.appendSuffix typedSuffix) = .ok none := by
    rw [discoverComponent, hstrip]
  refine Session.returns_exists?_iff.2 ?_
  show overlayExists (discoverComponent c fs transformer) fs t _ = _
  rw [overlayExists, if_neg (not_contains_typed ht), hnothing]

theorem returns_exists?_of_contains (h : t.contains p) :
    Session.Returns (c.host fs transformer cwd) (Session.exists? p) t true t := by
  refine Session.returns_exists?_iff.2 ?_
  show overlayExists (discoverComponent c fs transformer) fs t p = _
  rw [overlayExists, if_pos h]

/-- A bare path stands for the entry of its component, if there is one. -/
theorem returns_search (ht : c.Admitted fs transformer t) (he : t.Holds k e)
    (hrooted : IsRooted e.component) (hne : e.component ≠ Path.root) (hbare : IsBare e.component) :
    Session.Returns (c.host fs transformer cwd)
      (Resolution.search e.component none (Resolution.candidates e.component)) t (some k) t := by
  have hadmits := ht k e he
  have hkey : k = e.component.appendSuffix intermediateSuffix := hadmits.key
  have hknown : t.contains (e.component.appendSuffix intermediateSuffix) :=
    hkey ▸ Table.contains_of_mem_keys he.mem_keys
  obtain ⟨rest, hcandidates⟩ := Resolution.exists_candidates_eq hbare
  -- neither of the first two candidates lies in the component itself
  have htyped := Resolution.isIndex_appendSuffix hrooted hne Path.isSuffix_typed
  have hintermediate := Resolution.isIndex_appendSuffix hrooted hne Path.isSuffix_intermediate
  have habsent : fs.isFile (e.component.appendSuffix typedSuffix) = false := by
    rw [FileSystem.isFile, hadmits.noTyped, Bool.false_and]
  rw [hcandidates, Resolution.search, htyped, if_neg Bool.false_ne_true]
  refine (returns_exists?_typed ht e.component).bind ?_
  rw [habsent, if_neg Bool.false_ne_true, Resolution.search, hintermediate,
    if_neg Bool.false_ne_true]
  refine (returns_exists?_of_contains hknown).bind ?_
  rw [if_pos rfl, hkey]
  exact Session.returns_pure _ _

/-! ## Spellings -/

/-- A relative specifier does not begin with a separator. -/
theorem isAbsolute_ofString_of_isRelative (h : Script.isRelative specifier) :
    (Path.ofString specifier).isAbsolute = false := by
  obtain ⟨rest, hrest⟩ : ∃ rest, specifier.toList = '.' :: rest := by
    rw [Script.isRelative, Bool.or_eq_true, Bool.or_eq_true, Bool.or_eq_true] at h
    simp only [decide_eq_true_eq, List.isPrefixOf_iff_prefix] at h
    rcases h with ((rfl | rfl) | ⟨rest, hrest⟩) | ⟨rest, hrest⟩
    · exact ⟨[], rfl⟩
    · exact ⟨['.'], rfl⟩
    · exact ⟨_, hrest.symm⟩
    · exact ⟨_, hrest.symm⟩
  rw [Path.ofString, Text.encode_eq_flatMap, hrest, List.flatMap_cons]
  rfl

/-- **Any spelling of an import reaches the entry.** At every table of a run, a relative specifier
that walks from the directory of the importing file to the component of an entry is resolved to the
key of the entry, and the table is left as it is. -/
theorem resolve_of_occurs (c : Config) (transformer : Transformer) (compiler : Compiler)
    (fs : FileSystem) (cwd : Path) (t : Table) (key : Path) (e : Entry) (importer directory : Path)
    (specifier : String) (ht : c.Occurs transformer compiler fs cwd t) (he : t.Holds key e)
    (habsolute : e.component.isAbsolute) (hnormal : e.component.normalize = e.component)
    (hne : e.component ≠ Path.root) (hbare : IsBare e.component) (himporter : importer.isAbsolute)
    (hparent : importer.parent? = some directory) (hrelative : Script.isRelative specifier)
    (hwalk : directory.walk? (.ofString specifier) = some e.component.components) :
    key = Table.keyFor e.component.normalize ∧
      Session.Returns (c.host fs transformer cwd) (Resolution.resolve specifier importer) t
        (some key) t := by
  have hadmitted := ht.admitted
  have hrooted : IsRooted e.component := Path.isRooted_of_normalize_eq habsolute hnormal
  have hbase : importBase specifier importer = e.component := by
    rw [importBase, hparent]
    exact Path.normalize_join_of_walk (Path.isAbsolute_of_parent? himporter hparent)
      (isAbsolute_ofString_of_isRelative hrelative) hrooted hwalk
  refine ⟨?_, ?_⟩
  · rw [hnormal]
    exact (hadmitted key e he).key
  · rw [Resolution.resolve, if_pos hrelative]
    show Session.Returns _ (Resolution.search (importBase specifier importer) none
      (Resolution.candidates (importBase specifier importer))) t (some key) t
    rw [hbase]
    exact returns_search hadmitted he hrooted hne hbare

/-- From the first component of the pair, a way round leads to the entry of the second. -/
theorem resolve_of_occurs_pair :
    ∃ t e, pair.result = .ok t ∧ t.Holds (.ofString "/s/B.svelte.tsx") e ∧
      Session.Returns (pairConfig.host pairFiles.fileSystem (fun text _ => .ok text) .root)
        (Resolution.resolve "..//s/./B.svelte" (.ofString "/s/A.svelte.tsx")) t
        (some (.ofString "/s/B.svelte.tsx")) t := by
  obtain ⟨t, ht, hkeys⟩ := exists_pair
  obtain ⟨e, he⟩ := Table.mem_keys_iff.1 (show .ofString "/s/B.svelte.tsx" ∈ t.keys by
    rw [hkeys]
    decide)
  have hoccurs : pairConfig.Occurs (fun text _ => .ok text) Emission.compile pairFiles.fileSystem
      .root t := .returned ht
  have hkey : Table.keyFor (.ofString "/s/B.svelte") = e.component.appendSuffix intermediateSuffix :=
    (hoccurs.admitted _ e he).key
  have hcomponent : e.component = .ofString "/s/B.svelte" := (Path.appendSuffix_injective hkey).symm
  refine ⟨t, e, ht, he, ?_⟩
  refine (resolve_of_occurs pairConfig _ _ _ .root t _ e (.ofString "/s/A.svelte.tsx")
    (.ofString "/s") "..//s/./B.svelte" hoccurs he ?_ ?_ ?_ ?_ ?_ ?_ ?_ ?_).2
  · rw [hcomponent]
    decide
  · rw [hcomponent]
    decide
  · rw [hcomponent]
    decide
  · rw [hcomponent]
    decide
  · decide
  · decide
  · decide
  · rw [hcomponent]
    decide

end SvelteTypings.Generation

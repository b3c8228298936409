import SvelteTypings.Proofs.Generation.Relisting
import SvelteTypings.Proofs.Path.Below

/-!
# Where declarations go

The destination of an entry is made from its component by taking it from the source root to the
output root. Imports can spell the way to a component with any number of `..`, and normalisation
keeps one at the front of an absolute path. None of it is left below a source root other than `/`,
so every destination lies in the output root, and different entries have different ones
(`destinations_of_generate`).
-/

namespace SvelteTypings.Generation

open SvelteTypings.Path (IsRooted Plain Tidy written suffixed upward declarationSuffix)

variable {c : Config} {fs : FileSystem} {transformer : Transformer} {cwd : Path} {e e' : Entry}
  {t : Table} {m : MemoryFiles}

/-! ## The returned table -/

/-- A run over files in memory returns a table of rooted keys, also if it may take no pass at all. -/
theorem view_of_generate (habsolute : ∀ p ∈ c.components, p.isAbsolute)
    (h : (generate c transformer Emission.compile m.fileSystem cwd).result = .ok t) :
    c.View m.fileSystem transformer t := by
  by_cases hmax : 1 ≤ c.maxPasses
  · exact (settled_of_generate habsolute hmax h).view
  · obtain ⟨initial, hinitial, -, rfl⟩ := exists_initial_of_generate h
    have hzero : c.maxPasses = 0 := Nat.eq_zero_of_not_pos hmax
    rw [Config.run, hzero]
    exact (fresh_initialTable habsolute hinitial).view

/-! ## Destinations by segments -/

/-- The segments of an entry: those of its component below the source root. -/
structure Config.Names (c : Config) (e : Entry) (rest : List Path.Segment) : Prop where
  plain : ∀ s ∈ rest, Plain s
  noUpward : upward ∉ rest
  below : e.component.below? c.sourceRoot = some (written false rest)
  component : e.component.components =
    c.sourceRoot.components ++ (written false rest).components
  destination : e.destination =
    (c.outputRoot.join (written false rest)).appendSuffix declarationSuffix

theorem exists_names (hsource : c.source.isAbsolute) (hroot : c.sourceRoot ≠ Path.root)
    (hrooted : IsRooted e.component) (hdestination : c.destination? e.component = some e.destination) :
    ∃ rest, c.Names e rest := by
  have hsourceRoot : IsRooted c.sourceRoot := Path.isRooted_normalize hsource
  obtain ⟨ss, rest, htidy, hbase, hcomponent, hbelow⟩ :=
    hrooted.exists_below hsourceRoot (isUnderSource_of_destination? hdestination)
  have hplain := List.forall_mem_append.1 htidy.plain
  have hss : ss ≠ [] := by
    rintro rfl
    exact hroot hbase
  -- a `..` can only stand at the front, and the front is in the source root
  have hupward : upward ∉ rest := by
    obtain ⟨s, ss, rfl⟩ := List.exists_cons_of_ne_nil hss
    exact fun hmem => htidy.upward (List.mem_append_right ss hmem)
  refine ⟨rest, hplain.2, hupward, hbelow, ?_, ?_⟩
  · rw [hcomponent, hbase, Path.components_written htidy.plain,
      Path.components_written hplain.1, Path.components_written hplain.2, List.map_append]
    simp
  · rw [Config.destination?, Path.remapRoot?, hbelow] at hdestination
    exact (Option.some.inj hdestination).symm

/-- The components of a destination: those of the output root, then those of the entry with the
suffix on the last one. -/
theorem Config.Names.destination_components {rest : List Path.Segment} (h : c.Names e rest) :
    e.destination.components = c.outputRoot.components ++
      (suffixed rest (Text.encode declarationSuffix)).map Path.Component.ofPlain := by
  obtain ⟨absolute, ss, htidy, hroot⟩ : Path.IsCanonical c.outputRoot :=
    Path.isCanonical_normalize c.output
  have hsuffixed := Path.plain_suffixed h.plain Path.isSuffix_declaration
  rw [h.destination, hroot, Path.join_appendSuffix_written htidy.plain h.plain,
    Path.components_written (List.forall_mem_append.2 ⟨htidy.plain, hsuffixed⟩),
    Path.components_written htidy.plain, List.map_append, List.append_assoc]

/-- Components of different paths have different destinations. -/
theorem Config.Names.eq_of_same {rest rest' : List Path.Segment} (h : c.Names e rest)
    (h' : c.Names e' rest') (hsame : e.destination.same e'.destination) : rest = rest' := by
  rw [Path.same_iff, h.destination_components, h'.destination_components] at hsame
  exact Path.suffixed_injective h.plain h'.plain
    (Path.map_ofPlain_injective (List.append_cancel_left hsame))

/-! ## Runs -/

/-- An entry keeps its place below the root: `relative` leads from the source root to its component
and, but for the suffix, from the output root to its destination. -/
structure Config.Places (c : Config) (e : Entry) (relative : Path) : Prop where
  below : e.component.below? c.sourceRoot = some relative
  component : e.component.components = c.sourceRoot.components ++ relative.components
  noParent : .parent ∉ relative.components
  destination : e.destination = (c.outputRoot.join relative).appendSuffix declarationSuffix
  /-- The destination lies in the output root. -/
  inside : ∃ names, e.destination.components = c.outputRoot.components ++ names ∧ .parent ∉ names

theorem Config.Names.places {rest : List Path.Segment} (h : c.Names e rest) :
    c.Places e (written false rest) := by
  have hnot : ∀ ss : List Path.Segment, upward ∉ ss →
      Path.Component.parent ∉ ss.map Path.Component.ofPlain := by
    intro ss hup hmem
    obtain ⟨s, hs, hparent⟩ := List.mem_map.1 hmem
    exact hup (Path.ofPlain_eq_parent_iff.1 hparent ▸ hs)
  refine ⟨h.below, h.component, ?_, h.destination, _, h.destination_components, ?_⟩
  · rw [Path.components_written h.plain]
    exact hnot rest h.noUpward
  · refine hnot _ fun hmem => ?_
    rcases Path.mem_suffixed h.plain Path.isSuffix_declaration hmem with hrest | ⟨-, hne⟩
    · exact h.noUpward hrest
    · exact hne rfl

/-- **Destinations stay in the output root and never collide.** Each is at the place in the output
root that its component has in the source root, whatever way imports have taken to it, and two
entries with one destination are one entry. -/
theorem destinations_of_generate (c : Config) (extensions : List String) (transformer : Transformer)
    (m : MemoryFiles) (cwd : Path) (t : Table) (hsource : c.source.isAbsolute)
    (hroot : c.sourceRoot ≠ Path.root)
    (hcomponent : c.isComponent = Config.endsInOneOf extensions)
    (hextensions : ∀ extension ∈ extensions, IsExtension extension)
    (habsolute : ∀ p ∈ c.components, p.isAbsolute)
    (h : (generate c transformer Emission.compile m.fileSystem cwd).result = .ok t) :
    (∀ k e, t.Holds k e → ∃ relative, c.Places e relative) ∧
      ∀ k e k' e', t.Holds k e → t.Holds k' e' → e.destination.same e'.destination →
        k = k' ∧ e = e' := by
  have hview : c.View m.fileSystem transformer t := view_of_generate habsolute h
  have hrooted : ∀ k e, t.Holds k e → IsRooted e.component := fun k e =>
    hview.isRooted_component hcomponent hextensions habsolute
  have hnames : ∀ k e, t.Holds k e → ∃ rest, c.Names e rest := fun k e he =>
    exists_names hsource hroot (hrooted k e he) (hview.admitted k e he).destination
  refine ⟨fun k e he => ?_, fun k e k' e' he he' hsame => ?_⟩
  · obtain ⟨rest, hrest⟩ := hnames k e he
    exact ⟨_, hrest.places⟩
  · obtain ⟨rest, hrest⟩ := hnames k e he
    obtain ⟨rest', hrest'⟩ := hnames k' e' he'
    -- components at one place are one component, and its key has one entry
    have heq : e.component.same e'.component := by
      rw [Path.same_iff, hrest.component, hrest'.component, hrest.eq_of_same hrest' hsame]
    have hkeys : k.same k' := by
      rw [(hview.admitted k e he).key, (hview.admitted k' e' he').key,
        (hrooted k e he).eq_of_same (hrooted k' e' he') heq]
      exact Path.same_refl _
    exact he.eq_of_same he' hkeys

/-- A component that imports another one from a directory above it. -/
def upwardFiles : MemoryFiles :=
  .ofList [(.ofString "/s/ui/A.svelte", "import '../../s/x//../B.svelte'"),
    (.ofString "/s/B.svelte", "")]

def upwardConfig : Config where
  components := [.ofString "/s/ui/A.svelte"]
  source := .ofString "/s"
  output := .ofString "/o"
  isComponent := Config.endsInOneOf [".svelte"]

/-- Both components keep their places, though one is reached through `..`. -/
theorem destinations_of_generate_upward :
    ∃ t b, (generate upwardConfig (fun text _ => .ok text) Emission.compile upwardFiles.fileSystem
        .root).result = .ok t ∧
      t.Holds (.ofString "/s/B.svelte.tsx") b ∧ ∃ relative, upwardConfig.Places b relative := by
  have hkeys : (generate upwardConfig (fun text _ => .ok text) Emission.compile
      upwardFiles.fileSystem .root).result.toOption.map Table.keys =
        some (["/s/B.svelte.tsx", "/s/ui/A.svelte.tsx"].map Path.ofString) := by decide +kernel
  obtain ⟨t, ht, hkeys⟩ := Option.map_eq_some_iff.1 hkeys
  have hresult := eq_ok_of_toOption ht
  obtain ⟨b, hb⟩ := Table.mem_keys_iff.1 (show .ofString "/s/B.svelte.tsx" ∈ t.keys by
    rw [hkeys]
    decide)
  have hextensions : ∀ extension ∈ [".svelte"], IsExtension extension := by
    intro extension hextension
    rw [List.mem_singleton.1 hextension]
    exact ⟨by decide, by decide, by decide⟩
  refine ⟨t, b, hresult, hb, ?_⟩
  exact (destinations_of_generate upwardConfig [".svelte"] _ upwardFiles .root t (by decide)
    (by decide) rfl hextensions (by decide) hresult).1 _ b hb

end SvelteTypings.Generation

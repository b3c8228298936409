import SvelteTypings.Proofs.Generation.Convergence
import SvelteTypings.Proofs.Generation.Progress
import SvelteTypings.Proofs.Path.Spelling

/-!
# Listing other components

A settled table without marks is told by the files that are reached, so a configuration has one such
table at most (`Config.Settled.eq`). Which files are reached does not change when the list of
components does, as long as whatever was listed and taken stays listed and whatever is listed now
was reached before: a component leaves the same entry whether it is listed or discovered. So
generation is a closure operator. Over any such list it returns the same table again
(`generate_relisted`).
-/

namespace SvelteTypings.Generation

open SvelteTypings.Path (IsRooted intermediateSuffix)
open Resolution (candidates importBase)

/-- The configuration with other components listed. -/
abbrev Config.over (c : Config) (listed : List Path) : Config := { c with components := listed }

variable {c c' : Config} {fs : FileSystem} {transformer : Transformer} {cwd base p q k : Path}
  {e e' : Entry} {t t' : Table} {listed ps : List Path} {m : MemoryFiles}

/-! ## What files depend on

All that is said of files without a table is said by way of `Shows`. -/

/-- The same intermediate files are there under both configurations. -/
def Config.ShowsAlike (c c' : Config) (fs : FileSystem) : Prop := ∀ p, c.Shows fs p ↔ c'.Shows fs p

theorem Config.ShowsAlike.symm (h : c.ShowsAlike c' fs) : c'.ShowsAlike c fs := fun p => (h p).symm

theorem Config.ShowsAlike.serves {text : String} (h : c.ShowsAlike c' fs)
    (hp : c.Serves fs transformer p text) : c'.Serves fs transformer p text := by
  cases hp with
  | intermediate hshows hsource => exact .intermediate ((h _).1 hshows) hsource
  | real hnot htext => exact .real (mt (h p).2 hnot) htext

theorem Config.ShowsAlike.stops_iff (h : c.ShowsAlike c' fs) :
    c.Stops fs base p ↔ c'.Stops fs base p := by
  have havailable : c.Available fs p ↔ c'.Available fs p := or_congr_left (h p)
  refine ⟨fun hp => ⟨hp.directory, havailable.1 hp.available⟩, fun hp => ?_⟩
  exact ⟨hp.directory, havailable.2 hp.available⟩

theorem Config.ShowsAlike.imports (h : c.ShowsAlike c' fs) (hp : c.Imports fs transformer p q) :
    c'.Imports fs transformer p q := by
  obtain ⟨text, specifier, hserves, hspecifier, hrelative, before, after, hps, hstops, hbefore⟩ := hp
  exact ⟨text, specifier, h.serves hserves, hspecifier, hrelative, before, after, hps,
    h.stops_iff.1 hstops, fun x hx => mt h.stops_iff.2 (hbefore x hx)⟩

theorem Config.ShowsAlike.asks (h : c.ShowsAlike c' fs) (hp : c.Asks fs transformer p q) :
    c'.Asks fs transformer p q := by
  obtain ⟨text, specifier, hserves, hspecifier, hrelative, before, after, hps, hindex, hbefore⟩ := hp
  exact ⟨text, specifier, h.serves hserves, hspecifier, hrelative, before, after, hps, hindex,
    fun x hx => mt h.stops_iff.2 (hbefore x hx)⟩

/-- If all that is listed is reached under the other configuration, then so is what it leads to. -/
theorem Config.ShowsAlike.reaches (h : c.ShowsAlike c' fs)
    (hlisted : ∀ k, c.Lists fs k → c'.Reaches fs transformer k)
    (hp : c.Reaches fs transformer p) : c'.Reaches fs transformer p := by
  induction hp with
  | listed hlists => exact hlisted _ hlists
  | imported _ himports ih => exact .imported ih (h.imports himports)

/-! ## Settled tables -/

theorem Config.Settled.mem_keys_iff (h : c.Settled fs transformer t) :
    k ∈ t.keys ↔ c.Reaches fs transformer k ∧ c.Shows fs k := by
  refine ⟨?_, ?_⟩
  · intro hk
    exact ⟨h.reached k hk, h.view.shows hk⟩
  · rintro ⟨hreached, hshows⟩
    exact h.complete k hreached hshows

/-- What is admitted under a key, and has an output of its own text, is settled but for the mark. -/
theorem Config.Admits.eq (h : c.Admits fs transformer k e) (h' : c.Admits fs transformer k e')
    (hwritten : c.Written k e) (hwritten' : c.Written k e') (hmark : e.discovered = e'.discovered) :
    e = e' := by
  have hcomponent : e.component = e'.component :=
    Path.appendSuffix_injective (h.key.symm.trans h'.key)
  have hdestination : e.destination = e'.destination := by
    rw [← Option.some.injEq, ← h.destination, ← h'.destination, hcomponent]
  -- both texts are made of the same component
  have hsource : e.source = e'.source := by
    have hsynthesized := synthesize_eq_ok_iff.2 h.source
    rw [hcomponent, synthesize_eq_ok_iff.2 h'.source] at hsynthesized
    exact (Except.ok.inj hsynthesized).symm
  have houtput : e.output = e'.output := by
    rw [hwritten, hwritten', hsource]
  obtain ⟨component, source, destination, output, discovered⟩ := e
  obtain ⟨component', source', destination', output', discovered'⟩ := e'
  cases hcomponent
  cases hsource
  cases hdestination
  cases houtput
  cases hmark
  rfl

/-- **There is one settled table at most**, apart from marks. -/
theorem Config.Settled.eq (h : c.Settled fs transformer t) (h' : c.Settled fs transformer t')
    (hmarks : ∀ k e, t.Holds k e → e.discovered = false)
    (hmarks' : ∀ k e, t'.Holds k e → e.discovered = false) : t = t' := by
  have hkeys : ∀ k, k ∈ t.keys ↔ k ∈ t'.keys := fun k => by rw [h.mem_keys_iff, h'.mem_keys_iff]
  have hentry : ∀ k e e', t.Holds k e → t'.Holds k e' → e = e' := by
    intro k e e' he he'
    refine (h.view.admitted k e he).eq (h'.view.admitted k e' he') (h.written k e he)
      (h'.written k e' he') ?_
    rw [hmarks k e he, hmarks' k e' he']
  have hentries : t.entries = t'.entries := by
    refine PathMap.eq_of_mem_iff fun ⟨k, e⟩ => ⟨?_, ?_⟩
    · intro he
      obtain ⟨e', he'⟩ := Table.mem_keys_iff.1 ((hkeys k).1 (Table.Holds.mem_keys he))
      rw [hentry k e e' he he']
      exact he'
    · intro he
      obtain ⟨e', he'⟩ := Table.mem_keys_iff.1 ((hkeys k).2 (Table.Holds.mem_keys he))
      rw [← hentry k e' e he' he]
      exact he'
  exact congrArg Table.mk hentries

/-! ## Another list -/

/-- Another list of components that leads to the same files: it keeps what was listed, and what it
adds was reached already. -/
structure Config.Relists (c : Config) (fs : FileSystem) (transformer : Transformer)
    (listed : List Path) : Prop where
  keeps : ∀ k, c.Lists fs k → (c.over listed).Lists fs k
  known : ∀ k, (c.over listed).Lists fs k → c.Shows fs k ∧ c.Reaches fs transformer k

theorem Config.Relists.showsAlike (h : c.Relists fs transformer listed) :
    c.ShowsAlike (c.over listed) fs := by
  -- what is discovered does not depend on the list
  have hdiscovers : ∀ component, c.Discovers fs component ↔ (c.over listed).Discovers fs component :=
    fun component => ⟨fun hd => ⟨hd.1, hd.2, hd.3, hd.4⟩, fun hd => ⟨hd.1, hd.2, hd.3, hd.4⟩⟩
  intro p
  refine ⟨?_, ?_⟩
  · rintro (hlists | ⟨component, rfl, hdiscover⟩)
    · exact Or.inl (h.keeps p hlists)
    · exact Or.inr ⟨component, rfl, (hdiscovers component).1 hdiscover⟩
  · rintro (hlists | ⟨component, rfl, hdiscover⟩)
    · exact (h.known p hlists).1
    · exact Or.inr ⟨component, rfl, (hdiscovers component).2 hdiscover⟩

theorem Config.Relists.reaches_iff (h : c.Relists fs transformer listed) :
    c.Reaches fs transformer p ↔ (c.over listed).Reaches fs transformer p := by
  refine ⟨h.showsAlike.reaches ?_, h.showsAlike.symm.reaches ?_⟩
  · exact fun k hlists => .listed (h.keeps k hlists)
  · exact fun k hlists => (h.known k hlists).2

theorem Config.Relists.answered (h : c.Relists fs transformer listed)
    (hanswered : c.Answered fs transformer) : (c.over listed).Answered fs transformer := by
  intro p hp q hq
  exact hanswered p (h.reaches_iff.2 hp) q (h.showsAlike.symm.asks hq)

/-- An entry that is admitted over the other list is admitted over this one, as its key shows. -/
theorem Config.Relists.admits (h : c.Relists fs transformer listed)
    (he : (c.over listed).Admits fs transformer k e) : c.Admits fs transformer k e := by
  refine ⟨he.key, he.noTyped, he.noIntermediate, he.noDeclaration, he.underSource, he.destination,
    he.source, ?_⟩
  rcases (h.showsAlike k).2 he.shows with ⟨p, hp, -, hkey⟩ | ⟨component, hkey, hdiscovers⟩
  · exact Or.inl ⟨p, hp, Path.appendSuffix_injective (he.key.symm.trans hkey)⟩
  · have hcomponent : e.component = component :=
      Path.appendSuffix_injective (he.key.symm.trans hkey)
    exact Or.inr (hcomponent ▸ ⟨hdiscovers.isFile, hdiscovers.isComponent⟩)

theorem Config.Relists.settled (h : c.Relists fs transformer listed)
    (ht : (c.over listed).Settled fs transformer t) : c.Settled fs transformer t where
  view := ⟨fun k e he => h.admits (ht.view.admitted k e he), ht.view.rooted,
    fun k hk => ht.view.listed k (h.keeps k hk)⟩
  written := ht.written
  reached k hk := h.reaches_iff.2 (ht.reached k hk)
  complete p hp hshows := ht.complete p (h.reaches_iff.1 hp) ((h.showsAlike p).1 hshows)

/-! ## Listed paths -/

/-- What ends in an extension is a name, and not `.` or `..`. -/
structure IsExtension (e : String) : Prop where
  dotted : e.toList.head? = some '.'
  within : '/' ∉ e.toList
  ends : e.toList.getLast? ≠ some '.'

theorem IsExtension.isRooted {extension : String} {component : Path} (h : IsExtension extension)
    (hends : Text.encode extension <:+ Text.encode component.display)
    (hkey : IsRooted (Table.keyFor component)) : IsRooted component := by
  refine Path.isRooted_of_isSuffix_display Path.isSuffix_intermediate hkey
    (Path.separator_not_mem_encode h.within) ?_ ?_ hends
  · intro hnil
    have hdot : Path.dot ∈ Text.encode extension :=
      (Text.mem_encode_ascii_iff (by decide)).2 ⟨'.', List.mem_of_head? h.dotted, by decide⟩
    rw [hnil] at hdot
    exact absurd hdot List.not_mem_nil
  · intro hlast
    obtain ⟨char, hchar, hvalue⟩ := Text.getLast?_toList_of_encode (by decide) hlast
    have hdot : char = '.' := Char.toNat_inj.1 hvalue
    exact h.ends (hdot ▸ hchar)

/-- The components of a table are rooted: those that are listed are normalised, and those that are
discovered end in an extension. -/
theorem Config.View.isRooted_component {extensions : List String}
    (hcomponent : c.isComponent = Config.endsInOneOf extensions)
    (hextensions : ∀ extension ∈ extensions, IsExtension extension)
    (habsolute : ∀ p ∈ c.components, p.isAbsolute) (ht : c.View fs transformer t)
    (he : t.Holds k e) : IsRooted e.component := by
  have hadmits := ht.admitted k e he
  rcases hadmits.origin with ⟨p, hp, hlisted⟩ | ⟨-, hkind⟩
  · rw [hlisted]
    exact Path.isRooted_normalize (habsolute p hp)
  · rw [hcomponent] at hkind
    obtain ⟨extension, hmem, hends⟩ := List.any_eq_true.1 hkind
    have hkey : IsRooted (Table.keyFor e.component) := by
      have hrooted := ht.rooted k he.mem_keys
      rw [hadmits.key] at hrooted
      exact hrooted
    exact (hextensions extension hmem).isRooted (List.isSuffixOf_iff_suffix.1 hends) hkey

/-- The initial table is made if every listed component gets an entry. -/
theorem exists_initialTable (cwd : Path) (h : ∀ p ∈ listed, ∃ e, c.Enters fs transformer p e)
    (t : Table) :
    ∃ t', (initialTable c transformer fs cwd listed t).1 = .ok t' := by
  induction listed generalizing t with
  | nil => exact ⟨t, rfl⟩
  | cons p listed ih =>
    obtain ⟨⟨e, he⟩, hlisted⟩ := List.forall_mem_cons.1 h
    have hdestination := he.destination
    have hsource := he.source
    rw [he.component] at hdestination hsource
    simp only [initialTable, he.takes.mayType, hdestination, hsource]
    exact ih hlisted _

/-! ## Runs -/

/-- With two passes to spare, no entry is marked at the end. -/
theorem discovered_eq_false_of_generate (habsolute : ∀ p ∈ c.components, p.isAbsolute)
    (hmax : 2 ≤ c.maxPasses)
    (h : (generate c transformer Emission.compile m.fileSystem cwd).result = .ok t)
    (he : t.Holds k e) : e.discovered = false := by
  obtain ⟨initial, hinitial, ⟨report, hreport⟩, rfl⟩ := exists_initial_of_generate h
  have hconverges := converges_of_run (fresh_initialTable habsolute hinitial) hreport
  exact (hconverges.fixedPoint hmax).2 k e he

/-- A run over files in memory succeeds if its initial table is made and all questions are answered.
-/
theorem exists_generate (cwd : Path) (habsolute : ∀ p ∈ c.components, p.isAbsolute)
    (hanswered : c.Answered m.fileSystem transformer)
    (hlisted : ∀ p ∈ c.components, ∃ e, c.Enters m.fileSystem transformer p e) :
    ∃ t, (generate c transformer Emission.compile m.fileSystem cwd).result = .ok t := by
  obtain ⟨initial, hinitial⟩ := exists_initialTable cwd hlisted .empty
  obtain ⟨report, hreport⟩ :=
    exists_report_of_run cwd c.maxPasses (fresh_initialTable habsolute hinitial) hanswered
  simp only [generate, hinitial, hreport]
  exact ⟨_, rfl⟩

/-- The component of an entry can be listed in any spelling. -/
theorem Config.View.exists_enters (ht : c.View fs transformer t) (he : t.Holds k e)
    (hq : q.normalize = e.component) : ∃ e', (c.over listed).Enters fs transformer q e' := by
  have hadmits := ht.admitted k e he
  have hguard : mayType fs e.component = .ok true :=
    mayType_eq_ok_true_iff.2 ⟨hadmits.noTyped, hadmits.noIntermediate, hadmits.noDeclaration⟩
  refine ⟨{ e with output := none }, hq.symm, ⟨?_, ?_⟩, hadmits.destination,
    synthesize_eq_ok_iff.2 hadmits.source, rfl⟩
  · rw [hq]
    exact hguard
  · rw [hq]
    exact hadmits.underSource

/-- A list of components of a settled table leads to the same files if it covers what was listed. -/
theorem Config.Settled.relists (h : c.Settled fs transformer t)
    (hcovers : ∀ p ∈ c.components, c.Takes fs p → ∃ q ∈ listed, q.normalize = p.normalize)
    (hknown : ∀ q ∈ listed, ∃ k e, t.Holds k e ∧ q.normalize = e.component) :
    c.Relists fs transformer listed := by
  refine ⟨?_, ?_⟩
  · rintro k ⟨p, hp, htakes, rfl⟩
    obtain ⟨q, hq, heq⟩ := hcovers p hp htakes
    exact ⟨q, hq, ⟨heq ▸ htakes.mayType, heq ▸ htakes.underSource⟩, by rw [heq]⟩
  · rintro k ⟨q, hq, -, rfl⟩
    obtain ⟨k, e, he, heq⟩ := hknown q hq
    have hkey : k = Table.keyFor q.normalize := by
      rw [heq]
      exact (h.view.admitted k e he).key
    rw [← hkey]
    exact (h.mem_keys_iff.1 he.mem_keys).symm

/-- **Generation is a closure operator.** Any list of components of the table that covers what was
listed gives the table again, in whatever order, spelling and number they are listed. -/
theorem generate_relisted (c : Config) (extensions : List String) (transformer : Transformer)
    (m : MemoryFiles) (cwd : Path) (t : Table) (listed : List Path)
    (hcomponent : c.isComponent = Config.endsInOneOf extensions)
    (hextensions : ∀ extension ∈ extensions, IsExtension extension)
    (habsolute : ∀ p ∈ c.components, p.isAbsolute) (hmax : 2 ≤ c.maxPasses)
    (h : (generate c transformer Emission.compile m.fileSystem cwd).result = .ok t)
    (hcovers : ∀ p ∈ c.components, c.Takes m.fileSystem p →
      ∃ q ∈ listed, q.normalize.same p.normalize)
    (hknown : ∀ q ∈ listed, ∃ k e, t.Holds k e ∧ q.normalize.same e.component) :
    (generate { c with components := listed } transformer Emission.compile m.fileSystem cwd).result =
      .ok t := by
  have hone : 1 ≤ c.maxPasses := Nat.le_of_succ_le hmax
  have hsettled := settled_of_generate habsolute hone h
  have hrooted : ∀ k e, t.Holds k e → IsRooted e.component := fun k e =>
    hsettled.view.isRooted_component hcomponent hextensions habsolute
  -- both sides are spelled canonically, so equal paths are equal bytes
  have hknown' : ∀ q ∈ listed, ∃ k e, t.Holds k e ∧ q.normalize = e.component := by
    intro q hq
    obtain ⟨k, e, he, hsame⟩ := hknown q hq
    exact ⟨k, e, he, (Path.isCanonical_normalize q).eq_of_same (hrooted k e he).canonical hsame⟩
  have hcovers' : ∀ p ∈ c.components, c.Takes m.fileSystem p →
      ∃ q ∈ listed, q.normalize = p.normalize := by
    intro p hp htakes
    obtain ⟨q, hq, hsame⟩ := hcovers p hp htakes
    exact ⟨q, hq, (Path.isCanonical_normalize q).eq_of_same (Path.isCanonical_normalize p) hsame⟩
  have habsolute' : ∀ q ∈ listed, q.isAbsolute := by
    intro q hq
    obtain ⟨k, e, he, heq⟩ := hknown' q hq
    rw [← Path.isAbsolute_normalize, heq]
    exact (hrooted k e he).absolute
  have henters : ∀ q ∈ listed, ∃ e, (c.over listed).Enters m.fileSystem transformer q e := by
    intro q hq
    obtain ⟨k, e, he, heq⟩ := hknown' q hq
    exact hsettled.view.exists_enters he heq
  -- the run over the other list succeeds, and its table is settled here as well
  have hrelists := hsettled.relists hcovers' hknown'
  obtain ⟨t', ht'⟩ := exists_generate (c := c.over listed) cwd habsolute'
    (hrelists.answered (answered_of_generate habsolute hone h)) henters
  have hsettled' := hrelists.settled (settled_of_generate habsolute' hone ht')
  have heq : t' = t := hsettled'.eq hsettled
    (fun k e => discovered_eq_false_of_generate (c := c.over listed) habsolute' hmax ht')
    (fun k e => discovered_eq_false_of_generate habsolute hmax h)
  rw [← heq]
  exact ht'

/-- The component that was discovered is listed now, and the one that was listed is listed twice. -/
def pairRelisted : List Path :=
  ["/s/./B.svelte", "/s/A.svelte", "/s/x/../A.svelte/"].map Path.ofString

/-- All of the pair is returned again, though another component is listed first. -/
theorem generate_relisted_pair :
    ∃ t, pair.result = .ok t ∧ t.keys = pairKeys ∧
      (generate { pairConfig with components := pairRelisted } (fun text _ => .ok text)
        Emission.compile pairFiles.fileSystem .root).result = .ok t := by
  obtain ⟨t, ht, hkeys⟩ := exists_pair
  have hadmitted := (settled_of_generate (c := pairConfig) (by decide) (by decide) ht).view.admitted
  -- a listed path is that of the component whose key it is without the suffix
  have hknown : ∀ q ∈ pairRelisted, ∃ k e, t.Holds k e ∧ q.normalize.same e.component := by
    intro q hq
    have hkey : Table.keyFor q.normalize ∈ t.keys := by
      rw [hkeys]
      revert q
      decide
    obtain ⟨e, he⟩ := Table.mem_keys_iff.1 hkey
    have hcomponent : q.normalize = e.component :=
      Path.appendSuffix_injective (hadmitted _ e he).key
    exact ⟨_, e, he, hcomponent ▸ Path.same_refl _⟩
  have hcovers : ∀ p ∈ pairConfig.components,
      ∃ q ∈ pairRelisted, q.normalize.same p.normalize := by decide
  refine ⟨t, ht, hkeys, ?_⟩
  refine generate_relisted pairConfig [".svelte"] _ pairFiles .root t pairRelisted rfl ?_ (by decide)
    (by decide) ht (fun p hp _ => hcovers p hp) hknown
  intro extension hextension
  rw [List.mem_singleton.1 hextension]
  exact ⟨by decide, by decide, by decide⟩

end SvelteTypings.Generation

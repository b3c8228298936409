import SvelteTypings.Proofs.Generation.History
import SvelteTypings.Proofs.Generation.Listing

/-!
# Admission

An entry gets into the table by being listed or by being discovered. The two ways check the same
things in different orders and on different spellings; what they have in common is `Config.Admits`,
and an entry that was admitted stays admitted, since nothing but its output and its mark ever
changes (`Entry.Becomes`). The invariant is kept by every event of a run, so it holds at every state
of it, whatever the compiler asks and writes.
-/

namespace SvelteTypings.Generation

open SvelteTypings.Path (typedSuffix intermediateSuffix declarationSuffix)

/-! ## The invariant -/

/-- What the table may hold under a key. -/
structure Config.Admits (c : Config) (fs : FileSystem) (transformer : Transformer) (key : Path)
    (e : Entry) : Prop where
  /-- The key is the path of the component with the suffix after it, byte for byte. -/
  key : key = e.component.appendSuffix intermediateSuffix
  noTyped : fs.present (e.component.appendSuffix typedSuffix) = false
  noIntermediate : fs.present (e.component.appendSuffix intermediateSuffix) = false
  noDeclaration : fs.present (e.component.appendSuffix declarationSuffix) = false
  underSource : c.isUnderSource e.component
  destination : c.destination? e.component = some e.destination
  source : ∃ text transformed, fs.read e.component = .ok text ∧
    transformer text e.component = .ok transformed ∧ e.source = directiveText ++ transformed
  /-- The component is listed, or it is a real file of the right kind. -/
  origin : (∃ listed ∈ c.components, e.component = listed.normalize) ∨
    (fs.isFile e.component ∧ c.isComponent e.component)

/-- Every entry of the table is admitted. -/
def Config.Admitted (c : Config) (fs : FileSystem) (transformer : Transformer) (t : Table) : Prop :=
  ∀ k e, t.Holds k e → c.Admits fs transformer k e

/-- What an event may make of an entry. -/
structure Entry.Becomes (e : Entry) (event : Event) (e' : Entry) : Prop where
  same : e' = { e with output := e'.output, discovered := e'.discovered }
  output : e'.output = e.output ∨ ∃ p text, event = .called (.save p text) ∧
    p.same (e.component.appendSuffix declarationSuffix) ∧ e'.output = some text
  discovered : e'.discovered = e.discovered ∨ (event = .passBegins ∧ e'.discovered = false)

variable {c : Config} {fs : FileSystem} {transformer : Transformer} {compiler : Compiler}
  {cwd p k : Path} {e e' : Entry} {t : Table}

theorem Entry.becomes_self (e : Entry) (event : Event) : e.Becomes event e :=
  ⟨rfl, Or.inl rfl, Or.inl rfl⟩

/-- The output and the mark do not matter for admission. -/
theorem Config.Admits.of_same (h : c.Admits fs transformer k e)
    (hsame : e' = { e with output := e'.output, discovered := e'.discovered }) :
    c.Admits fs transformer k e' := by
  rw [hsame]
  exact ⟨h.key, h.noTyped, h.noIntermediate, h.noDeclaration, h.underSource, h.destination, h.source,
    h.origin⟩

/-! ## The two ways in -/

theorem Config.Enters.admits {listed : Path} (h : c.Enters fs transformer listed e)
    (hlisted : listed ∈ c.components) : c.Admits fs transformer (Table.keyFor e.component) e := by
  have hguard : mayType fs e.component = .ok true := by
    rw [h.component]
    exact h.takes.mayType
  obtain ⟨htyped, hintermediate, hdeclaration⟩ := mayType_eq_ok_true_iff.1 hguard
  exact ⟨rfl, htyped, hintermediate, hdeclaration, isUnderSource_of_destination? h.destination,
    h.destination, synthesize_eq_ok_iff.1 h.source, Or.inl ⟨listed, hlisted, h.component⟩⟩

theorem Config.Finds.admits (h : c.Finds fs transformer p e) :
    c.Admits fs transformer (Table.keyFor e.component) { e with discovered := true } := by
  obtain ⟨htyped, hintermediate, hdeclaration⟩ := mayType_eq_ok_true_iff.1 h.mayType
  exact ⟨rfl, htyped, hintermediate, hdeclaration, isUnderSource_of_destination? h.destination,
    h.destination, synthesize_eq_ok_iff.1 h.source, Or.inr ⟨h.isFile, h.isComponent⟩⟩

theorem Config.Listed.admitted {listed : List Path} (h : c.Listed fs transformer listed t)
    (hlisted : ∀ p ∈ listed, p ∈ c.components) : c.Admitted fs transformer t := by
  intro k e hk
  obtain ⟨rfl, p, hp, henters⟩ := h.entry k e hk
  exact henters.admits (hlisted p hp)

/-! ## Events -/

theorem Config.Admitted.insertDiscovered (h : c.Admitted fs transformer t)
    (hnew : ¬ t.contains p) (he : c.Finds fs transformer p e) :
    c.Admitted fs transformer (t.insertDiscovered e) := by
  have hkey : ¬ t.contains (Table.keyFor e.component) := he.key ▸ hnew
  intro k x hx
  rcases (Table.holds_insertDiscovered_iff hkey).1 hx with ⟨rfl, rfl⟩ | hx
  · exact he.admits
  · exact h k x hx

theorem Config.Admitted.capture (h : c.Admitted fs transformer t) (p : Path) (text : String) :
    c.Admitted fs transformer (t.capture p text) := by
  intro k x hx
  obtain ⟨e, he, rfl⟩ := Table.holds_capture_iff.1 hx
  refine (h k e he).of_same ?_
  split <;> rfl

theorem Config.Admitted.clearDiscovered (h : c.Admitted fs transformer t) :
    c.Admitted fs transformer t.clearDiscovered := by
  intro k x hx
  obtain ⟨e, he, rfl⟩ := Table.holds_clearDiscovered_iff.1 hx
  exact (h k e he).of_same rfl

/-- Every event keeps the table admitted. -/
theorem Config.Admitted.after (h : c.Admitted fs transformer t) (event : Event) :
    c.Admitted fs transformer ((c.setting transformer compiler fs cwd).after t event) := by
  cases event with
  | passBegins => exact h.clearDiscovered
  | called call =>
    cases call with
    | save p text => exact h.capture p text
    | fileExists p =>
      show c.Admitted fs transformer (overlayExists (discoverComponent c fs transformer) fs t p).2
      rcases overlayExists_cases (discoverComponent c fs transformer) fs t p with
        heq | ⟨e, hnew, hfound, heq⟩
      · rw [heq]
        exact h
      · rw [heq]
        exact h.insertDiscovered hnew (finds_of_discoverComponent hfound)

/-- No event removes an entry or puts another one in its place. -/
theorem Config.Admitted.becomes (h : c.Admitted fs transformer t) (hk : t.Holds k e)
    (event : Event) :
    ∃ e', ((c.setting transformer compiler fs cwd).after t event).Holds k e' ∧
      e.Becomes event e' := by
  cases event with
  | passBegins =>
    refine ⟨{ e with discovered := false }, Table.holds_clearDiscovered_iff.2 ⟨e, hk, rfl⟩, ?_⟩
    exact ⟨rfl, Or.inl rfl, Or.inr ⟨rfl, rfl⟩⟩
  | called call =>
    cases call with
    | save p text =>
      by_cases howns : t.Owns k p
      · -- the one case in which the output changes
        have hp : p.same (e.component.appendSuffix declarationSuffix) :=
          howns.same_declaration hk (h k e hk).key
        refine ⟨{ e with output := some text },
          Table.holds_capture_iff.2 ⟨e, hk, by rw [if_pos howns]⟩, ?_⟩
        exact ⟨rfl, Or.inr ⟨p, text, rfl, hp, rfl⟩, Or.inl rfl⟩
      · exact ⟨e, Table.holds_capture_iff.2 ⟨e, hk, by rw [if_neg howns]⟩, e.becomes_self _⟩
    | fileExists p =>
      refine ⟨e, ?_, e.becomes_self _⟩
      show (overlayExists (discoverComponent c fs transformer) fs t p).2.Holds k e
      rcases overlayExists_cases (discoverComponent c fs transformer) fs t p with
        heq | ⟨found, hnew, hfound, heq⟩
      · rw [heq]
        exact hk
      · have hkey : ¬ t.contains (Table.keyFor found.component) :=
          (finds_of_discoverComponent hfound).key ▸ hnew
        rw [heq]
        exact (Table.holds_insertDiscovered_iff hkey).2 (Or.inr hk)

/-! ## Runs -/

/-- The passes that a run for a configuration makes over a table. -/
def Config.run (c : Config) (transformer : Transformer) (compiler : Compiler) (fs : FileSystem)
    (cwd : Path) (t : Table) : Run :=
  (c.setting transformer compiler fs cwd).run c.maxPasses t

/-- All that happens to the table of a run, once it holds the listed components. -/
def Config.history (c : Config) (transformer : Transformer) (compiler : Compiler) (fs : FileSystem)
    (cwd : Path) (t : Table) : List (Moment Event Table) :=
  (c.setting transformer compiler fs cwd).history t (c.run transformer compiler fs cwd t).passes

/-- The admission invariant at every state of a run for a configuration. -/
structure Config.AdmitsThroughout (c : Config) (transformer : Transformer) (compiler : Compiler)
    (fs : FileSystem) (cwd : Path) : Prop where
  /-- While the listed components are gone through, every table in between is admitted, and the rest
  is gone through with it. -/
  listing : ∀ before rest t, before ++ rest = c.components →
    (initialTable c transformer fs cwd before .empty).1 = .ok t → c.Admitted fs transformer t ∧
      (initialTable c transformer fs cwd c.components .empty).1 =
        (initialTable c transformer fs cwd rest t).1
  /-- The history leads from the initial table to the last one, so it shows every state. -/
  complete : ∀ t, (initialTable c transformer fs cwd c.components .empty).1 = .ok t →
    Linked t (c.history transformer compiler fs cwd t) (c.run transformer compiler fs cwd t).table
  /-- The tables of the history are admitted. -/
  moments : ∀ t, (initialTable c transformer fs cwd c.components .empty).1 = .ok t →
    ∀ m ∈ c.history transformer compiler fs cwd t,
      c.Admitted fs transformer m.before ∧ c.Admitted fs transformer m.after
  /-- Each event keeps each entry, but for a mark and what is written for it. -/
  becomes : ∀ t, (initialTable c transformer fs cwd c.components .empty).1 = .ok t →
    ∀ m ∈ c.history transformer compiler fs cwd t, ∀ k e, m.before.Holds k e →
      ∃ e', m.after.Holds k e' ∧ e.Becomes m.event e'
  /-- What is in the table at some time is there at the end. -/
  lasting : ∀ t, (initialTable c transformer fs cwd c.components .empty).1 = .ok t →
    ∀ m ∈ c.history transformer compiler fs cwd t, ∀ k e, m.after.Holds k e →
      ∃ e', (c.run transformer compiler fs cwd t).table.Holds k e' ∧
        e' = { e with output := e'.output, discovered := e'.discovered }
  /-- The table that is returned is the last one, and admitted. -/
  returned : ∀ t, (generate c transformer compiler fs cwd).result = .ok t →
    c.Admitted fs transformer t ∧
      ∃ initial, (initialTable c transformer fs cwd c.components .empty).1 = .ok initial ∧
        t = (c.run transformer compiler fs cwd initial).table

/-- A run that returns a table has begun with an initial table and returns what its passes leave. -/
theorem exists_initial_of_generate (h : (generate c transformer compiler fs cwd).result = .ok t) :
    ∃ initial, (initialTable c transformer fs cwd c.components .empty).1 = .ok initial ∧
      (∃ report, (c.run transformer compiler fs cwd initial).result = .ok report) ∧
        t = (c.run transformer compiler fs cwd initial).table := by
  simp only [generate] at h
  cases hinitial : (initialTable c transformer fs cwd c.components .empty).1 with
  | error e => simp [hinitial] at h
  | ok initial =>
    simp only [hinitial] at h
    refine ⟨initial, rfl, ?_⟩
    cases hresult : ((c.setting transformer compiler fs cwd).run c.maxPasses initial).result with
    | error e => simp [hresult] at h
    | ok report =>
      simp only [hresult, Except.ok.injEq] at h
      exact ⟨⟨report, hresult⟩, h.symm⟩

/-- **Entries are admitted at every state of a run.** Whatever the configuration, the files, the
transformer and the compiler are, an entry of the table has passed all checks, and from then on only
a write to its declaration file changes it, and of it only the output. -/
theorem generate_admits (c : Config) (transformer : Transformer) (compiler : Compiler)
    (fs : FileSystem) (cwd : Path) : c.AdmitsThroughout transformer compiler fs cwd := by
  have hlisting : ∀ before rest t, before ++ rest = c.components →
      (initialTable c transformer fs cwd before .empty).1 = .ok t → c.Admitted fs transformer t := by
    intro before rest t hbefore ht
    refine (listed_initialTable listed_empty ht).admitted fun p hp => ?_
    exact hbefore ▸ List.mem_append_left rest hp
  have hafter : ∀ t, ∀ m ∈ c.history transformer compiler fs cwd t,
      m.after = (c.setting transformer compiler fs cwd).after m.before m.event :=
    fun t => after_of_mem_history _ t
  have hlinked : ∀ t, Linked t (c.history transformer compiler fs cwd t)
      (c.run transformer compiler fs cwd t).table := fun t => linked_history _ c.maxPasses t
  have hrun : ∀ t, (initialTable c transformer fs cwd c.components .empty).1 = .ok t →
      (∀ m ∈ c.history transformer compiler fs cwd t,
        c.Admitted fs transformer m.before ∧ c.Admitted fs transformer m.after) ∧
        c.Admitted fs transformer (c.run transformer compiler fs cwd t).table := by
    intro t ht
    refine (hlinked t).invariant (hlisting c.components [] t (List.append_nil _) ht) ?_
    intro m hm hbefore
    rw [hafter t m hm]
    exact hbefore.after m.event
  have hbecomes : ∀ t, (initialTable c transformer fs cwd c.components .empty).1 = .ok t →
      ∀ m ∈ c.history transformer compiler fs cwd t, ∀ k e, m.before.Holds k e →
        ∃ e', m.after.Holds k e' ∧ e.Becomes m.event e' := by
    intro t ht m hm k e hk
    rw [hafter t m hm]
    exact ((hrun t ht).1 m hm).1.becomes hk m.event
  refine ⟨?_, fun t _ => hlinked t, fun t ht => (hrun t ht).1, hbecomes, ?_, ?_⟩
  · intro before rest t hbefore ht
    refine ⟨hlisting before rest t hbefore ht, ?_⟩
    rw [← hbefore, initialTable_append, ht]
    rfl
  · -- each later event changes the output and the mark at most, so all of them together do
    intro t ht m hm k e hk
    refine (hlinked t).from_moment (P := fun t => ∃ e', t.Holds k e' ∧
      e' = { e with output := e'.output, discovered := e'.discovered }) ?_ m hm ⟨e, hk, rfl⟩
    rintro m' hm' ⟨e₁, hk₁, hsame₁⟩
    obtain ⟨e₂, hk₂, hevent⟩ := hbecomes t ht m' hm' k e₁ hk₁
    refine ⟨e₂, hk₂, ?_⟩
    rw [hevent.same, hsame₁]
  · intro t ht
    obtain ⟨initial, hinitial, -, rfl⟩ := exists_initial_of_generate ht
    exact ⟨(hrun initial hinitial).2, initial, hinitial, rfl⟩

/-- A run of three passes over three components, of which one is listed. -/
theorem generate_admits_longer :
    ∃ t, (generate longerConfig (fun text _ => .ok text) askLonger longerFiles .root).result = .ok t ∧
      t.keys = ["/s/x.tsx", "/s/xx.tsx", "/s/xxx.tsx"].map Path.ofString ∧
        longerConfig.Admitted longerFiles (fun text _ => .ok text) t := by
  have hkeys : (generate longerConfig (fun text _ => .ok text) askLonger longerFiles
      .root).result.toOption.map Table.keys =
        some (["/s/x.tsx", "/s/xx.tsx", "/s/xxx.tsx"].map Path.ofString) := by decide
  obtain ⟨t, ht, hkeys⟩ := Option.map_eq_some_iff.1 hkeys
  have hresult := eq_ok_of_toOption ht
  exact ⟨t, hresult, hkeys, ((generate_admits _ _ _ _ _).returned t hresult).1⟩

end SvelteTypings.Generation

import SvelteTypings.Generation.Overlay
import SvelteTypings.Proofs.Generation.Table
import SvelteTypings.Proofs.Compiler.Session

/-!
# What a question to the overlay does

A question whether a file exists either leaves the table alone or adds one entry, under the very
path that was asked for and that the table did not know (`overlayExists_cases`). Together with
writes, which change outputs only, these are all the ways in which a compiler can change the table.
-/

namespace SvelteTypings.Generation

open SvelteTypings.Path (intermediateSuffix)

variable {c : Config} {fs : FileSystem} {transformer : Transformer} {d : Discovery} {t t' : Table}
  {p cwd : Path}

/-! ## Discovery -/

/-- Everything that discovery has checked when it gives an entry. -/
structure Config.Finds (c : Config) (fs : FileSystem) (transformer : Transformer) (p : Path)
    (e : Entry) : Prop where
  key : p = Table.keyFor e.component
  isFile : fs.isFile e.component
  isComponent : c.isComponent e.component
  mayType : mayType fs e.component = .ok true
  underSource : c.isUnderSource p
  destination : c.destination? e.component = some e.destination
  source : synthesize fs transformer e.component = .ok e.source
  output : e.output = none

theorem finds_of_discoverComponent {e : Entry}
    (h : discoverComponent c fs transformer p = .ok (some e)) :
    c.Finds fs transformer p e := by
  rw [discoverComponent] at h
  cases hstrip : p.stripSuffix? intermediateSuffix with
  | none => simp [hstrip] at h
  | some component =>
    rw [hstrip] at h
    simp only at h
    -- the checks are gone through in the order in which they are made
    split at h
    · exact absurd h (by simp)
    · next hkind =>
      simp only [Bool.or_eq_true, Bool.not_eq_true', not_or, Bool.not_eq_false] at hkind
      cases hguard : mayType fs component with
      | error e => simp [hguard] at h
      | ok b =>
        cases b with
        | false => simp [hguard] at h
        | true =>
          simp only [hguard] at h
          split at h
          · exact absurd h (by simp)
          · next hunder =>
            cases hdestination : c.destination? component with
            | none => simp [hdestination] at h
            | some destination =>
              simp only [hdestination] at h
              cases hsource : synthesize fs transformer component with
              | error e => simp [hsource] at h
              | ok source =>
                simp only [hsource, Except.ok.injEq, Option.some.injEq] at h
                subst h
                exact ⟨(Path.stripSuffix?_eq_some_iff _ _ _).1 hstrip, hkind.1, hkind.2, hguard,
                  by simpa using hunder, hdestination, hsource, rfl⟩

/-- Where all the checks are passed, discovery gives an entry. -/
theorem discoverComponent_of_finds {e : Entry} (h : c.Finds fs transformer p e) :
    discoverComponent c fs transformer p =
      .ok (some { component := e.component, source := e.source, destination := e.destination }) := by
  have hstrip : p.stripSuffix? intermediateSuffix = some e.component :=
    (Path.stripSuffix?_eq_some_iff _ _ _).2 h.key
  rw [discoverComponent, hstrip]
  simp [h.isFile, h.isComponent, h.mayType, h.underSource, h.destination, h.source]

/-- Discovery does not pass over a component that meets all its conditions. -/
theorem discoverComponent_ne_none {component : Path} (hfile : fs.isFile component)
    (hcomponent : c.isComponent component) (hguard : mayType fs component = .ok true)
    (hunder : c.isUnderSource (Table.keyFor component))
    (hdestination : c.destination? component ≠ none) :
    discoverComponent c fs transformer (Table.keyFor component) ≠ .ok none := by
  obtain ⟨destination, hdestination⟩ := Option.ne_none_iff_exists'.1 hdestination
  have hstrip : (Table.keyFor component).stripSuffix? intermediateSuffix = some component :=
    Path.stripSuffix?_appendSuffix component intermediateSuffix
  rw [discoverComponent, hstrip]
  simp only [hfile, hcomponent, hguard, hunder, hdestination]
  cases synthesize fs transformer component <;> simp

/-- Only the guard and the synthesis can make discovery fail. -/
theorem exists_ok_of_discoverComponent {component : Path} {source : String} {b : Bool}
    (hguard : mayType fs component = .ok b)
    (hsource : synthesize fs transformer component = .ok source) :
    ∃ found, discoverComponent c fs transformer (Table.keyFor component) = .ok found := by
  have hstrip : (Table.keyFor component).stripSuffix? intermediateSuffix = some component :=
    Path.stripSuffix?_appendSuffix component intermediateSuffix
  rw [discoverComponent, hstrip]
  simp only [hguard, hsource]
  split
  · exact ⟨none, rfl⟩
  · cases b with
    | false => exact ⟨none, rfl⟩
    | true =>
      simp only
      split
      · exact ⟨none, rfl⟩
      · cases c.destination? component with
        | none => exact ⟨none, rfl⟩
        | some destination => exact ⟨_, rfl⟩

/-- What is discovered behind a path gets that path as its key. -/
def Discovery.Keyed (d : Discovery) : Prop :=
  ∀ p e, d p = .ok (some e) → Table.keyFor e.component = p

theorem keyed_noDiscovery : noDiscovery.Keyed := by
  intro p e h
  exact absurd h (by simp [noDiscovery])

theorem keyed_discoverComponent (c : Config) (fs : FileSystem) (transformer : Transformer) :
    (discoverComponent c fs transformer).Keyed :=
  fun _ _ h => (finds_of_discoverComponent h).key.symm

/-! ## Questions -/

/-- The four ways in which a question can go. -/
inductive Asked (d : Discovery) (fs : FileSystem) (t : Table) (p : Path) :
    Except Failure Bool → Table → Prop where
  | known (h : t.contains p) : Asked d fs t p (.ok true) t
  | failed (h : ¬ t.contains p) (e : Failure) (hd : d p = .error e) : Asked d fs t p (.error e) t
  | nothing (h : ¬ t.contains p) (hd : d p = .ok none) : Asked d fs t p (.ok (fs.isFile p)) t
  | found (h : ¬ t.contains p) (e : Entry) (hd : d p = .ok (some e)) :
    Asked d fs t p (.ok ((t.insertDiscovered e).contains p || fs.isFile p)) (t.insertDiscovered e)

theorem asked_overlayExists (d : Discovery) (fs : FileSystem) (t : Table) (p : Path) :
    Asked d fs t p (overlayExists d fs t p).1 (overlayExists d fs t p).2 := by
  rw [overlayExists]
  split
  · next h => exact .known h
  · next h =>
    split
    · next e hd => exact .failed h e hd
    · next hd => exact .nothing h hd
    · next e hd => exact .found h e hd

/-- A question leaves the table or adds what discovery finds behind an unknown path. -/
theorem overlayExists_cases (d : Discovery) (fs : FileSystem) (t : Table) (p : Path) :
    (overlayExists d fs t p).2 = t ∨
      ∃ e, ¬ t.contains p ∧ d p = .ok (some e) ∧
        (overlayExists d fs t p).2 = t.insertDiscovered e := by
  generalize hanswer : (overlayExists d fs t p).1 = answer
  generalize htable : (overlayExists d fs t p).2 = t'
  have hasked := asked_overlayExists d fs t p
  rw [hanswer, htable] at hasked
  cases hasked with
  | known h => exact Or.inl rfl
  | failed h e hd => exact Or.inl rfl
  | nothing h hd => exact Or.inl rfl
  | found h e hd => exact Or.inr ⟨e, h, hd, rfl⟩

/-- A path that the table knows is there, and so is one that discovery finds something behind. -/
theorem overlayExists_fst (hd : d.Keyed) : (overlayExists d fs t p).1 =
    if t.contains p then .ok true
    else (d p).map fun found => found.isSome || fs.isFile p := by
  rw [overlayExists]
  split
  · rfl
  · next hnew =>
    cases hfound : d p with
    | error e => rfl
    | ok found =>
      cases found with
      | none => rfl
      | some e =>
        have hkey := hd p e hfound
        have hcontains : (t.insertDiscovered e).contains p :=
          Table.contains_of_mem_keys
            ((Table.mem_keys_insertDiscovered_iff (hkey ▸ hnew)).2 (Or.inl hkey.symm))
        show Except.ok _ = Except.ok _
        rw [hcontains]
        rfl

/-- A property that every discovery and every write keep, every session of a compiler keeps. -/
theorem overlay_keeps {P : Table → Prop}
    (hfound : ∀ t p e, P t → ¬ t.contains p → d p = .ok (some e) → P (t.insertDiscovered e))
    (hcapture : ∀ t p text, P t → P (t.capture p text)) : (overlay d fs cwd).Keeps P where
  fileExists t p ht := by
    show P (overlayExists d fs t p).2
    rcases overlayExists_cases d fs t p with heq | ⟨e, hnew, hd, heq⟩
    · rw [heq]
      exact ht
    · rw [heq]
      exact hfound t p e ht hnew hd
  save t p text ht := hcapture t p text ht

end SvelteTypings.Generation

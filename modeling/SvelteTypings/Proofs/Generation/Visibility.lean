import SvelteTypings.Proofs.Compiler.Candidates
import SvelteTypings.Proofs.Generation.Admission

/-!
# What a compiler can see

A question can change the table that it is about, so whether a file exists seems to depend on what
has been asked before. It does not: on a rooted path the overlay answers as `Config.Available` says,
which speaks of the configuration and the real files alone (`available_of_exists?`). Likewise the
text that is read does not depend on the table (`serves_of_read?`), as long as the file has been
asked for.
-/

namespace SvelteTypings.Generation

open SvelteTypings.Path (IsRooted IsCanonical intermediateSuffix)

/-! ## Files apart from the table -/

/-- A real file that gets an entry when it is asked for. -/
structure Config.Discovers (c : Config) (fs : FileSystem) (component : Path) : Prop where
  isFile : fs.isFile component
  isComponent : c.isComponent component
  mayType : mayType fs component = .ok true
  underSource : c.isUnderSource component

/-- The key of a listed component that gets an entry. -/
def Config.Lists (c : Config) (fs : FileSystem) (key : Path) : Prop :=
  ∃ listed ∈ c.components, c.Takes fs listed ∧ key = Table.keyFor listed.normalize

/-- There is an intermediate file at the path, known or still to be discovered. -/
def Config.Shows (c : Config) (fs : FileSystem) (p : Path) : Prop :=
  c.Lists fs p ∨ ∃ component, p = Table.keyFor component ∧ c.Discovers fs component

/-- There is a file at the path, intermediate or real. -/
def Config.Available (c : Config) (fs : FileSystem) (p : Path) : Prop :=
  c.Shows fs p ∨ fs.isFile p

/-- The text of the file at a path. -/
inductive Config.Serves (c : Config) (fs : FileSystem) (transformer : Transformer) :
    Path → String → Prop where
  | intermediate {component : Path} {source : String} (h : c.Shows fs (Table.keyFor component))
      (hsource : synthesize fs transformer component = .ok source) :
      c.Serves fs transformer (Table.keyFor component) source
  | real {p : Path} {text : String} (h : ¬ c.Shows fs p) (htext : fs.textOf? p = .ok (some text)) :
      c.Serves fs transformer p text

/-- The host of a run for a configuration. -/
abbrev Config.host (c : Config) (fs : FileSystem) (transformer : Transformer) (cwd : Path) :
    Host Table :=
  overlay (discoverComponent c fs transformer) fs cwd

variable {c : Config} {fs : FileSystem} {transformer : Transformer} {cwd p k : Path} {e : Entry}
  {t t' t'' : Table} {found found' : List Path}

/-- An intermediate file is the one of a component that may get types. -/
theorem Config.Shows.exists_component (h : c.Shows fs p) :
    ∃ component, p = Table.keyFor component ∧ mayType fs component = .ok true := by
  rcases h with ⟨listed, -, htakes, rfl⟩ | ⟨component, rfl, hdiscovers⟩
  · exact ⟨_, rfl, htakes.mayType⟩
  · exact ⟨_, rfl, hdiscovers.mayType⟩

theorem Config.Serves.eq {text text' : String} (h : c.Serves fs transformer p text)
    (h' : c.Serves fs transformer p text') : text = text' := by
  generalize hp : p = q at h'
  cases h with
  | intermediate hshows hsource =>
    cases h' with
    | intermediate _ hsource' =>
      rw [Path.appendSuffix_injective hp, hsource', Except.ok.injEq] at hsource
      exact hsource.symm
    | real hnot _ => exact absurd (hp ▸ hshows) hnot
  | real hnot htext =>
    cases h' with
    | intermediate hshows _ => exact absurd (hp ▸ hshows) hnot
    | real _ htext' =>
      rw [hp, htext', Except.ok.injEq, Option.some.injEq] at htext
      exact htext.symm

/-! ## Tables in a run -/

/-- What is true of every table of a run with absolute listed paths. -/
structure Config.View (c : Config) (fs : FileSystem) (transformer : Transformer) (t : Table) :
    Prop where
  admitted : c.Admitted fs transformer t
  rooted : ∀ k ∈ t.keys, IsRooted k
  listed : ∀ k, c.Lists fs k → k ∈ t.keys

theorem Config.Admits.shows (h : c.Admits fs transformer k e) : c.Shows fs k := by
  have hguard : mayType fs e.component = .ok true :=
    mayType_eq_ok_true_iff.2 ⟨h.noTyped, h.noIntermediate, h.noDeclaration⟩
  rw [h.key]
  rcases h.origin with ⟨listed, hlisted, hcomponent⟩ | ⟨hfile, hcomponent⟩
  · refine Or.inl ⟨listed, hlisted, ⟨?_, ?_⟩, ?_⟩
    · exact hcomponent ▸ hguard
    · exact hcomponent ▸ h.underSource
    · rw [hcomponent]
      rfl
  · exact Or.inr ⟨e.component, rfl, hfile, hcomponent, hguard, h.underSource⟩

theorem Config.View.shows (h : c.View fs transformer t) (hk : k ∈ t.keys) : c.Shows fs k := by
  obtain ⟨e, he⟩ := Table.mem_keys_iff.1 hk
  exact (h.admitted k e he).shows

theorem Config.View.contains_iff (h : c.View fs transformer t) (hp : IsRooted p) :
    t.contains p ↔ p ∈ t.keys := by
  rw [Table.contains_iff]
  refine ⟨?_, ?_⟩
  · rintro ⟨k, hk, hsame⟩
    exact (h.rooted k hk).eq_of_same hp hsame ▸ hk
  · intro hk
    exact ⟨p, hk, Path.same_refl p⟩

theorem Config.View.insertDiscovered (h : c.View fs transformer t) (hp : IsRooted p)
    (hnew : ¬ t.contains p) (he : c.Finds fs transformer p e) :
    c.View fs transformer (t.insertDiscovered e) := by
  have hkey : ¬ t.contains (Table.keyFor e.component) := he.key ▸ hnew
  refine ⟨h.admitted.insertDiscovered hnew he, ?_, ?_⟩
  · intro k hk
    rcases (Table.mem_keys_insertDiscovered_iff hkey).1 hk with rfl | hk
    · exact he.key ▸ hp
    · exact h.rooted k hk
  · intro k hk
    exact (Table.mem_keys_insertDiscovered_iff hkey).2 (Or.inr (h.listed k hk))

theorem Config.View.capture (h : c.View fs transformer t) (p : Path) (text : String) :
    c.View fs transformer (t.capture p text) where
  admitted := h.admitted.capture p text
  rooted k hk := h.rooted k (by rw [Table.keys_capture] at hk; exact hk)
  listed k hk := by
    rw [Table.keys_capture]
    exact h.listed k hk

theorem Config.View.clearDiscovered (h : c.View fs transformer t) :
    c.View fs transformer t.clearDiscovered where
  admitted := h.admitted.clearDiscovered
  rooted k hk := h.rooted k (by rw [Table.keys_clearDiscovered] at hk; exact hk)
  listed k hk := by
    rw [Table.keys_clearDiscovered]
    exact h.listed k hk

/-! ## Growth -/

/-- The table keeps its entries. It gains some without an output, under paths that were found. -/
structure Config.Grows (c : Config) (fs : FileSystem) (transformer : Transformer) (t : Table)
    (found : List Path) (t' : Table) : Prop where
  view : c.View fs transformer t'
  keeps : ∀ k e, t.Holds k e → t'.Holds k e
  gains : ∀ k e, t'.Holds k e → t.Holds k e ∨ (k ∈ found ∧ e.output = none)

theorem Config.View.grows_self (h : c.View fs transformer t) : c.Grows fs transformer t [] t :=
  ⟨h, fun _ _ => id, fun _ _ => Or.inl⟩

theorem Config.Grows.mem_keys (h : c.Grows fs transformer t found t') (hk : k ∈ t.keys) :
    k ∈ t'.keys := by
  obtain ⟨e, he⟩ := Table.mem_keys_iff.1 hk
  exact (h.keeps k e he).mem_keys

theorem Config.Grows.mono (h : c.Grows fs transformer t found t') (hsub : found ⊆ found') :
    c.Grows fs transformer t found' t' where
  view := h.view
  keeps := h.keeps
  gains k e he := (h.gains k e he).imp_right fun hk => ⟨hsub hk.1, hk.2⟩

theorem Config.Grows.trans (h : c.Grows fs transformer t found t')
    (h' : c.Grows fs transformer t' found' t'') :
    c.Grows fs transformer t (found ++ found') t'' where
  view := h'.view
  keeps k e he := h'.keeps k e (h.keeps k e he)
  gains k e he := by
    rcases h'.gains k e he with he | ⟨hk, hnone⟩
    · exact (h.gains k e he).imp_right fun hk => ⟨List.mem_append_left _ hk.1, hk.2⟩
    · exact Or.inr ⟨List.mem_append_right _ hk, hnone⟩

/-! ## Questions -/

/-- The intermediate file of a component that could be discovered lies below the source root as
well, or the component is listed. -/
def Config.RootClear (c : Config) (fs : FileSystem) : Prop :=
  ∀ component, IsRooted (Table.keyFor component) → c.Discovers fs component →
    c.isUnderSource (Table.keyFor component) ∨ c.Lists fs (Table.keyFor component)

/-- A question for the path does not fail. -/
def Config.Answers (c : Config) (fs : FileSystem) (transformer : Transformer) (p : Path) : Prop :=
  ∃ found, discoverComponent c fs transformer p = .ok found

/-- What is in the table could be asked for without it: its component has passed the guard and has
been transformed. -/
theorem Config.Admits.answers (h : c.Admits fs transformer k e) : c.Answers fs transformer k := by
  have hkey : k = Table.keyFor e.component := h.key
  rw [hkey]
  exact exists_ok_of_discoverComponent
    (mayType_eq_ok_true_iff.2 ⟨h.noTyped, h.noIntermediate, h.noDeclaration⟩)
    (synthesize_eq_ok_iff.2 h.source)

/-- A question that has been answered does not fail at other times either. -/
theorem answers_of_exists? {b : Bool} (ht : c.View fs transformer t) (hp : IsRooted p)
    (h : Session.Returns (c.host fs transformer cwd) (Session.exists? p) t b t') :
    c.Answers fs transformer p := by
  have hanswer : overlayExists (discoverComponent c fs transformer) fs t p = (.ok b, t') :=
    Session.returns_exists?_iff.1 h
  have hasked := asked_overlayExists (discoverComponent c fs transformer) fs t p
  rw [hanswer] at hasked
  generalize hb : (Except.ok b : Except Failure Bool) = answer at hasked
  cases hasked with
  | known hknown =>
    obtain ⟨e, he⟩ := Table.mem_keys_iff.1 ((ht.contains_iff hp).1 hknown)
    exact (ht.admitted p e he).answers
  | failed hnew e hd => exact absurd hb (by simp)
  | nothing hnew hd => exact ⟨none, hd⟩
  | found hnew e hd => exact ⟨some e, hd⟩

/-- What discovery finds shows at the path. -/
theorem Config.Finds.shows (h : c.Finds fs transformer p e) : c.Shows fs p := by
  rw [h.key]
  exact Or.inr ⟨e.component, rfl, h.isFile, h.isComponent, h.mayType,
    isUnderSource_of_destination? h.destination⟩

/-- Discovery overlooks nothing that shows, unless the table has it already. -/
theorem not_shows_of_discoverComponent (hclear : c.RootClear fs) (ht : c.View fs transformer t)
    (hp : IsRooted p) (hnew : ¬ t.contains p)
    (hnone : discoverComponent c fs transformer p = .ok none) :
    ¬ c.Shows fs p := by
  have hlists : ¬ c.Lists fs p := fun h => hnew (Table.contains_of_mem_keys (ht.listed p h))
  rintro (h | ⟨component, rfl, hdiscovers⟩)
  · exact hlists h
  · -- discovery asks this of the key, where `Discovers` asks it of the component
    have hunder := (hclear component hp hdiscovers).resolve_right hlists
    have hdestination : c.destination? component ≠ none := fun h =>
      destination?_eq_none_iff.1 h hdiscovers.underSource
    exact discoverComponent_ne_none hdiscovers.isFile hdiscovers.isComponent hdiscovers.mayType
      hunder hdestination hnone

/-- **A question is answered as the files say.** Whether there is a file at a rooted path does not
depend on the table. The question adds an entry at most under the path that it finds. -/
theorem available_of_exists? {b : Bool} (hclear : c.RootClear fs) (ht : c.View fs transformer t)
    (hp : IsRooted p)
    (h : Session.Returns (c.host fs transformer cwd) (Session.exists? p) t b t') :
    c.Grows fs transformer t (if b then [p] else []) t' ∧ (b ↔ c.Available fs p) ∧
      (c.Shows fs p → p ∈ t'.keys) := by
  have hanswer : overlayExists (discoverComponent c fs transformer) fs t p = (.ok b, t') :=
    Session.returns_exists?_iff.1 h
  have hasked := asked_overlayExists (discoverComponent c fs transformer) fs t p
  rw [hanswer] at hasked
  generalize hb : (Except.ok b : Except Failure Bool) = answer at hasked
  cases hasked with
  | known hknown =>
    cases hb
    have hmem := (ht.contains_iff hp).1 hknown
    exact ⟨ht.grows_self.mono (List.nil_subset _), by simp [Config.Available, ht.shows hmem],
      fun _ => hmem⟩
  | failed hnew e hd => exact absurd hb (by simp)
  | nothing hnew hd =>
    -- nothing shows, so the answer is that of the real files
    cases hb
    have hnot := not_shows_of_discoverComponent hclear ht hp hnew hd
    exact ⟨ht.grows_self.mono (List.nil_subset _), by simp [Config.Available, hnot],
      fun hshows => absurd hshows hnot⟩
  | found hnew e hd =>
    have hfinds := finds_of_discoverComponent hd
    have hkey : ¬ t.contains (Table.keyFor e.component) := hfinds.key ▸ hnew
    have hmem : p ∈ (t.insertDiscovered e).keys :=
      (Table.mem_keys_insertDiscovered_iff hkey).2 (Or.inl hfinds.key)
    -- the entry is found under the very path that was asked for
    have htrue : b = true := by
      rw [Table.contains_of_mem_keys hmem, Bool.true_or, Except.ok.injEq] at hb
      exact hb
    rw [htrue]
    refine ⟨⟨ht.insertDiscovered hp hnew hfinds, ?_, ?_⟩, ?_, fun _ => hmem⟩
    · exact fun k x hx => (Table.holds_insertDiscovered_iff hkey).2 (Or.inr hx)
    · intro k x hx
      rcases (Table.holds_insertDiscovered_iff hkey).1 hx with ⟨hk, rfl⟩ | hx
      · rw [hk, ← hfinds.key]
        exact Or.inr ⟨List.mem_singleton_self p, hfinds.output⟩
      · exact Or.inl hx
    · simp [Config.Available, hfinds.shows]

/-! ## Reading -/

/-- The text of an entry is that of the file under its key. -/
theorem Config.View.serves (h : c.View fs transformer t) (hk : t.Holds k e) :
    c.Serves fs transformer k e.source := by
  have hadmits := h.admitted k e hk
  have hkey : k = Table.keyFor e.component := hadmits.key
  have hshows : c.Shows fs (Table.keyFor e.component) := hkey ▸ hadmits.shows
  rw [hkey]
  exact .intermediate hshows (synthesize_eq_ok_iff.2 hadmits.source)

/-- **The text that is read is that of the file**, if the file is in the table when it shows. -/
theorem serves_of_read? {text : String} (ht : c.View fs transformer t) (hp : IsRooted p)
    (hknown : c.Shows fs p → p ∈ t.keys)
    (h : (overlay (discoverComponent c fs transformer) fs cwd).textOf t p = .ok (some text)) :
    c.Serves fs transformer p text := by
  change overlayText? fs t p = .ok (some text) at h
  rw [overlayText?] at h
  cases hget : t.get? p with
  | none =>
    rw [hget] at h
    refine .real (fun hshows => ?_) h
    exact Table.get?_eq_none_iff.1 hget (Table.contains_of_mem_keys (hknown hshows))
  | some e =>
    simp only [hget, Except.ok.injEq, Option.some.injEq] at h
    obtain ⟨k, hk, hsame⟩ := Table.get?_eq_some_iff.1 hget
    have hkp : k = p := (ht.rooted k hk.mem_keys).eq_of_same hp hsame
    rw [← hkp, ← h]
    exact ht.serves hk

/-- A file that is there can be read, unless reading it fails. -/
theorem read?_ne_none (hp : c.Available fs p) (hknown : c.Shows fs p → p ∈ t.keys) :
    (overlay (discoverComponent c fs transformer) fs cwd).textOf t p ≠ .ok none := by
  change overlayText? fs t p ≠ .ok none
  rw [overlayText?]
  cases hget : t.get? p with
  | some e => simp
  | none =>
    rcases hp with hshows | hfile
    · exact absurd (Table.contains_of_mem_keys (hknown hshows)) (Table.get?_eq_none_iff.1 hget)
    · rw [FileSystem.textOf?, if_pos hfile]
      cases fs.read p <;> simp

end SvelteTypings.Generation

import SvelteTypings.Generation.Components
import SvelteTypings.Proofs.Generation.Overlay
import SvelteTypings.Proofs.Path.Rooted

/-!
# The table of the listed components

The initial table holds one entry for each listed component that may get types and lies below the
source root. Listed paths are normalised, so their keys are canonical: a component that is listed
twice replaces an entry by an equal one, under the same bytes.
-/

namespace SvelteTypings.Generation

open SvelteTypings.Path (IsCanonical typedSuffix intermediateSuffix declarationSuffix)

variable {c : Config} {fs : FileSystem} {transformer : Transformer} {cwd p k : Path} {e x : Entry}
  {t t' : Table} {listed : List Path}

/-! ## The checks -/

/-- A component may get types exactly if none of the three files stands beside it. -/
theorem mayType_eq_ok_true_iff :
    mayType fs p = .ok true ↔
      fs.present (p.appendSuffix typedSuffix) = false ∧
        fs.present (p.appendSuffix intermediateSuffix) = false ∧
          fs.present (p.appendSuffix declarationSuffix) = false := by
  simp only [mayType, typedSibling?]
  cases fs.present (p.appendSuffix typedSuffix) <;>
    cases fs.present (p.appendSuffix intermediateSuffix) <;>
      cases fs.present (p.appendSuffix declarationSuffix) <;> simp

/-- A path has a destination exactly if it lies below the source root. -/
theorem destination?_eq_none_iff : c.destination? p = none ↔ ¬ c.isUnderSource p := by
  rw [Config.destination?, Option.map_eq_none_iff, Path.remapRoot?, Option.map_eq_none_iff,
    Config.isUnderSource, Path.below?]
  split
  · next h =>
    refine ⟨?_, ?_⟩
    · intro hnone
      split at hnone <;> exact absurd hnone (by simp)
    · exact fun hnot => absurd h hnot
  · next h => exact ⟨fun _ => h, fun _ => rfl⟩

theorem isUnderSource_of_destination? {destination : Path}
    (h : c.destination? p = some destination) : c.isUnderSource p :=
  Classical.byContradiction fun hnot =>
    absurd (destination?_eq_none_iff.2 hnot) (by rw [h]; exact Option.some_ne_none destination)

/-- The text of an intermediate file: the directives, then what the transformer makes of the text of
the component. -/
theorem synthesize_eq_ok_iff {source : String} :
    synthesize fs transformer p = .ok source ↔
      ∃ text transformed, fs.read p = .ok text ∧ transformer text p = .ok transformed ∧
        source = directiveText ++ transformed := by
  rw [synthesize]
  cases hread : fs.read p with
  | error reason => simp
  | ok text =>
    cases htransform : transformer text p with
    | error e => simp [htransform]
    | ok transformed => simp [htransform, eq_comm]

/-! ## Insertion among canonical keys -/

/-- All keys are spelled canonically. -/
def Table.Canonical (t : Table) : Prop := ∀ k ∈ t.keys, IsCanonical k

theorem Table.canonical_empty : Table.empty.Canonical :=
  fun _ hk => absurd hk List.not_mem_nil

theorem isCanonical_keyFor (h : IsCanonical p) : IsCanonical (Table.keyFor p) :=
  h.appendSuffix Path.isSuffix_intermediate

/-- Among canonical keys an entry is stored under its own key, byte for byte. -/
theorem Table.holds_insert_iff (ht : t.Canonical) (he : IsCanonical e.component) :
    (t.insert e).Holds k x ↔
      (k = keyFor e.component ∧ x = e) ∨ (t.Holds k x ∧ k ≠ keyFor e.component) := by
  have hkey := isCanonical_keyFor he
  -- an equal key that is there already is spelled in the same way
  have hspelling : t.entries.spelling (keyFor e.component) = keyFor e.component := by
    rw [PathMap.spelling]
    cases hfind : t.entries.find? (keyFor e.component) with
    | none => rfl
    | some f =>
      obtain ⟨hmem, hsame⟩ := PathMap.find?_eq_some_iff.1 hfind
      exact (ht f.1 (PathMap.mem_keys_of_mem hmem)).eq_of_same hkey hsame
  show (k, x) ∈ (t.entries.insert (keyFor e.component) e).toList ↔ _
  rw [PathMap.mem_insert_iff, hspelling, Prod.mk.injEq]
  refine or_congr_right (and_congr_right fun hmem => not_congr ?_)
  refine ⟨?_, ?_⟩
  · exact (ht k (PathMap.mem_keys_of_mem hmem)).eq_of_same hkey
  · rintro rfl
    exact Path.same_refl _

theorem Table.mem_keys_insert_iff (ht : t.Canonical) (he : IsCanonical e.component) :
    k ∈ (t.insert e).keys ↔ k = keyFor e.component ∨ k ∈ t.keys := by
  rw [mem_keys_iff, mem_keys_iff]
  refine ⟨?_, ?_⟩
  · rintro ⟨x, hx⟩
    rcases (holds_insert_iff ht he).1 hx with ⟨hk, -⟩ | ⟨hx, -⟩
    · exact Or.inl hk
    · exact Or.inr ⟨x, hx⟩
  · intro h
    by_cases hk : k = keyFor e.component
    · exact ⟨e, (holds_insert_iff ht he).2 (Or.inl ⟨hk, rfl⟩)⟩
    · obtain ⟨x, hx⟩ := h.resolve_left hk
      exact ⟨x, (holds_insert_iff ht he).2 (Or.inr ⟨hx, hk⟩)⟩

/-! ## The listed components -/

/-- A listed component that gets an entry. -/
structure Config.Takes (c : Config) (fs : FileSystem) (listed : Path) : Prop where
  mayType : mayType fs listed.normalize = .ok true
  underSource : c.isUnderSource listed.normalize

/-- The entry that a listed component gets. -/
structure Config.Enters (c : Config) (fs : FileSystem) (transformer : Transformer) (listed : Path)
    (e : Entry) : Prop where
  component : e.component = listed.normalize
  takes : c.Takes fs listed
  destination : c.destination? e.component = some e.destination
  source : synthesize fs transformer e.component = .ok e.source
  output : e.output = none

/-- A listed component is passed over, or its entry is inserted. -/
theorem initialTable_cons (h : (initialTable c transformer fs cwd (p :: listed) t).1 = .ok t') :
    (¬ c.Takes fs p ∧ (initialTable c transformer fs cwd listed t).1 = .ok t') ∨
      ∃ e, c.Enters fs transformer p e ∧
        (initialTable c transformer fs cwd listed (t.insert e)).1 = .ok t' := by
  rw [initialTable] at h
  cases hguard : mayType fs p.normalize with
  | error e => simp [hguard] at h
  | ok b =>
    cases b with
    | false =>
      rw [hguard] at h
      refine Or.inl ⟨fun htakes => ?_, h⟩
      rw [htakes.mayType] at hguard
      exact absurd hguard (by simp)
    | true =>
      simp only [hguard] at h
      cases hdestination : c.destination? p.normalize with
      | none =>
        rw [hdestination] at h
        exact Or.inl ⟨fun htakes => destination?_eq_none_iff.1 hdestination htakes.underSource, h⟩
      | some destination =>
        simp only [hdestination] at h
        cases hsource : synthesize fs transformer p.normalize with
        | error e => simp [hsource] at h
        | ok source =>
          rw [hsource] at h
          have htakes : c.Takes fs p := ⟨hguard, isUnderSource_of_destination? hdestination⟩
          exact Or.inr ⟨{ component := p.normalize, source, destination },
            ⟨rfl, htakes, hdestination, hsource, rfl⟩, h⟩

/-- What a table holds once some listed components have been gone through. -/
structure Config.Listed (c : Config) (fs : FileSystem) (transformer : Transformer)
    (listed : List Path) (t : Table) : Prop where
  canonical : t.Canonical
  entry : ∀ k e, t.Holds k e →
    k = Table.keyFor e.component ∧ ∃ p ∈ listed, c.Enters fs transformer p e
  taken : ∀ p ∈ listed, c.Takes fs p → Table.keyFor p.normalize ∈ t.keys

theorem listed_empty : c.Listed fs transformer [] .empty where
  canonical := Table.canonical_empty
  entry _ _ h := absurd h List.not_mem_nil
  taken _ hp := absurd hp List.not_mem_nil

theorem Config.Listed.skip (h : c.Listed fs transformer listed t) (hp : ¬ c.Takes fs p) :
    c.Listed fs transformer (listed ++ [p]) t where
  canonical := h.canonical
  entry k e he := by
    obtain ⟨hk, q, hq, henters⟩ := h.entry k e he
    exact ⟨hk, q, List.mem_append_left _ hq, henters⟩
  taken q hq htakes := by
    rcases List.mem_append.1 hq with hq | hq
    · exact h.taken q hq htakes
    · rw [List.mem_singleton.1 hq] at htakes
      exact absurd htakes hp

theorem Config.Listed.insert (h : c.Listed fs transformer listed t)
    (he : c.Enters fs transformer p e) : c.Listed fs transformer (listed ++ [p]) (t.insert e) := by
  have hcanonical : IsCanonical e.component := by
    rw [he.component]
    exact Path.isCanonical_normalize p
  refine ⟨?_, ?_, ?_⟩
  · intro k hk
    rcases (Table.mem_keys_insert_iff h.canonical hcanonical).1 hk with rfl | hk
    · exact isCanonical_keyFor hcanonical
    · exact h.canonical k hk
  · intro k x hx
    rcases (Table.holds_insert_iff h.canonical hcanonical).1 hx with ⟨rfl, rfl⟩ | ⟨hx, -⟩
    · exact ⟨rfl, p, by simp, he⟩
    · obtain ⟨hk, q, hq, henters⟩ := h.entry k x hx
      exact ⟨hk, q, List.mem_append_left _ hq, henters⟩
  · intro q hq htakes
    refine (Table.mem_keys_insert_iff h.canonical hcanonical).2 ?_
    rcases List.mem_append.1 hq with hq | hq
    · exact Or.inr (h.taken q hq htakes)
    · rw [List.mem_singleton.1 hq, he.component]
      exact Or.inl rfl

/-- **The initial table holds what is listed.** Its entries come from listed components that pass
the checks, and each such component has its entry. -/
theorem listed_initialTable {before : List Path} (hbefore : c.Listed fs transformer before t)
    (h : (initialTable c transformer fs cwd listed t).1 = .ok t') :
    c.Listed fs transformer (before ++ listed) t' := by
  induction listed generalizing before t with
  | nil =>
    have heq : t = t' := Except.ok.inj h
    rw [List.append_nil, ← heq]
    exact hbefore
  | cons p listed ih =>
    -- the induction is on what is left, the invariant says what is done
    have happend : before ++ p :: listed = (before ++ [p]) ++ listed := by simp
    rw [happend]
    rcases initialTable_cons h with ⟨hskip, hrest⟩ | ⟨e, he, hrest⟩
    · exact ih (hbefore.skip hskip) hrest
    · exact ih (hbefore.insert he) hrest

/-- The listed components are gone through in order: whatever goes first, the rest goes on with the
table that it leaves. -/
theorem initialTable_append (before listed : List Path) (t : Table) :
    (initialTable c transformer fs cwd (before ++ listed) t).1 =
      (initialTable c transformer fs cwd before t).1.bind fun t' =>
        (initialTable c transformer fs cwd listed t').1 := by
  induction before generalizing t with
  | nil => rfl
  | cons p before ih =>
    rw [List.cons_append, initialTable, initialTable]
    cases mayType fs p.normalize with
    | error e => rfl
    | ok b =>
      cases b with
      | false => exact ih t
      | true =>
        cases c.destination? p.normalize with
        | none => exact ih t
        | some destination =>
          cases synthesize fs transformer p.normalize with
          | error e => rfl
          | ok source => exact ih _

end SvelteTypings.Generation

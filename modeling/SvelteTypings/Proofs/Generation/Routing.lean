import SvelteTypings.Proofs.Generation.Table
import SvelteTypings.Proofs.Path.Spelling

/-!
# Declaration files under any spelling

The key of an entry is its component with a suffix appended to the bytes, but the table compares
keys by components and keeps the spelling that came first. So after a replacement the key of an
entry need not be the one that its component has now. It is still that of another spelling of the
component (`isKeyed_ofEdits`), since a suffix tells two paths apart that are not the same. Hence the
component of an entry never speaks against a declaration file that its key is found for
(`routing_of_edits`).
-/

namespace SvelteTypings.Generation

open SvelteTypings.Path (declarationSuffix isSuffix_intermediate)

/-! ## Runs of operations -/

/-- An operation on a table. -/
inductive Edit where
  | insert (e : Entry)
  | insertDiscovered (e : Entry)
  | capture (declaration : Path) (text : String)
  | clearDiscovered

namespace Table

/-- The table that an operation leaves. -/
def edit (t : Table) : Edit → Table
  | .insert e => t.insert e
  | .insertDiscovered e => t.insertDiscovered e
  | .capture declaration text => t.capture declaration text
  | .clearDiscovered => t.clearDiscovered

/-- The table that some operations build up, one after the other. -/
def ofEdits (edits : List Edit) : Table := edits.foldl edit .empty

variable {t : Table} {k p component : Path} {e x : Entry}

/-! ## Keys and components -/

/-- Every key is that of a component, and its entry is for a spelling of the same component. -/
def IsKeyed (t : Table) : Prop :=
  ∀ k e, t.Holds k e → ∃ component, k = keyFor component ∧ component.same e.component

/-- Keys that are the same come from components that are the same. -/
theorem same_of_same_keyFor {c c' : Path} (h : (keyFor c).same (keyFor c')) : c.same c' :=
  (Path.alike_of_same_appendSuffix isSuffix_intermediate h).same

/-- An entry is for a spelling of every component whose key it is found under. -/
theorem IsKeyed.same_component (h : t.IsKeyed) (hk : t.Holds k e)
    (hsame : k.same (keyFor component)) :
    e.component.same component := by
  obtain ⟨c, rfl, hc⟩ := h k e hk
  exact Path.same_trans (Path.same_symm hc) (same_of_same_keyFor hsame)

theorem isKeyed_empty : Table.empty.IsKeyed := fun _ _ h => absurd h List.not_mem_nil

/-- An entry that replaces another one is for a spelling of the component that the key is made of.
-/
theorem IsKeyed.insert (h : t.IsKeyed) (e : Entry) : (t.insert e).IsKeyed := by
  intro k x hx
  rcases PathMap.mem_insert_iff.1 hx with heq | ⟨hold, -⟩
  · obtain ⟨rfl, rfl⟩ := Prod.mk.inj heq
    -- the key is spelled as it was found, or as it is made
    rw [PathMap.spelling]
    cases hfind : t.entries.find? (keyFor x.component) with
    | none => exact ⟨x.component, rfl, Path.same_refl _⟩
    | some found =>
      obtain ⟨hmem, hsame⟩ := PathMap.find?_eq_some_iff.1 hfind
      obtain ⟨c, hkey, hc⟩ := h found.1 found.2 hmem
      exact ⟨c, hkey, same_of_same_keyFor (hkey ▸ hsame)⟩
  · exact h k x hold

theorem IsKeyed.capture (h : t.IsKeyed) (p : Path) (text : String) : (t.capture p text).IsKeyed := by
  intro k x hx
  obtain ⟨e, he, rfl⟩ := holds_capture_iff.1 hx
  obtain ⟨c, hkey, hc⟩ := h k e he
  refine ⟨c, hkey, ?_⟩
  split
  · exact hc
  · exact hc

theorem IsKeyed.clearDiscovered (h : t.IsKeyed) : t.clearDiscovered.IsKeyed := by
  intro k x hx
  obtain ⟨e, he, rfl⟩ := holds_clearDiscovered_iff.1 hx
  exact h k e he

/-- No operation breaks it. -/
theorem IsKeyed.edit (h : t.IsKeyed) (edit : Edit) : (t.edit edit).IsKeyed := by
  cases edit with
  | insert e => exact h.insert e
  | insertDiscovered e => exact h.insert { e with discovered := true }
  | capture declaration text => exact h.capture declaration text
  | clearDiscovered => exact h.clearDiscovered

/-- **Keys keep to their components** whatever is done to a table. -/
theorem isKeyed_ofEdits (edits : List Edit) : (ofEdits edits).IsKeyed := by
  have hrun : ∀ {t : Table}, t.IsKeyed → (edits.foldl Table.edit t).IsKeyed := by
    induction edits with
    | nil => exact fun h => h
    | cons edit edits ih => exact fun h => ih (h.edit edit)
  exact hrun isKeyed_empty

/-! ## Owners -/

/-- A declaration file has an owner if its component has a key in the table. -/
theorem IsKeyed.owner?_eq_some_iff (h : t.IsKeyed) {key : Path} :
    t.owner? p = some key ↔ ∃ component, p = component.appendSuffix declarationSuffix ∧
      key = keyFor component ∧ t.contains key := by
  rw [Table.owner?_eq_some_iff]
  refine exists_congr fun component => and_congr_right fun _ => and_congr_right fun hkey => ?_
  rw [contains_iff]
  refine ⟨?_, ?_⟩
  · rintro ⟨k, e, hk, hsame, -⟩
    exact ⟨k, hk.mem_keys, hsame⟩
  · rintro ⟨k, hmem, hsame⟩
    obtain ⟨e, hk⟩ := mem_keys_iff.1 hmem
    exact ⟨k, e, hk, hsame, h.same_component hk (hkey ▸ hsame)⟩

/-- A write to an owned file sets the output of one entry and leaves the others. -/
theorem holds_capture_of_owner? {key : Path} {text : String} (howner : t.owner? p = some key)
    (hk : t.Holds k e) (hsame : k.same key) {k' : Path} :
    (t.capture p text).Holds k' x ↔
      (k' = k ∧ x = { e with output := some text }) ∨ (k' ≠ k ∧ t.Holds k' x) := by
  have howns : ∀ {k' e'}, t.Holds k' e' → (t.Owns k' p ↔ k' = k) := by
    intro k' e' hk'
    refine ⟨?_, fun heq => ⟨key, howner, heq ▸ hsame⟩⟩
    rintro ⟨key', howner', hsame'⟩
    obtain rfl : key = key' := Option.some.inj (howner.symm.trans howner')
    exact (hk'.eq_of_same hk (Path.same_trans hsame' (Path.same_symm hsame))).1
  rw [holds_capture_iff]
  refine ⟨?_, ?_⟩
  · rintro ⟨e', hk', rfl⟩
    by_cases heq : k' = k
    · subst heq
      obtain rfl : e' = e := (hk'.eq_of_same hk (Path.same_refl _)).2
      exact Or.inl ⟨rfl, if_pos ((howns hk').2 rfl)⟩
    · refine Or.inr ⟨heq, ?_⟩
      rw [if_neg (mt (howns hk').1 heq)]
      exact hk'
  · rintro (⟨rfl, rfl⟩ | ⟨hne, hk'⟩)
    · exact ⟨e, hk, (if_pos ((howns hk).2 rfl)).symm⟩
    · exact ⟨x, hk', (if_neg (mt (howns hk').1 hne)).symm⟩

/-- **A declaration file goes to the entry that is named for it**, whatever operations have built
the table and however paths are spelled. Keys stand in order and are different paths; each is made
of a spelling of its entry's component. A file has an owner exactly if it ends like a declaration
file and the key of its component is in the table. A write to it sets the output of one entry, the
one that is found under that key, and any other write leaves the table as it is. -/
theorem routing_of_edits (edits : List Edit) (p : Path) (text : String) :
    ((ofEdits edits).keys.Pairwise fun k k' => k.compare k' = .lt ∧ ¬ k.same k') ∧
    (∀ k e, (ofEdits edits).Holds k e →
      ∃ component, k = keyFor component ∧ component.same e.component) ∧
    (∀ key, (ofEdits edits).owner? p = some key ↔
      ∃ component, p = component.appendSuffix declarationSuffix ∧ key = keyFor component ∧
        (ofEdits edits).contains key) ∧
    (∀ key, (ofEdits edits).owner? p = some key →
      ∃ k e, (ofEdits edits).Holds k e ∧ k.same key ∧
        ∀ k' x, ((ofEdits edits).capture p text).Holds k' x ↔
          (k' = k ∧ x = { e with output := some text }) ∨ (k' ≠ k ∧ (ofEdits edits).Holds k' x)) ∧
    ((ofEdits edits).owner? p = none → (ofEdits edits).capture p text = ofEdits edits) := by
  have hkeyed := isKeyed_ofEdits edits
  refine ⟨?_, hkeyed, fun key => hkeyed.owner?_eq_some_iff, ?_, fun h => ?_⟩
  · exact (PathMap.keys_ordered _).imp fun hlt => ⟨hlt, Path.not_same_of_lt hlt⟩
  · intro key howner
    obtain ⟨-, -, -, hcontains⟩ := hkeyed.owner?_eq_some_iff.1 howner
    obtain ⟨k, hmem, hsame⟩ := contains_iff.1 hcontains
    obtain ⟨e, hk⟩ := mem_keys_iff.1 hmem
    exact ⟨k, e, hk, hsame, fun k' x => holds_capture_of_owner? howner hk hsame⟩
  · exact capture_of_owner?_eq_none h text

/-- The key keeps its first spelling when the entry is replaced, and the file of either spelling of
the component goes to the entry. -/
example :
    let t := ofEdits [.insert ⟨.ofString "/a//b", "", .root, none, false⟩,
      .insertDiscovered ⟨.ofString "/a/./b", "", .root, none, false⟩]
    t.keys = [.ofString "/a//b.tsx"] ∧
      t.owner? (.ofString "/a/b.d.ts") = some (.ofString "/a/b.tsx") ∧
      t.owner? (.ofString "/a/b/.d.ts") = none := by decide

end Table

end SvelteTypings.Generation

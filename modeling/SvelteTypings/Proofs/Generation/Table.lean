import SvelteTypings.Generation.Table
import SvelteTypings.Proofs.Path.Map
import SvelteTypings.Proofs.Path.Segments

/-!
# What a table holds

A table is described by the entries it holds under each key. Of the operations of a run,
`insertDiscovered` adds one entry under an unknown key, `clearDiscovered` resets a mark, and
`capture` sets the output of the entry that owns the written file. No key is ever lost or spelled
anew.
-/

namespace SvelteTypings.Generation.Table

/-- The table holds an entry under a key, spelled as it is. -/
def Holds (t : Table) (key : Path) (e : Entry) : Prop := (key, e) ∈ t.entries.toList

variable {t : Table} {k k' p : Path} {e e' x : Entry}

theorem Holds.eq_of_same (h : t.Holds k e) (h' : t.Holds k' e') (hsame : k.same k') :
    k = k' ∧ e = e' := by
  have heq := PathMap.eq_of_same h h' hsame
  exact ⟨congrArg Prod.fst heq, congrArg Prod.snd heq⟩

theorem mem_keys_iff : k ∈ t.keys ↔ ∃ e, t.Holds k e := PathMap.mem_keys_iff

theorem Holds.mem_keys (h : t.Holds k e) : k ∈ t.keys := mem_keys_iff.2 ⟨e, h⟩

theorem nodup_keys (t : Table) : t.keys.Nodup := PathMap.nodup_keys t.entries

theorem contains_iff : t.contains p ↔ ∃ k ∈ t.keys, k.same p := PathMap.contains_iff

theorem contains_of_mem_keys (h : k ∈ t.keys) : t.contains k := PathMap.contains_of_mem_keys h

theorem get?_eq_some_iff : t.get? p = some e ↔ ∃ k, t.Holds k e ∧ k.same p :=
  PathMap.get?_eq_some_iff

theorem get?_eq_none_iff : t.get? p = none ↔ ¬ t.contains p := PathMap.get?_eq_none_iff

theorem contains_iff_exists_get? : t.contains p ↔ ∃ e, t.get? p = some e := by
  rw [← Classical.not_not (a := t.contains p), ← get?_eq_none_iff, ← ne_eq,
    Option.ne_none_iff_exists']

/-! ## Adding an entry -/

theorem holds_insertDiscovered_iff (h : ¬ t.contains (keyFor e.component)) :
    (t.insertDiscovered e).Holds k x ↔
      (k = keyFor e.component ∧ x = { e with discovered := true }) ∨ t.Holds k x := by
  show (k, x) ∈ (t.entries.insert (keyFor e.component) _).toList ↔ _
  rw [PathMap.mem_insert_of_not_contains h, Prod.mk.injEq]
  rfl

theorem mem_keys_insertDiscovered_iff (h : ¬ t.contains (keyFor e.component)) :
    k ∈ (t.insertDiscovered e).keys ↔ k = keyFor e.component ∨ k ∈ t.keys :=
  PathMap.mem_keys_insert_of_not_contains h

/-! ## Resetting the marks -/

theorem holds_clearDiscovered_iff :
    t.clearDiscovered.Holds k x ↔ ∃ e, t.Holds k e ∧ x = { e with discovered := false } :=
  PathMap.mem_mapValues_iff

@[simp] theorem keys_clearDiscovered (t : Table) : t.clearDiscovered.keys = t.keys :=
  PathMap.keys_mapValues _ _

/-! ## Writing an output -/

/-- The declaration file at the path belongs to the entry under the key. -/
def Owns (t : Table) (k p : Path) : Prop := ∃ key, t.owner? p = some key ∧ k.same key

/-- A declaration file has an owner if it is named after the component of an entry. -/
theorem owner?_eq_some_iff {key : Path} :
    t.owner? p = some key ↔
      ∃ component, p = component.appendSuffix Path.declarationSuffix ∧ key = keyFor component ∧
        ∃ k e, t.Holds k e ∧ k.same key ∧ e.component.same component := by
  rw [owner?]
  cases hstrip : p.stripSuffix? Path.declarationSuffix with
  | none =>
    refine ⟨?_, ?_⟩
    · intro h
      exact absurd h (by simp)
    · rintro ⟨component, hp, -⟩
      rw [← Path.stripSuffix?_eq_some_iff, hstrip] at hp
      exact absurd hp (by simp)
  | some component =>
    have hp := (Path.stripSuffix?_eq_some_iff _ _ _).1 hstrip
    refine ⟨?_, ?_⟩
    · intro h
      refine ⟨component, hp, ?_⟩
      show key = keyFor component ∧ _
      cases hget : t.get? (keyFor component) with
      | none => simp [hget] at h
      | some e =>
        obtain ⟨k, hk, hsame⟩ := get?_eq_some_iff.1 hget
        simp only [hget, Option.ite_none_right_eq_some, Option.some.injEq] at h
        exact ⟨h.2.symm, k, e, hk, h.2 ▸ hsame, h.1⟩
    · rintro ⟨component', hp', rfl, k, e, hk, hsame, hcomponent⟩
      obtain rfl : component = component' := by
        rw [← Path.stripSuffix?_eq_some_iff, hstrip] at hp'
        exact Option.some.inj hp'
      have hget : t.get? (keyFor component) = some e := get?_eq_some_iff.2 ⟨k, hk, hsame⟩
      simp only [hget, if_pos hcomponent]

open Classical in
/-- A write sets the output of the entry that owns the file, and changes nothing else. -/
theorem holds_capture_iff {text : String} :
    (t.capture p text).Holds k x ↔
      ∃ e, t.Holds k e ∧ x = if t.Owns k p then { e with output := some text } else e := by
  cases howner : t.owner? p with
  | none =>
    have hnot : ¬ t.Owns k p := by
      rintro ⟨key, hkey, -⟩
      rw [howner] at hkey
      exact absurd hkey (by simp)
    rw [capture_of_owner?_eq_none howner]
    simp [hnot]
  | some key =>
    have howns : t.Owns k p ↔ k.same key := by
      refine ⟨?_, ?_⟩
      · rintro ⟨key', hkey', hsame⟩
        rw [howner, Option.some.injEq] at hkey'
        exact hkey' ▸ hsame
      · intro hsame
        exact ⟨key, howner, hsame⟩
    rw [capture, howner]
    show (k, x) ∈ (t.entries.modify key _).toList ↔ _
    rw [PathMap.mem_modify_iff]
    simp only [howns]
    rfl

@[simp] theorem keys_capture (t : Table) (p : Path) (text : String) :
    (t.capture p text).keys = t.keys := by
  rw [capture]
  split
  · exact PathMap.keys_modify _ _ _
  · rfl

/-- The files that belong to an entry are told by its key and its component. -/
theorem owns_iff_of_holds (h : t.Holds k e) :
    t.Owns k p ↔ ∃ component, p = component.appendSuffix Path.declarationSuffix ∧
      k.same (keyFor component) ∧ e.component.same component := by
  refine ⟨?_, ?_⟩
  · rintro ⟨key, howner, hsame⟩
    -- the owner is found under another spelling of the key, so it is this very entry
    obtain ⟨component, hp, rfl, k', e', hk', hsame', hcomponent⟩ := owner?_eq_some_iff.1 howner
    have heq := (h.eq_of_same hk' (Path.same_trans hsame (Path.same_symm hsame'))).2
    exact ⟨component, hp, hsame, heq ▸ hcomponent⟩
  · rintro ⟨component, hp, hsame, hcomponent⟩
    exact ⟨keyFor component, owner?_eq_some_iff.2 ⟨component, hp, rfl, k, e, h, hsame, hcomponent⟩,
      hsame⟩

/-- A file that belongs to an entry is the declaration file next to its component. -/
theorem Owns.same_declaration (h : t.Owns k p) (hk : t.Holds k e)
    (hkey : k = keyFor e.component) :
    p.same (e.component.appendSuffix Path.declarationSuffix) := by
  -- the keys agree with one suffix appended, so the declaration files agree with another
  obtain ⟨component, rfl, hsame, -⟩ := (owns_iff_of_holds hk).1 h
  rw [hkey] at hsame
  exact Path.same_symm
    ((Path.same_appendSuffix_congr Path.isSuffix_intermediate Path.isSuffix_declaration).1 hsame)

end SvelteTypings.Generation.Table

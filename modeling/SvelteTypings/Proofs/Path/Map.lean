import SvelteTypings.Path.Map

/-!
# What a map by path holds

A map is described by the entries in `toList`. The order of the keys gives uniqueness: two entries
whose keys are spellings of one path are one entry (`eq_of_same`). From it follow what a look-up
finds and which entries each operation leaves.
-/

namespace SvelteTypings

namespace Path

theorem same_symm {p q : Path} (h : p.same q) : q.same p := by
  rw [same_iff] at h ⊢
  exact h.symm

theorem same_trans {p q r : Path} (hpq : p.same q) (hqr : q.same r) : p.same r := by
  rw [same_iff] at hpq hqr ⊢
  exact hpq.trans hqr

theorem not_same_of_lt {p q : Path} (h : p.compare q = .lt) : ¬ p.same q := by
  rw [← compare_eq_iff, h]
  decide

end Path

namespace PathMap

variable {α : Type} {m : PathMap α} {p : Path} {e : Path × α}

/-! ## Uniqueness -/

/-- Entries of one path are one entry. -/
theorem eq_of_same {a b : Path × α} (ha : a ∈ m.toList) (hb : b ∈ m.toList)
    (h : a.1.same b.1) : a = b := by
  -- pairs that stand in order are not the same, either way round
  let R (a b : Path × α) : Prop := a.1.same b.1 → a = b
  have hrefl : ∀ x ∈ m.toList, R x x := fun _ _ _ => rfl
  have hforth : m.toList.Pairwise R := by
    refine m.ordered.imp fun {x y} hlt hxy => ?_
    exact absurd hxy (Path.not_same_of_lt hlt)
  have hback : m.toList.Pairwise (flip R) := by
    refine m.ordered.imp fun {x y} hlt hyx => ?_
    exact absurd (Path.same_symm hyx) (Path.not_same_of_lt hlt)
  exact List.Pairwise.forall_of_forall_of_flip hrefl hforth hback ha hb h

theorem keys_ordered (m : PathMap α) : m.keys.Pairwise fun p q => p.compare q = .lt :=
  List.pairwise_map.2 m.ordered

theorem nodup_keys (m : PathMap α) : m.keys.Nodup := by
  refine m.keys_ordered.imp ?_
  intro p q hlt heq
  exact Path.not_same_of_lt hlt (heq ▸ Path.same_refl _)

theorem nodup_toList (m : PathMap α) : m.toList.Nodup :=
  List.Pairwise.of_map Prod.fst (fun _ _ hne heq => hne (congrArg Prod.fst heq)) m.nodup_keys

/-- The order of the keys decides how they stand, so only which ones there are matters. -/
theorem keys_eq_of_mem_iff {β : Type} {m' : PathMap β} (h : ∀ k, k ∈ m.keys ↔ k ∈ m'.keys) :
    m.keys = m'.keys := by
  have hperm : m.keys.Perm m'.keys := (List.perm_ext_iff_of_nodup m.nodup_keys m'.nodup_keys).2 h
  refine hperm.eq_of_pairwise ?_ m.keys_ordered m'.keys_ordered
  intro p q _ _ hpq hqp
  exact absurd (Path.same_refl p) (Path.not_same_of_lt (Path.compare_trans hpq hqp))

/-- A map is told by what it holds. -/
theorem eq_of_mem_iff {m' : PathMap α} (h : ∀ e, e ∈ m.toList ↔ e ∈ m'.toList) : m = m' := by
  have hperm : m.toList.Perm m'.toList :=
    (List.perm_ext_iff_of_nodup m.nodup_toList m'.nodup_toList).2 h
  have hlist : m.toList = m'.toList := by
    refine hperm.eq_of_pairwise ?_ m.ordered m'.ordered
    intro a b _ _ hab hba
    exact absurd (Path.same_refl a.1) (Path.not_same_of_lt (Path.compare_trans hab hba))
  obtain ⟨entries, hordered⟩ := m
  obtain ⟨entries', hordered'⟩ := m'
  cases hlist
  rfl

theorem mem_keys_iff {k : Path} : k ∈ m.keys ↔ ∃ a, (k, a) ∈ m.toList := by
  simp [keys]

theorem mem_keys_of_mem {k : Path} {a : α} (h : (k, a) ∈ m.toList) : k ∈ m.keys :=
  mem_keys_iff.2 ⟨a, h⟩

/-! ## Look-up -/

/-- A look-up finds the same under every spelling of a path. -/
theorem find?_congr {q : Path} (h : p.same q) : m.find? p = m.find? q := by
  rw [Path.same_iff] at h
  simp only [find?, Path.same, h]

theorem get?_congr {q : Path} (h : p.same q) : m.get? p = m.get? q := by
  rw [get?, get?, find?_congr h]

theorem contains_congr {q : Path} (h : p.same q) : m.contains p = m.contains q := by
  rw [contains, contains, find?_congr h]

theorem find?_eq_some_iff : m.find? p = some e ↔ e ∈ m.toList ∧ e.1.same p := by
  refine ⟨?_, ?_⟩
  · intro h
    exact ⟨List.mem_of_find?_eq_some h, by simpa using List.find?_some h⟩
  · rintro ⟨hmem, hsame⟩
    cases hf : m.find? p with
    | none =>
      exact absurd hsame (by simpa using List.find?_eq_none.1 hf e hmem)
    | some f =>
      have hf' : f ∈ m.toList ∧ f.1.same p :=
        ⟨List.mem_of_find?_eq_some hf, by simpa using List.find?_some hf⟩
      rw [eq_of_same hmem hf'.1 (Path.same_trans hsame (Path.same_symm hf'.2))]

theorem get?_eq_some_iff {a : α} : m.get? p = some a ↔ ∃ k, (k, a) ∈ m.toList ∧ k.same p := by
  rw [get?, Option.map_eq_some_iff]
  refine ⟨?_, ?_⟩
  · rintro ⟨f, hf, rfl⟩
    exact ⟨f.1, find?_eq_some_iff.1 hf⟩
  · rintro ⟨k, hk⟩
    exact ⟨(k, a), find?_eq_some_iff.2 hk, rfl⟩

theorem contains_iff : m.contains p ↔ ∃ k ∈ m.keys, k.same p := by
  rw [contains, Option.isSome_iff_exists]
  refine ⟨?_, ?_⟩
  · rintro ⟨f, hf⟩
    rw [find?_eq_some_iff] at hf
    exact ⟨f.1, mem_keys_of_mem hf.1, hf.2⟩
  · rintro ⟨k, hk, hsame⟩
    obtain ⟨a, ha⟩ := mem_keys_iff.1 hk
    exact ⟨(k, a), find?_eq_some_iff.2 ⟨ha, hsame⟩⟩

theorem contains_of_mem_keys {k : Path} (h : k ∈ m.keys) : m.contains k :=
  contains_iff.2 ⟨k, h, Path.same_refl k⟩

theorem get?_eq_none_iff : m.get? p = none ↔ ¬ m.contains p := by
  rw [get?, contains, Option.map_eq_none_iff, Option.not_isSome_iff_eq_none]

/-! ## Insertion -/

/-- A new key is placed as it is spelled, an old one keeps its spelling. The other entries stay. -/
theorem mem_insert_iff {a : α} :
    e ∈ (m.insert p a).toList ↔ e = (m.spelling p, a) ∨ (e ∈ m.toList ∧ ¬ e.1.same p) := by
  obtain ⟨entries, hordered⟩ := m
  show e ∈ insertEntry p a entries ↔
    e = (((entries.find? (·.1.same p)).map Prod.fst).getD p, a) ∨ (e ∈ entries ∧ ¬ e.1.same p)
  induction entries with
  | nil => simp [insertEntry]
  | cons f entries ih =>
    obtain ⟨hf, hrest⟩ := List.pairwise_cons.1 hordered
    rw [insertEntry]
    split
    · next hlt =>
      -- everything stands above `p`, so nothing is found and nothing is replaced
      have hnone : ∀ g ∈ f :: entries, ¬ g.1.same p := by
        intro g hg hsame
        have hpg : p.compare g.1 = .lt := by
          rcases List.mem_cons.1 hg with rfl | hg
          · exact hlt
          · exact Path.compare_trans hlt (hf g hg)
        exact Path.not_same_of_lt hpg (Path.same_symm hsame)
      rw [List.find?_eq_none.2 fun g hg => by simpa using hnone g hg, List.mem_cons]
      refine ⟨?_, ?_⟩
      · rintro (he | he)
        · exact Or.inl he
        · exact Or.inr ⟨he, hnone e he⟩
      · rintro (he | ⟨he, -⟩)
        · exact Or.inl he
        · exact Or.inr he
    · next heq =>
      -- the entry is replaced, and no later one has its path
      have hsame : f.1.same p := Path.same_symm (Path.compare_eq_iff.1 heq)
      have hrest' : ∀ g ∈ entries, ¬ g.1.same p := by
        intro g hg hgp
        exact Path.not_same_of_lt (hf g hg) (Path.same_trans hsame (Path.same_symm hgp))
      rw [List.find?_cons_of_pos (by simpa using hsame), List.mem_cons, List.mem_cons]
      refine ⟨?_, ?_⟩
      · rintro (he | he)
        · exact Or.inl he
        · exact Or.inr ⟨Or.inr he, hrest' e he⟩
      · rintro (he | ⟨rfl | he, hne⟩)
        · exact Or.inl he
        · exact absurd hsame hne
        · exact Or.inr he
    · next hgt =>
      -- the entry stays in front, and the rest is a smaller map
      have hnot : ¬ f.1.same p := Path.not_same_of_lt (Path.compare_gt_iff.1 hgt)
      rw [List.find?_cons_of_neg (by simpa using hnot), List.mem_cons, List.mem_cons, ih hrest]
      refine ⟨?_, ?_⟩
      · rintro (rfl | he | ⟨he, hne⟩)
        · exact Or.inr ⟨Or.inl rfl, hnot⟩
        · exact Or.inl he
        · exact Or.inr ⟨Or.inr he, hne⟩
      · rintro (he | ⟨rfl | he, hne⟩)
        · exact Or.inr (Or.inl he)
        · exact Or.inl rfl
        · exact Or.inr (Or.inr ⟨he, hne⟩)

/-- Inserting under an unknown path adds one entry. -/
theorem mem_insert_of_not_contains {a : α} (h : ¬ m.contains p) :
    e ∈ (m.insert p a).toList ↔ e = (p, a) ∨ e ∈ m.toList := by
  have hnone : m.find? p = none := by simpa [contains] using h
  have hother : ∀ f ∈ m.toList, ¬ f.1.same p := by
    intro f hf hsame
    exact h (contains_iff.2 ⟨f.1, List.mem_map_of_mem hf, hsame⟩)
  have hspelling : m.spelling p = p := by rw [spelling, hnone]; rfl
  rw [mem_insert_iff, hspelling]
  refine ⟨?_, ?_⟩
  · rintro (he | ⟨he, -⟩)
    · exact Or.inl he
    · exact Or.inr he
  · rintro (he | he)
    · exact Or.inl he
    · exact Or.inr ⟨he, hother e he⟩

theorem mem_keys_insert_of_not_contains {a : α} {k : Path} (h : ¬ m.contains p) :
    k ∈ (m.insert p a).keys ↔ k = p ∨ k ∈ m.keys := by
  rw [mem_keys_iff, mem_keys_iff]
  simp only [mem_insert_of_not_contains h, Prod.mk.injEq]
  refine ⟨?_, ?_⟩
  · rintro ⟨b, ⟨hk, -⟩ | hb⟩
    · exact Or.inl hk
    · exact Or.inr ⟨b, hb⟩
  · rintro (hk | ⟨b, hb⟩)
    · exact ⟨a, Or.inl ⟨hk, rfl⟩⟩
    · exact ⟨b, Or.inr hb⟩

theorem spelling_same (m : PathMap α) (p : Path) : (m.spelling p).same p := by
  rw [spelling]
  cases hfind : m.find? p with
  | none => exact Path.same_refl p
  | some f => exact (find?_eq_some_iff.1 hfind).2

/-- A value that is inserted is found, under every spelling of its path. -/
theorem get?_insert (m : PathMap α) (p q : Path) (a : α) :
    (m.insert p a).get? q = if p.same q then some a else m.get? q := by
  by_cases h : p.same q
  · rw [if_pos h, get?_eq_some_iff]
    exact ⟨_, mem_insert_iff.2 (Or.inl rfl), Path.same_trans (m.spelling_same p) h⟩
  · rw [if_neg h]
    refine Option.ext fun b => ?_
    rw [get?_eq_some_iff, get?_eq_some_iff]
    refine exists_congr fun k => and_congr_left fun hk => ?_
    -- an entry under the other path is neither the new one nor replaced by it
    have hne : ¬ k.same p := fun hkp => h (Path.same_trans (Path.same_symm hkp) hk)
    rw [mem_insert_iff]
    refine ⟨?_, fun hmem => Or.inr ⟨hmem, hne⟩⟩
    rintro (heq | ⟨hmem, -⟩)
    · rw [Prod.mk.injEq] at heq
      exact absurd (heq.1 ▸ m.spelling_same p) hne
    · exact hmem

theorem get?_erase (m : PathMap α) (p q : Path) :
    (m.erase p).get? q = if p.same q then none else m.get? q := by
  have hmem : ∀ e, e ∈ (m.erase p).toList ↔ e ∈ m.toList ∧ ¬ e.1.same p := by
    intro e
    show e ∈ m.toList.filter (fun e => !e.1.same p) ↔ _
    simp
  refine Option.ext fun b => ?_
  rw [get?_eq_some_iff]
  simp only [hmem]
  by_cases h : p.same q
  · rw [if_pos h]
    refine ⟨?_, fun hnone => absurd hnone (by simp)⟩
    rintro ⟨k, ⟨-, hne⟩, hk⟩
    exact absurd (Path.same_trans hk (Path.same_symm h)) hne
  · rw [if_neg h, get?_eq_some_iff]
    refine exists_congr fun k => and_congr_left fun hk => and_iff_left ?_
    exact fun hkp => h (Path.same_trans (Path.same_symm hkp) hk)

/-- The new entry and the old ones are all entries, and none stands twice. -/
theorem insert_perm_of_not_contains {a : α} (h : ¬ m.contains p) :
    (m.insert p a).toList.Perm ((p, a) :: m.toList) := by
  have hnot : (p, a) ∉ m.toList := fun hmem =>
    h (contains_of_mem_keys (mem_keys_of_mem hmem))
  refine (List.perm_ext_iff_of_nodup (nodup_toList _)
    (List.nodup_cons.2 ⟨hnot, nodup_toList m⟩)).2 fun e => ?_
  rw [mem_insert_of_not_contains h, List.mem_cons]

theorem size_insert_of_not_contains {a : α} (h : ¬ m.contains p) :
    (m.insert p a).size = m.size + 1 :=
  (insert_perm_of_not_contains h).length_eq

/-! ## Changed values -/

theorem mem_modify_iff {f : α → α} :
    e ∈ (m.modify p f).toList ↔
      ∃ a, (e.1, a) ∈ m.toList ∧ e.2 = if e.1.same p then f a else a := by
  obtain ⟨k, b⟩ := e
  show (k, b) ∈ m.toList.map (fun e => (e.1, if e.1.same p then f e.2 else e.2)) ↔ _
  rw [List.mem_map]
  refine ⟨?_, ?_⟩
  · rintro ⟨⟨k', a⟩, hmem, heq⟩
    cases heq
    exact ⟨a, hmem, rfl⟩
  · rintro ⟨a, hmem, heq⟩
    exact ⟨(k, a), hmem, Prod.ext rfl heq.symm⟩

theorem mem_mapValues_iff {f : α → α} :
    e ∈ (m.mapValues f).toList ↔ ∃ a, (e.1, a) ∈ m.toList ∧ e.2 = f a := by
  obtain ⟨k, b⟩ := e
  show (k, b) ∈ m.toList.map (fun e => (e.1, f e.2)) ↔ _
  rw [List.mem_map]
  refine ⟨?_, ?_⟩
  · rintro ⟨⟨k', a⟩, hmem, heq⟩
    cases heq
    exact ⟨a, hmem, rfl⟩
  · rintro ⟨a, hmem, heq⟩
    exact ⟨(k, a), hmem, Prod.ext rfl heq.symm⟩

@[simp] theorem keys_modify (m : PathMap α) (p : Path) (f : α → α) :
    (m.modify p f).keys = m.keys := by
  show (m.toList.map fun e => (e.1, if e.1.same p then f e.2 else e.2)).map Prod.fst = _
  rw [List.map_map]
  rfl

@[simp] theorem keys_mapValues (m : PathMap α) (f : α → α) : (m.mapValues f).keys = m.keys := by
  show (m.toList.map fun e => (e.1, f e.2)).map Prod.fst = _
  rw [List.map_map]
  rfl

end PathMap

end SvelteTypings

import Mathlib.Data.List.Pairwise
import SvelteTypings.Component.Slot

/-!
# Collecting slots

The tags of a markup are added to its slots one by one. What comes out does not depend on how the
table of slots is kept: it has each name of a tag once, in the order of the names, and under it the
names that the tags pass on, each once and in the order of their first occurrence
(`collects_foldl`).
-/

namespace SvelteTypings.Component.Slot

variable {n : String} {ps : List String} {s : Slot} {ss : List Slot}

/-- The names that are passed on by the tags with the given name, each once. -/
def passedOn (tags : List (String × List String)) (n : String) : List String :=
  ((tags.filter (·.1 = n)).flatMap (·.2)).eraseDups

/-- The slots that tags stand for, in the order of their names. -/
structure Collects (tags : List (String × List String)) (ss : List Slot) : Prop where
  ordered : ss.Pairwise (·.name < ·.name)
  mem_iff : ∀ s, s ∈ ss ↔ s.name ∈ tags.map (·.1) ∧ s.props = passedOn tags s.name

theorem eraseDups_concat (xs : List String) (x : String) :
    (xs ++ [x]).eraseDups =
      if xs.eraseDups.contains x then xs.eraseDups else xs.eraseDups ++ [x] := by
  have hsingle : [x].eraseDups = [x] := rfl
  rw [List.eraseDups_append, List.removeAll]
  by_cases hx : x ∈ xs
  · simp [hx]
  · simp [hx, hsingle]

theorem addNew_eraseDups (xs more : List String) :
    addNew xs.eraseDups more = (xs ++ more).eraseDups := by
  induction more generalizing xs with
  | nil => rw [List.append_nil]; rfl
  | cons x more ih =>
    rw [addNew, List.foldl_cons, ← eraseDups_concat, ← addNew, ih, List.append_assoc]
    rfl

theorem passedOn_concat_self (tags : List (String × List String)) (n : String) (ps : List String) :
    passedOn (tags ++ [(n, ps)]) n = addNew (passedOn tags n) ps := by
  rw [passedOn, passedOn, addNew_eraseDups]
  simp

theorem passedOn_concat_of_ne {m : String} (h : n ≠ m) (tags : List (String × List String))
    (ps : List String) : passedOn (tags ++ [(n, ps)]) m = passedOn tags m := by
  rw [passedOn, passedOn]
  simp [h]

theorem passedOn_eq_nil {tags : List (String × List String)} (h : n ∉ tags.map (·.1)) :
    passedOn tags n = [] := by
  have hnone : tags.filter (·.1 = n) = [] := by
    rw [List.filter_eq_nil_iff]
    intro tag htag heq
    exact h (List.mem_map.2 ⟨tag, htag, by simpa using heq⟩)
  rw [passedOn, hnone]
  rfl

/-- What a slot passed on before a tag is added to it. -/
def propsIn (n : String) (ss : List Slot) : List String :=
  ((ss.find? (·.name = n)).map (·.props)).getD []

theorem mem_addTag_iff (h : ss.Pairwise (·.name < ·.name)) :
    s ∈ addTag n ps ss ↔
      (s.name ≠ n ∧ s ∈ ss) ∨ (s.name = n ∧ s.props = addNew (propsIn n ss) ps) := by
  have hmk : ∀ (m : String) (qs : List String), s = ⟨m, qs⟩ ↔ s.name = m ∧ s.props = qs :=
    fun m qs => ⟨by rintro rfl; exact ⟨rfl, rfl⟩, by rintro ⟨rfl, rfl⟩; rfl⟩
  induction ss with
  | nil => simp [addTag, hmk, propsIn]
  | cons first ss ih =>
    obtain ⟨hfirst, hss⟩ := List.pairwise_cons.1 h
    rw [addTag]
    by_cases heq : n = first.name
    · -- the slot is there already, and no other one has its name
      subst heq
      have hne : s ∈ ss → s.name ≠ first.name := fun hs hname =>
        String.lt_irrefl _ (hname ▸ hfirst s hs)
      have hprops : propsIn first.name (first :: ss) = first.props := by simp [propsIn]
      rw [if_pos rfl, hprops, List.mem_cons, hmk, List.mem_cons]
      constructor
      · rintro (hs | hs)
        · exact .inr hs
        · exact .inl ⟨hne hs, .inr hs⟩
      · rintro (⟨hname, rfl | hs⟩ | hs)
        · exact absurd rfl hname
        · exact .inr hs
        · exact .inl hs
    · rw [if_neg heq]
      have hprops : propsIn n (first :: ss) = propsIn n ss := by
        simp [propsIn, Ne.symm heq]
      rw [hprops]
      by_cases hlt : n < first.name
      · -- the slot is new, and stands before all others
        have hnew : ∀ s' ∈ first :: ss, n < s'.name := by
          intro s' hs'
          rcases List.mem_cons.1 hs' with rfl | hs'
          · exact hlt
          · exact String.lt_trans hlt (hfirst s' hs')
        have hnone : propsIn n ss = [] := by
          rw [propsIn, List.find?_eq_none.2]
          · rfl
          · intro s' hs' hname
            have hlt' := hnew s' (List.mem_cons_of_mem _ hs')
            rw [of_decide_eq_true hname] at hlt'
            exact String.lt_irrefl _ hlt'
        rw [if_pos hlt, hnone, List.mem_cons, hmk, or_comm]
        refine or_congr_left ⟨fun hs => ⟨fun hname => ?_, hs⟩, And.right⟩
        exact String.lt_irrefl _ (hname ▸ hnew s hs)
      · -- the slot stands further behind
        have hrest := ih hss
        rw [if_neg hlt, List.mem_cons, List.mem_cons]
        constructor
        · rintro (rfl | hs)
          · exact .inl ⟨Ne.symm heq, .inl rfl⟩
          · exact (hrest.1 hs).imp_left fun hold => ⟨hold.1, .inr hold.2⟩
        · rintro (⟨hname, rfl | hs⟩ | hs)
          · exact .inl rfl
          · exact .inr (hrest.2 (.inl ⟨hname, hs⟩))
          · exact .inr (hrest.2 (.inr hs))

theorem pairwise_addTag (h : ss.Pairwise (·.name < ·.name)) :
    (addTag n ps ss).Pairwise (·.name < ·.name) := by
  induction ss with
  | nil => exact List.pairwise_singleton _ _
  | cons first ss ih =>
    obtain ⟨hfirst, hss⟩ := List.pairwise_cons.1 h
    rw [addTag]
    by_cases heq : n = first.name
    · rw [if_pos heq]
      exact List.pairwise_cons.2 ⟨hfirst, hss⟩
    · rw [if_neg heq]
      by_cases hlt : n < first.name
      · rw [if_pos hlt]
        refine List.pairwise_cons.2 ⟨fun s hs => ?_, h⟩
        rcases List.mem_cons.1 hs with rfl | hs
        · exact hlt
        · exact String.lt_trans hlt (hfirst s hs)
      · rw [if_neg hlt]
        refine List.pairwise_cons.2 ⟨fun s hs => ?_, ih hss⟩
        rcases (mem_addTag_iff hss).1 hs with ⟨-, hs⟩ | ⟨hname, -⟩
        · exact hfirst s hs
        · rw [hname]
          by_contra hnot
          exact heq (String.le_antisymm (String.not_lt.1 hnot) (String.not_lt.1 hlt))

/-- A tag is collected with the tags before it. -/
theorem Collects.addTag {tags : List (String × List String)} (h : Collects tags ss) (n : String)
    (ps : List String) : Collects (tags ++ [(n, ps)]) (addTag n ps ss) where
  ordered := pairwise_addTag h.ordered
  mem_iff s := by
    have hprops : propsIn n ss = passedOn tags n := by
      cases hfind : ss.find? (·.name = n) with
      | none =>
        have hnot : n ∉ tags.map (·.1) := fun hmem => by
          have hin : (⟨n, passedOn tags n⟩ : Slot) ∈ ss := (h.mem_iff _).2 ⟨hmem, rfl⟩
          simpa using List.find?_eq_none.1 hfind _ hin
        rw [propsIn, hfind, passedOn_eq_nil hnot]
        rfl
      | some s' =>
        have hname : s'.name = n := by simpa using List.find?_some hfind
        have hs' := ((h.mem_iff s').1 (List.mem_of_find?_eq_some hfind)).2
        rw [propsIn, hfind, ← hname, ← hs']
        rfl
    rw [mem_addTag_iff h.ordered, h.mem_iff, hprops, List.map_append, List.mem_append]
    by_cases hname : s.name = n
    · subst hname
      rw [passedOn_concat_self]
      simp
    · rw [passedOn_concat_of_ne (Ne.symm hname)]
      simp [hname]

theorem collects_foldl (tags : List (String × List String)) :
    Collects tags (tags.foldl (fun ss tag => Slot.addTag tag.1 tag.2 ss) []) := by
  suffices h : ∀ done ss, Collects done ss →
      Collects (done ++ tags) (tags.foldl (fun ss tag => Slot.addTag tag.1 tag.2 ss) ss) from
    h [] [] ⟨.nil, by simp⟩
  induction tags with
  | nil =>
    intro done ss h
    rwa [List.append_nil]
  | cons tag tags ih =>
    intro done ss h
    have hnext := ih (done ++ [tag]) _ (h.addTag tag.1 tag.2)
    rwa [List.append_assoc] at hnext

end SvelteTypings.Component.Slot

import SvelteTypings.Compiler.Emission
import SvelteTypings.Proofs.Path.Rooted

/-!
# What resolution looks for

Every file that module resolution may ask for has a rooted path that ends like a script with types,
provided that the importing file has such a path. So only such files ever get into a program. Of an
imported path that does not end like a script, as that of a component, first the typed file beside
it is looked for and then the intermediate file (`exists_candidates_eq`).
-/

namespace SvelteTypings

open SvelteTypings.Path (IsCanonical IsRooted IsSuffix)

/-- A rooted path that ends in `.ts` or `.tsx`. Declaration files are among them. -/
structure IsTyped (p : Path) : Prop where
  rooted : IsRooted p
  ending : p.hasSuffix Path.typedSuffix ∨ p.hasSuffix Path.intermediateSuffix

/-! ## Suffixes -/

theorem typed_suffix_declaration :
    Text.encode Path.typedSuffix <:+ Text.encode Path.declarationSuffix := by decide

theorem isTyped_appendSuffix {p : Path} {s : String} (h : IsRooted (p.appendSuffix s))
    (hs : s ∈ Resolution.typedSuffixes) : IsTyped (p.appendSuffix s) := by
  refine ⟨h, ?_⟩
  rcases List.mem_cons.1 hs with rfl | hs
  · exact Or.inl (Path.hasSuffix_appendSuffix p _)
  · rcases List.mem_cons.1 hs with rfl | hs
    · exact Or.inr (Path.hasSuffix_appendSuffix p _)
    · rw [List.mem_singleton.1 hs] at h ⊢
      exact Or.inl (Path.hasSuffix_of_hasSuffix (Path.hasSuffix_appendSuffix p _)
        typed_suffix_declaration)

theorem isSuffix_of_mem_typedSuffixes {s : String} (hs : s ∈ Resolution.typedSuffixes) :
    IsSuffix (Text.encode s) := by
  have hall : ∀ s ∈ Resolution.typedSuffixes, IsSuffix (Text.encode s) := by decide
  exact hall s hs

theorem isSuffix_of_mem_sourceSuffixes {s : String} (hs : s ∈ Emission.sourceSuffixes) :
    IsSuffix (Text.encode s) := by
  have hall : ∀ s ∈ Emission.sourceSuffixes, IsSuffix (Text.encode s) := by decide
  exact hall s hs

/-! ## Scripts -/

/-- A rooted path that ends like a script, with types or without. -/
structure IsScript (p : Path) : Prop where
  rooted : IsRooted p
  ending : ∃ s ∈ Emission.sourceSuffixes, p.hasSuffix s

theorem IsTyped.isScript {p : Path} (h : IsTyped p) : IsScript p := by
  refine ⟨h.rooted, ?_⟩
  rcases h.ending with hs | hs
  · exact ⟨Path.typedSuffix, by decide, hs⟩
  · exact ⟨Path.intermediateSuffix, by decide, hs⟩

/-- A script lies in an absolute directory. -/
theorem IsScript.exists_parent {p : Path} (h : IsScript p) :
    ∃ directory, p.parent? = some directory ∧ directory.isAbsolute := by
  refine h.rooted.exists_parent ?_
  obtain ⟨s, hs, hsuffix⟩ := h.ending
  obtain ⟨q, rfl⟩ := Path.hasSuffix_iff_exists.1 hsuffix
  exact Path.appendSuffix_ne_root (isSuffix_of_mem_sourceSuffixes hs)

namespace Resolution

/-! ## Candidates -/

theorem isRooted_importBase (specifier : String) {importer : Path} (h : IsScript importer) :
    IsRooted (importBase specifier importer) := by
  obtain ⟨directory, hparent, habsolute⟩ := h.exists_parent
  rw [importBase, hparent]
  exact Path.isRooted_normalize (Path.isAbsolute_join _ habsolute)

/-- The name of an index file is a name. -/
theorem plain_index {s : String} (hs : s ∈ typedSuffixes) :
    Path.Plain (Text.encode ("index" ++ s)) ∧ Text.encode ("index" ++ s) ≠ Path.upward := by
  rcases List.mem_cons.1 hs with rfl | hs
  · exact ⟨⟨by decide, by decide⟩, by decide⟩
  · rcases List.mem_cons.1 hs with rfl | hs
    · exact ⟨⟨by decide, by decide⟩, by decide⟩
    · rw [List.mem_singleton.1 hs]
      exact ⟨⟨by decide, by decide⟩, by decide⟩

theorem isTyped_index {base : Path} (h : IsRooted base) {s : String} (hs : s ∈ typedSuffixes) :
    IsTyped (base.join (Path.ofString ("index" ++ s))) := by
  obtain ⟨hplain, hup⟩ := plain_index hs
  have hrooted : IsRooted (base.join (Path.ofString ("index" ++ s))) := h.join hplain hup
  -- the name comes last, so its suffix is that of the path
  obtain ⟨q, hq⟩ : ∃ q : Path, base.join (Path.ofString ("index" ++ s)) = q.appendSuffix s := by
    have hname : Path.ofString ("index" ++ s) = (Path.ofString "index").appendSuffix s := by
      rcases List.mem_cons.1 hs with rfl | hs
      · decide
      · rcases List.mem_cons.1 hs with rfl | hs
        · decide
        · rw [List.mem_singleton.1 hs]
          decide
    have hrelative : (Path.ofString ("index" ++ s)).isAbsolute = false := by
      have hhead : (Path.ofString ("index" ++ s)).bytes.head? ≠ some Path.separator := fun hh =>
        hplain.separator_not_mem (List.mem_of_mem_head? hh)
      exact decide_eq_false hhead
    rw [Path.join, hrelative, if_neg (by decide), hname]
    split
    · exact ⟨⟨base.bytes ++ (Path.ofString "index").bytes⟩,
        congrArg Path.mk (List.append_assoc _ _ _).symm⟩
    · exact ⟨⟨base.bytes ++ Path.separator :: (Path.ofString "index").bytes⟩, congrArg Path.mk
        (List.append_assoc base.bytes (Path.separator :: (Path.ofString "index").bytes) _).symm⟩
  rw [hq] at hrooted ⊢
  exact isTyped_appendSuffix hrooted hs

/-- How a file that an imported path may stand for is made of the path. -/
inductive Candidate (base : Path) : Path → Prop where
  | itself (h : typedSuffixes.any base.hasSuffix) : Candidate base base
  | exchanged (stem : Path) (s s' : String) (hbase : base = stem.appendSuffix s)
      (hs : s ∈ Emission.sourceSuffixes) (hs' : s' ∈ typedSuffixes) :
      Candidate base (stem.appendSuffix s')
  | appended (s : String) (hs : s ∈ typedSuffixes) : Candidate base (base.appendSuffix s)
  | index (s : String) (hs : s ∈ typedSuffixes) :
      Candidate base (base.join (Path.ofString ("index" ++ s)))

theorem candidate_of_mem {base p : Path} (hp : p ∈ candidates base) : Candidate base p := by
  rw [candidates] at hp
  split at hp
  · next hany =>
    rw [List.mem_singleton.1 hp]
    exact .itself hany
  · split at hp
    · next hjs =>
      obtain ⟨s, hs, rfl⟩ := List.mem_map.1 hp
      exact .exchanged _ ".js" s ((Path.stripSuffix?_eq_some_iff _ _ _).1 hjs) (by decide) hs
    · next hjsx =>
      rw [List.mem_singleton.1 hp]
      exact .exchanged _ ".jsx" ".tsx" ((Path.stripSuffix?_eq_some_iff _ _ _).1 hjsx) (by decide)
        (by decide)
    · rcases List.mem_append.1 hp with hp | hp
      · obtain ⟨s, hs, rfl⟩ := List.mem_map.1 hp
        exact .appended s hs
      · obtain ⟨s, hs, rfl⟩ := List.mem_map.1 hp
        exact .index s hs

/-- Whatever a canonical path may stand for is canonical. -/
theorem isCanonical_of_mem_candidates {base p : Path} (h : IsCanonical base)
    (hp : p ∈ candidates base) : IsCanonical p := by
  cases candidate_of_mem hp with
  | itself => exact h
  | exchanged stem s s' hbase hs hs' =>
    exact (hbase ▸ h).exchangeSuffix (isSuffix_of_mem_sourceSuffixes hs)
      (isSuffix_of_mem_typedSuffixes hs')
  | appended s hs => exact h.appendSuffix (isSuffix_of_mem_typedSuffixes hs)
  | index s hs => exact h.join (plain_index hs).1 (plain_index hs).2

/-- Whatever a rooted path may stand for is typed. -/
theorem isTyped_of_mem_candidates {base p : Path} (h : IsRooted base) (hp : p ∈ candidates base) :
    IsTyped p := by
  cases candidate_of_mem hp with
  | itself hany =>
    obtain ⟨s, hs, hsuffix⟩ := List.any_eq_true.1 hany
    obtain ⟨q, rfl⟩ := Path.hasSuffix_iff_exists.1 hsuffix
    exact isTyped_appendSuffix h hs
  | exchanged stem s s' hbase hs hs' =>
    exact isTyped_appendSuffix ((hbase ▸ h).exchangeSuffix (isSuffix_of_mem_sourceSuffixes hs)
      (isSuffix_of_mem_typedSuffixes hs')) hs'
  | appended s hs =>
    exact isTyped_appendSuffix (h.appendSuffix (isSuffix_of_mem_typedSuffixes hs)) hs
  | index s hs => exact isTyped_index h hs

/-! ## Bare paths -/

/-- The path does not end like a script. -/
def IsBare (p : Path) : Prop := ∀ s ∈ Emission.sourceSuffixes, ¬ p.hasSuffix s

instance (p : Path) : Decidable (IsBare p) :=
  inferInstanceAs (Decidable (∀ s ∈ Emission.sourceSuffixes, ¬ p.hasSuffix s))

theorem IsBare.not_typed {base : Path} (h : IsBare base) : ¬ typedSuffixes.any base.hasSuffix := by
  intro hany
  obtain ⟨s, hs, hsuffix⟩ := List.any_eq_true.1 hany
  rcases List.mem_cons.1 hs with rfl | hs
  · exact h ".ts" (by decide) hsuffix
  · rcases List.mem_cons.1 hs with rfl | hs
    · exact h ".tsx" (by decide) hsuffix
    · rw [List.mem_singleton.1 hs] at hsuffix
      exact h ".ts" (by decide) (Path.hasSuffix_of_hasSuffix hsuffix typed_suffix_declaration)

/-- The typed file beside a bare path is looked for first, and the intermediate file next. -/
theorem exists_candidates_eq {base : Path} (h : IsBare base) :
    ∃ rest, candidates base = base.appendSuffix Path.typedSuffix ::
      base.appendSuffix Path.intermediateSuffix :: rest := by
  have hjs : base.stripSuffix? ".js" = none := if_neg (h ".js" (by decide))
  have hjsx : base.stripSuffix? ".jsx" = none := if_neg (h ".jsx" (by decide))
  rw [candidates, if_neg h.not_typed, hjs, hjsx]
  exact ⟨_, rfl⟩

/-- What is made of a rooted path by a suffix lies beside it, not in it. -/
theorem isIndex_appendSuffix {base : Path} {s : String} (h : IsRooted base)
    (hne : base ≠ Path.root) (hs : IsSuffix (Text.encode s)) :
    isIndex base (base.appendSuffix s) = false := by
  obtain ⟨ss, htidy, rfl⟩ := h.exists_segments
  have hss : ss ≠ [] := by
    rintro rfl
    exact hne rfl
  obtain ⟨front, last, rfl⟩ : ∃ front last, ss = front ++ [last] :=
    ⟨ss.dropLast, ss.getLast hss, (List.dropLast_concat_getLast hss).symm⟩
  have hfront := Path.tidy_of_concat htidy
  have hlast := (htidy.plain last (by simp)).separator_not_mem
  have hplain : ∀ t ∈ front ++ [last ++ Text.encode s], Path.Plain t :=
    (Path.tidy_concat hfront (hs.plain hlast).1 fun _ => (hs.plain hlast).2).plain
  -- the parent has one segment less than the path itself
  rw [isIndex, Path.written_appendSuffix, Path.parent?_written hplain, if_neg (by simp),
    List.dropLast_concat, Option.any_some, ← Bool.not_eq_true, Path.same_iff,
    Path.components_written hfront.plain, Path.components_written htidy.plain]
  intro heq
  have hlength := congrArg List.length heq
  simp only [List.length_append, List.length_map, List.length_cons, List.length_nil] at hlength
  omega

end Resolution

end SvelteTypings

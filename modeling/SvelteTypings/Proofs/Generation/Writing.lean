import SvelteTypings.Compiler.Emission
import SvelteTypings.Proofs.Generation.Loading

/-!
# Writing declarations

The path of a declaration file and the owner that the table finds for it are computed by two
different functions. They undo each other: of all files that a program may hold, the one whose
declarations go to an entry is the intermediate file of that entry (`owns_declarationPath_iff`). A
script `C.ts` beside a component `C` would be the one exception, and the component would not have
been admitted beside it.
-/

namespace SvelteTypings.Generation

open SvelteTypings.Path (typedSuffix intermediateSuffix declarationSuffix)
open Emission (declarationPath packageDirectory shouldEmit writeAll)

variable {c : Config} {fs : FileSystem} {transformer : Transformer} {cwd p k : Path} {e x : Entry}
  {t t' : Table} {o : CompilerOptions}

/-! ## Suffixes that exclude each other -/

/-- A path does not have two suffixes of which none ends in the other. -/
theorem not_hasSuffix {p : Path} {s s' : String} (h : p.hasSuffix s)
    (hforth : ¬ Text.encode s <:+ Text.encode s') (hback : ¬ Text.encode s' <:+ Text.encode s) :
    ¬ p.hasSuffix s' :=
  fun h' => (Path.suffix_or_suffix h h').elim hforth hback

theorem not_intermediate_of_typed (h : p.hasSuffix typedSuffix) :
    ¬ p.hasSuffix intermediateSuffix :=
  not_hasSuffix h (by decide) (by decide)

theorem hasSuffix_keyFor (component : Path) :
    (Table.keyFor component).hasSuffix intermediateSuffix :=
  Path.hasSuffix_appendSuffix component intermediateSuffix

theorem Config.Shows.hasSuffix (h : c.Shows fs p) : p.hasSuffix intermediateSuffix := by
  obtain ⟨component, rfl, -⟩ := h.exists_component
  exact hasSuffix_keyFor component

/-! ## Declaration files -/

theorem declarationPath_keyFor (component : Path) :
    declarationPath (Table.keyFor component) = component.appendSuffix declarationSuffix := by
  have hstrip : (Table.keyFor component).stripSuffix? ".tsx" = some component :=
    Path.stripSuffix?_appendSuffix component ".tsx"
  rw [declarationPath, Path.stem, Emission.sourceSuffixes, List.findSome?_cons, hstrip]
  rfl

theorem declarationPath_typed (stem : Path) :
    declarationPath (stem.appendSuffix typedSuffix) = stem.appendSuffix declarationSuffix := by
  have htsx : (stem.appendSuffix typedSuffix).stripSuffix? ".tsx" = none :=
    if_neg (not_intermediate_of_typed (Path.hasSuffix_appendSuffix stem typedSuffix))
  have hts : (stem.appendSuffix typedSuffix).stripSuffix? ".ts" = some stem :=
    Path.stripSuffix?_appendSuffix stem ".ts"
  rw [declarationPath, Path.stem, Emission.sourceSuffixes, List.findSome?_cons, htsx,
    List.findSome?_cons, hts]
  rfl

/-- **A declaration file goes to the entry of the file it is made from**, and to no other. -/
theorem owns_declarationPath_iff (ht : c.View fs transformer t) (hk : t.Holds k e)
    (hp : IsTyped p) (havailable : c.Available fs p) :
    t.Owns k (declarationPath p) ↔ k = p := by
  have hadmits := ht.admitted k e hk
  have hkey : k = Table.keyFor e.component := hadmits.key
  have hrooted := ht.rooted k hk.mem_keys
  rw [Table.owns_iff_of_holds hk]
  rcases hp.ending with hts | htsx
  · obtain ⟨stem, rfl⟩ := Path.hasSuffix_iff_exists.1 hts
    have hreal : fs.isFile (stem.appendSuffix typedSuffix) :=
      havailable.resolve_left fun hshows => not_intermediate_of_typed hts hshows.hasSuffix
    have hstem : Path.IsRooted (Table.keyFor stem) :=
      hp.rooted.exchangeSuffix Path.isSuffix_typed Path.isSuffix_intermediate
    rw [declarationPath_typed]
    refine ⟨?_, ?_⟩
    · rintro ⟨component, hcomponent, hsame, -⟩
      obtain rfl : stem = component := Path.appendSuffix_injective hcomponent
      -- the script stands beside the component of the entry, which was not admitted then
      have heq : stem = e.component :=
        Path.appendSuffix_injective ((hrooted.eq_of_same hstem hsame).symm.trans hkey)
      have habsent := hadmits.noTyped
      rw [← heq] at habsent
      rw [FileSystem.isFile, habsent, Bool.false_and] at hreal
      exact absurd hreal Bool.false_ne_true
    · intro heq
      have hsuffix : k.hasSuffix intermediateSuffix := hkey ▸ hasSuffix_keyFor e.component
      exact absurd (heq ▸ hsuffix) (not_intermediate_of_typed hts)
  · obtain ⟨component, rfl⟩ := Path.hasSuffix_iff_exists.1 htsx
    have hdeclaration : declarationPath (component.appendSuffix intermediateSuffix) =
        component.appendSuffix declarationSuffix := declarationPath_keyFor component
    rw [hdeclaration]
    refine ⟨?_, ?_⟩
    · rintro ⟨component', hcomponent, hsame, -⟩
      obtain rfl : component = component' := Path.appendSuffix_injective hcomponent
      exact hrooted.eq_of_same hp.rooted hsame
    · intro heq
      have hcomponent : e.component = component :=
        Path.appendSuffix_injective (hkey.symm.trans heq)
      refine ⟨component, rfl, ?_, ?_⟩
      · rw [heq]
        exact Path.same_refl _
      · rw [hcomponent]
        exact Path.same_refl _

/-- Declarations are written for an intermediate file unless it lies in a package. -/
theorem shouldEmit_keyFor (o : CompilerOptions) (component : Path) :
    shouldEmit o (Table.keyFor component) =
      !(Table.keyFor component).components.contains packageDirectory := by
  have hsuffix := hasSuffix_keyFor component
  have hdeclaration : ¬ (Table.keyFor component).hasSuffix declarationSuffix :=
    not_hasSuffix hsuffix (by decide) (by decide)
  have hjs : ¬ (Table.keyFor component).hasSuffix ".js" :=
    not_hasSuffix hsuffix (by decide) (by decide)
  have hjsx : ¬ (Table.keyFor component).hasSuffix ".jsx" :=
    not_hasSuffix hsuffix (by decide) (by decide)
  rw [Bool.not_eq_true] at hjs hjsx
  rw [shouldEmit, if_neg hdeclaration, hjs, hjsx]
  cases (Table.keyFor component).components.contains packageDirectory <;> rfl

/-! ## Writing one file after the other -/

/-- What becomes of an entry when the declarations of some files are written: nothing, if its own
file is not among them. -/
def Rewritten (o : CompilerOptions) (files : List SourceFile) (k : Path) (e x : Entry) : Prop :=
  (x = e ∧ ∀ file ∈ files, file.path ≠ k) ∨
    ∃ file ∈ files, file.path = k ∧ x = { e with output := some (Script.declarations o file.text) }

/-- Writing declarations leaves the keys, and each entry as its own file has it. -/
theorem rewritten_of_writeAll {files : List SourceFile} {written : List Path}
    (ht : c.View fs transformer t)
    (hfiles : ∀ file ∈ files, IsTyped file.path ∧ c.Available fs file.path)
    (h : Session.Returns (c.host fs transformer cwd) (writeAll o files) t written t') :
    c.View fs transformer t' ∧ t'.keys = t.keys ∧
      ∀ k x, t'.Holds k x → ∃ e, t.Holds k e ∧ Rewritten o files k e x := by
  induction files generalizing t written with
  | nil =>
    obtain ⟨-, rfl⟩ := Session.returns_pure_iff.1 h
    exact ⟨ht, rfl, fun k x hx => ⟨x, hx, Or.inl ⟨rfl, fun _ hf => absurd hf List.not_mem_nil⟩⟩⟩
  | cons file files ih =>
    obtain ⟨u, t₁, hwrite, h⟩ := Session.returns_bind_iff.1 h
    obtain ⟨written', t₂, hrest, h⟩ := Session.returns_bind_iff.1 h
    obtain ⟨-, rfl⟩ := Session.returns_pure_iff.1 h
    obtain ⟨hfile, hfiles⟩ := List.forall_mem_cons.1 hfiles
    obtain rfl : t.capture (declarationPath file.path) (Script.declarations o file.text) = t₁ :=
      congrArg Prod.snd (Session.returns_write_iff.1 hwrite)
    obtain ⟨hview, hkeys, hrewritten⟩ := ih (ht.capture _ _) hfiles hrest
    refine ⟨hview, hkeys.trans (Table.keys_capture _ _ _), ?_⟩
    intro k x hx
    obtain ⟨e₁, he₁, hx⟩ := hrewritten k x hx
    obtain ⟨e, he, heq⟩ := Table.holds_capture_iff.1 he₁
    have howns := owns_declarationPath_iff ht he hfile.1 hfile.2
    refine ⟨e, he, ?_⟩
    rcases hx with ⟨rfl, hnot⟩ | ⟨f, hf, hpath, rfl⟩
    · by_cases hk : k = file.path
      · rw [if_pos (howns.2 hk)] at heq
        exact Or.inr ⟨file, List.mem_cons_self, hk.symm, heq⟩
      · rw [if_neg (mt howns.1 hk)] at heq
        exact Or.inl ⟨heq, List.forall_mem_cons.2 ⟨fun h => hk h.symm, hnot⟩⟩
    · -- a later file with the same path decides
      refine Or.inr ⟨f, List.mem_cons_of_mem file hf, hpath, ?_⟩
      rw [heq]
      split <;> rfl

end SvelteTypings.Generation

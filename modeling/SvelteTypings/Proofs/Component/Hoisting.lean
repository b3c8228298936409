import SvelteTypings.Component.Import
import SvelteTypings.Proofs.Text.Trimming

/-!
# Moving imports out

An instance script that consists of import declarations and other lines is sorted into just these,
in order (`sortsInto_of_settled`). A declaration reaches to the first line that ends with `;` or a
quote, so it has to end like that, and nothing before its last line may. A comment behind the module
hides the end, and the lines below are taken for a part of the declaration
(`not_sortsInto_commented`).
-/

namespace SvelteTypings.Component

variable {s first line : List Char} {more rest ls : List (List Char)}

/-! ## Ends of declarations -/

/-- A character that an import declaration can end with. -/
def isImportEnd (c : Char) : Bool := c = ';' || c = '"' || c = '\''

theorem isWholeImport_eq (s : List Char) :
    isWholeImport s = (Text.lastNonBlank? s).any isImportEnd := by
  rw [isWholeImport, Text.getLast?_trimEnd]
  cases h : Text.lastNonBlank? s with
  | none => rfl
  | some c =>
    rw [Option.any_some]
    split
    · next heq => cases heq; rfl
    · next heq => cases heq; rfl
    · next heq => cases heq; rfl
    · next h₁ h₂ h₃ =>
      have hc : c ≠ ';' ∧ c ≠ '"' ∧ c ≠ '\'' :=
        ⟨fun h => h₁ (h ▸ rfl), fun h => h₂ (h ▸ rfl), fun h => h₃ (h ▸ rfl)⟩
      simp [isImportEnd, hc]

theorem isWholeImport_trim (s : List Char) : isWholeImport (Text.trim s) = isWholeImport s := by
  rw [isWholeImport_eq, isWholeImport_eq, Text.lastNonBlank?_trim]

/-- Whether an unfinished declaration ends with its next line is told from that line. -/
theorem isWholeImport_append (hs : isWholeImport s = false) (line : List Char) :
    isWholeImport (s ++ '\n' :: Text.trimEnd line) = isWholeImport line := by
  rw [isWholeImport_eq] at hs
  rw [isWholeImport_eq, isWholeImport_eq, Text.lastNonBlank?_append, Text.lastNonBlank?_cons,
    Text.lastNonBlank?_trimEnd]
  cases hline : Text.lastNonBlank? line with
  | none => exact hs
  | some c => rfl

theorem isWholeImport_eq_false (h : ∀ c ∈ Text.lastNonBlank? s, isImportEnd c = false) :
    isWholeImport s = false := by
  rw [isWholeImport_eq]
  cases hlast : Text.lastNonBlank? s with
  | none => rfl
  | some c => exact h c hlast

/-- The line holds a module in quotes, and if anything follows that, it ends like a declaration. -/
def HoldsModule (line : List Char) : Prop :=
  ∃ front quote module tail, line = front ++ quote :: module ++ quote :: tail ∧
    (quote = '"' ∨ quote = '\'') ∧ ∀ c ∈ Text.lastNonBlank? tail, isImportEnd c

theorem HoldsModule.isWholeImport (h : HoldsModule line) : isWholeImport line := by
  obtain ⟨front, quote, module, tail, rfl, hquote, htail⟩ := h
  rw [isWholeImport_eq, Text.lastNonBlank?_append, Text.lastNonBlank?_cons]
  cases hlast : Text.lastNonBlank? tail with
  | some c => exact htail c hlast
  | none => rcases hquote with rfl | rfl <;> rfl

/-! ## Passages -/

/-- Lines of an instance script that belong together: an import declaration, or one other line. -/
inductive Passage where
  | declaration (first : List Char) (more : List (List Char))
  | ordinary (line : List Char)

/-- An import declaration of the given lines. Its last line is the first one that ends like one. -/
structure IsDeclaration (first : List Char) (more : List (List Char)) : Prop where
  begins : beginsImport (Text.trim first)
  goesOn : ∀ line ∈ (first :: more).dropLast, ∀ c ∈ Text.lastNonBlank? line, isImportEnd c = false
  ends : HoldsModule ((first :: more).getLast (List.cons_ne_nil _ _))

/-- The lines of a declaration after the first, as they are taken over. -/
def continued (more : List (List Char)) : List Char :=
  more.flatMap fun line => '\n' :: Text.trimEnd line

namespace Passage

def lines : Passage → List (List Char)
  | declaration first more => first :: more
  | ordinary line => [line]

def import? : Passage → Option (List Char)
  | declaration first more => some (Text.trim first ++ continued more)
  | ordinary _ => none

def ordinary? : Passage → Option (List Char)
  | declaration _ _ => none
  | ordinary line => some line

def IsSettled : Passage → Prop
  | declaration first more => IsDeclaration first more
  | ordinary line => beginsImport (Text.trim line) = false

end Passage

/-- The imports of a script are the declarations among its passages, and the other lines stay. -/
def SortsInto (script : List Char) (passages : List Passage) : Prop :=
  (hoist script).imports = passages.filterMap Passage.import? ∧
    (hoist script).rest = passages.filterMap Passage.ordinary?

/-! ## Sorting -/

/-- An unfinished declaration takes the lines up to the first that ends it. -/
theorem hoistFrom_unfinished (hs : isWholeImport s = false) (hmore : more ≠ [])
    (hgoes : ∀ line ∈ more.dropLast, isWholeImport line = false)
    (hends : isWholeImport (more.getLast hmore)) :
    hoistFrom (some s) (more ++ rest) = (hoistFrom none rest).consImport (s ++ continued more) := by
  induction more generalizing s with
  | nil => exact absurd rfl hmore
  | cons line more ih =>
    have hnext := isWholeImport_append hs line
    rw [List.cons_append, hoistFrom]
    cases more with
    | nil =>
      rw [List.getLast_singleton] at hends
      rw [if_pos (hnext.trans hends), List.nil_append, continued, List.flatMap_singleton]
    | cons line' more =>
      have hline : isWholeImport line = false := hgoes line List.mem_cons_self
      rw [if_neg (by rw [hnext, hline]; exact Bool.false_ne_true), ih (hnext.trans hline)
        (List.cons_ne_nil _ _) (fun l hl => hgoes l (List.mem_cons_of_mem _ hl)) hends,
        List.append_assoc]
      rfl

theorem hoistFrom_declaration (h : IsDeclaration first more) :
    hoistFrom none (first :: more ++ rest) =
      (hoistFrom none rest).consImport (Text.trim first ++ continued more) := by
  have hwhole := isWholeImport_trim first
  rw [List.cons_append, hoistFrom, if_pos h.begins]
  cases more with
  | nil =>
    rw [if_pos (hwhole.trans h.ends.isWholeImport), continued, List.flatMap_nil, List.append_nil]
    rfl
  | cons line more =>
    have hfirst : isWholeImport first = false :=
      isWholeImport_eq_false (h.goesOn first List.mem_cons_self)
    rw [if_neg (by rw [hwhole, hfirst]; exact Bool.false_ne_true)]
    exact hoistFrom_unfinished (hwhole.trans hfirst) (List.cons_ne_nil _ _)
      (fun l hl => isWholeImport_eq_false (h.goesOn l (List.mem_cons_of_mem _ hl)))
      h.ends.isWholeImport

/-- A passage is sorted on its own. -/
theorem hoistFrom_passage {p : Passage} (h : p.IsSettled) (rest : List (List Char)) :
    (hoistFrom none (p.lines ++ rest)).imports = p.import?.toList ++ (hoistFrom none rest).imports ∧
      (hoistFrom none (p.lines ++ rest)).rest =
        p.ordinary?.toList ++ (hoistFrom none rest).rest := by
  cases p with
  | declaration first more =>
    rw [Passage.lines, hoistFrom_declaration h]
    exact ⟨rfl, rfl⟩
  | ordinary line =>
    have hline : ¬ beginsImport (Text.trim line) = true := Bool.eq_false_iff.1 h
    rw [Passage.lines, List.singleton_append, hoistFrom, if_neg hline]
    exact ⟨rfl, rfl⟩

/-- **Only imports are moved out.** For a script made of import declarations and other lines, the
imports are the declarations, and all other lines are left, both in order. -/
theorem sortsInto_of_settled {script : List Char} {passages : List Passage}
    (hlines : Text.lines script = passages.flatMap Passage.lines)
    (hpassages : ∀ p ∈ passages, p.IsSettled) :
    SortsInto script passages := by
  rw [SortsInto, hoist, hlines]
  clear hlines
  induction passages with
  | nil => exact ⟨rfl, rfl⟩
  | cons p passages ih =>
    obtain ⟨himports, hrest⟩ := hoistFrom_passage (hpassages p List.mem_cons_self)
      (passages.flatMap Passage.lines)
    obtain ⟨ihimports, ihrest⟩ := ih fun p hp => hpassages p (List.mem_cons_of_mem _ hp)
    rw [List.flatMap_cons, himports, hrest, ihimports, ihrest]
    constructor
    · cases hp : p.import? with
      | none => rw [List.filterMap_cons_none hp]; rfl
      | some statement => rw [List.filterMap_cons_some hp]; rfl
    · cases hp : p.ordinary? with
      | none => rw [List.filterMap_cons_none hp]; rfl
      | some line => rw [List.filterMap_cons_some hp]; rfl

/-- Two declarations, the first over several lines, and two properties. -/
theorem sortsInto_of_settled_interleaved :
    SortsInto
      ("import \x7b\n  a\n\x7d from './a';\nexport let b;\n".toList ++
        "  import 'c'\nexport let d = 1;\n".toList)
      [.declaration "import \x7b".toList ["  a".toList, "\x7d from './a';".toList],
        .ordinary "export let b;".toList, .declaration "  import 'c'".toList [],
        .ordinary "export let d = 1;".toList] := by
  refine sortsInto_of_settled (by decide) fun p hp => ?_
  simp only [List.mem_cons, List.not_mem_nil, or_false] at hp
  rcases hp with rfl | rfl | rfl | rfl
  · refine ⟨by decide, ?_, "\x7d from ".toList, '\'', "./a".toList, [';'], rfl,
      .inr rfl, ?_⟩
    · refine List.forall_mem_cons.2 ⟨?_, List.forall_mem_singleton.2 ?_⟩
      all_goals
        rintro c ⟨⟩
        rfl
    · rintro c ⟨⟩
      rfl
  · show _ = _
    decide
  · refine ⟨by decide, ?_, "  import ".toList, '\'', ['c'], [], rfl, .inr rfl, ?_⟩
    · exact List.forall_mem_nil _
    · rintro c ⟨⟩
  · show _ = _
    decide

/-- Behind a comment an import declaration goes on, and takes the property below with it. -/
theorem not_sortsInto_commented :
    beginsImport "import a from './a' // first".toList ∧ ¬ beginsImport "export let b;".toList ∧
      Text.lines "import a from './a' // first\nexport let b;\n".toList =
        ["import a from './a' // first".toList, "export let b;".toList] ∧
      (hoist "import a from './a' // first\nexport let b;\n".toList).imports =
        ["import a from './a' // first\nexport let b;".toList] ∧
      ¬ SortsInto "import a from './a' // first\nexport let b;\n".toList
        [.declaration "import a from './a' // first".toList [],
          .ordinary "export let b;".toList] := by
  refine ⟨by decide, by decide, by decide, by decide, fun h => ?_⟩
  exact absurd h.2 (by decide)

end SvelteTypings.Component

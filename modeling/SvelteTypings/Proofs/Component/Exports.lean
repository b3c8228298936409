import SvelteTypings.Generation.Synthesis
import SvelteTypings.Proofs.Compiler.Session
import SvelteTypings.Proofs.Component.Statements

/-!
# What a component exports

The declaration file of the script that stands for a component. A component is exported by what has
been rendered for it, if its parts leave nothing open for the lexer (`Parts.IsClosed`).
-/

namespace SvelteTypings

namespace Component

open Script Text.Writer

variable {name : String} {p : Parts}

/-- The lines of the intermediate file above its first block. -/
def Parts.fileTop (p : Parts) : List String := Generation.referenceDirectives ++ p.topLines

/-- No comment, template or bracket is left open, and none is closed that is not open, at the top of
the file and in each interface. The top ends where a statement may end. -/
structure Parts.IsFramed (p : Parts) : Prop where
  top : isClosed (joinLines p.fileTop)
  ends : endsStatement (tokenize (joinLines p.fileTop))
  properties : isClosed (joinLines ((p.properties.map propertyLine).map (indented 1)))
  events : isClosed (joinLines ((eventLines p.events).map (indented 1)))
  slots : isClosed (joinLines ((p.slots.map slotLine).map (indented 1)))

/-- Nor in the body of the function. -/
structure Parts.IsClosed (p : Parts) : Prop extends p.IsFramed where
  body : isClosed (joinLines (p.bodyLines.map (indented 1)))

/-! ## The top of the file -/

/-- The top of the intermediate file, if the component adds nothing to it. -/
def plainTop : List String := Generation.referenceDirectives ++ [importLine]

theorem trimmed_of_mem_plainTop :
    ∀ l ∈ plainTop, trimmed l = l ∧ l.toList.all fun c => c ≠ '\n' && c ≠ '\r' := by
  have hkept {cs : List Char} (htrim : Text.trim cs = cs)
      (hline : cs.all fun c => c ≠ '\n' && c ≠ '\r') :
      trimmed (String.ofList cs) = String.ofList cs ∧
        (String.ofList cs).toList.all fun c => c ≠ '\n' && c ≠ '\r' := by
    rw [trimmed, String.toList_ofList, htrim]
    exact ⟨rfl, hline⟩
  intro l hl
  rw [plainTop, Generation.referenceDirectives, importLine] at hl
  simp only [List.cons_append, List.nil_append, List.mem_cons, List.not_mem_nil, or_false] at hl
  rcases hl with rfl | rfl | rfl <;> exact hkept (by decide) (by decide)

theorem referenceDirectives_unlines (p : Parts) (ls : List String) :
    Script.referenceDirectives (unlines (p.fileTop ++ ls)) = Generation.referenceDirectives := by
  have hkept := trimmed_of_mem_plainTop
  rw [plainTop] at hkept
  rw [Script.referenceDirectives, Parts.fileTop, Parts.topLines]
  rw [Generation.referenceDirectives] at hkept ⊢
  simp only [List.cons_append, List.nil_append, List.forall_mem_cons] at hkept ⊢
  obtain ⟨⟨hfirst, hfirstLine⟩, ⟨hsecond, hsecondLine⟩, ⟨himport, himportLine⟩, -⟩ := hkept
  rw [linesOf_unlines_cons hfirstLine, linesOf_unlines_cons hsecondLine,
    linesOf_unlines_cons himportLine, List.map_cons, List.map_cons, List.map_cons, hfirst, hsecond,
    himport, importLine]
  -- the import ends the run of comments
  rw [List.takeWhile_cons_of_pos, List.takeWhile_cons_of_pos, List.takeWhile_cons_of_neg,
    List.filter_cons_of_pos, List.filter_cons_of_pos, List.filter_nil]
  all_goals
    repeat rw [lineStarts_ofList]
    decide

/-! ## The declaration file -/

/-- The declaration file that is emitted for the intermediate file of a component. -/
def declarationFile (o : CompilerOptions) (source : String) (path : Path) : Except Failure String :=
  (typing source path).map fun text => declarations o (Generation.directiveText ++ text)

theorem declarationFile_of_parts (o : CompilerOptions) {source : String} (path : Path)
    (h : parts source = .ok p) :
    declarationFile o source path = .ok (joinLines (Generation.referenceDirectives ++
      declarationLines o (scan (unlines (p.fileTop ++
        (renderBlock p :: exportBlocks (className path) p).flatMap Block.spaced)))) ++ "\n") := by
  have hsource : Generation.directiveText ++ render (className path) p = unlines (p.fileTop ++
      (renderBlock p :: exportBlocks (className path) p).flatMap Block.spaced) := by
    rw [render_eq, Parts.fileTop, List.append_assoc, unlines_append Generation.referenceDirectives]
    rfl
  rw [declarationFile, typing, h]
  show Except.ok (declarations o (Generation.directiveText ++ render (className path) p)) = _
  rw [declarations, hsource, referenceDirectives_unlines]

theorem Parts.IsFramed.isWhole (hp : p.IsFramed) (hname : Lexeme.isName name.toList) :
    ∀ b ∈ exportBlocks name p, ∃ head, b.IsWhole head := by
  obtain ⟨hprops, hevents, hslots⟩ := isName_interfaces hname
  intro b hb
  simp only [exportBlocks, List.mem_cons, List.not_mem_nil, or_false] at hb
  rcases hb with rfl | rfl | rfl | rfl
  · exact ⟨_, isWhole_interface hprops hp.properties⟩
  · exact ⟨_, isWhole_interface hevents hp.events⟩
  · exact ⟨_, isWhole_interface hslots hp.slots⟩
  · exact ⟨_, isWhole_class hname⟩

theorem filterMap_exportBlocks (o : CompilerOptions) (hp : p.IsFramed)
    (hname : Lexeme.isName name.toList) :
    ((exportBlocks name p).map fun b => (⟨tokenize b.text, none⟩ : Statement)).filterMap
      (declaration? o) = (exportBlocks name p).map Block.text := by
  obtain ⟨hprops, hevents, hslots⟩ := isName_interfaces hname
  simp only [exportBlocks, List.map_cons, List.map_nil, List.filterMap_cons, List.filterMap_nil,
    declaration?_interface o hprops hp.properties, declaration?_interface o hevents hp.events,
    declaration?_interface o hslots hp.slots, declaration?_class o hname]

theorem fileTop_ne_nil (p : Parts) : p.fileTop ≠ [] := by
  simp [Parts.fileTop, Parts.topLines]

/-- **A component is exported.** Its declaration file has the three interfaces and the class, each
as they were rendered, below what the top of the intermediate file declares; what stands in the
function declares nothing. -/
theorem declarationFile_of_isClosed (o : CompilerOptions) {source : String} (path : Path)
    (h : parts source = .ok p) (hp : p.IsClosed) :
    declarationFile o source path = .ok (joinLines (Generation.referenceDirectives ++
      ((scan (joinLines p.fileTop)).filterMap (declaration? o) ++
        (exportBlocks (className path) p).map Block.text)) ++ "\n") := by
  have hname := isName_className path
  have hrender : (renderBlock p).IsWhole renderHead := ⟨hasHead_render p, hp.body⟩
  obtain ⟨opening, newline, closing, -, -, -, htext⟩ := hrender.tokenize_text
  obtain ⟨doc, hscan⟩ := scan_blocks (fileTop_ne_nil p) hp.top hp.ends
    (List.forall_mem_cons.2 ⟨⟨_, hrender⟩, hp.isWhole hname⟩)
  have hdeclared : (scan (unlines (p.fileTop ++
      (renderBlock p :: exportBlocks (className path) p).flatMap Block.spaced))).filterMap
      (declaration? o) = (scan (joinLines p.fileTop)).filterMap (declaration? o) ++
        (exportBlocks (className path) p).map Block.text := by
    rw [hscan, List.filterMap_append, htext, List.filterMap_cons_none (declaration?_render o _ doc),
      filterMap_exportBlocks o hp.toIsFramed hname]
  rw [declarationFile_of_parts o path h, declarationLines, hdeclared]
  split
  · next hnil => exact absurd (List.append_eq_nil_iff.1 hnil).2 (by simp [exportBlocks])
  · rfl

/-- **A bracket that is left open in the script takes the exports.** The declaration file has only
what the top of the intermediate file declares. -/
theorem declarationFile_of_unclosed (o : CompilerOptions) {source : String} (path : Path) {d : Nat}
    (h : parts source = .ok p) (hp : p.IsFramed)
    (hended : Lexeme.isEnded (joinLines (p.bodyLines.map (indented 1))).toList)
    (hopen : depthOver 0 (tokenize (joinLines (p.bodyLines.map (indented 1)))) = some (d + 1)) :
    declarationFile o source path = .ok (joinLines (Generation.referenceDirectives ++
      declarationLines o (scan (joinLines p.fileTop))) ++ "\n") := by
  obtain ⟨us, doc, hscan⟩ := scan_unclosed (fileTop_ne_nil p) hp.top hp.ends (hasHead_render p)
    hended hopen (hp.isWhole (isName_className path))
  have hnone : [(⟨Lexeme.tokensAfter [] renderHead ++ us, doc⟩ : Statement)].filterMap
      (declaration? o) = [] := List.filterMap_cons_none (declaration?_render o us doc)
  rw [declarationFile_of_parts o path h, hscan, declarationLines, List.filterMap_append, hnone,
    List.append_nil]
  rfl

/-! ## Components without imports -/

theorem fileTop_eq (himports : p.imports = []) (hscript : p.moduleScript = none) :
    p.fileTop = plainTop := by
  rw [Parts.fileTop, Parts.topLines, himports, hscript]
  rfl

/-- What stands above the first block of such a component is closed and declares the import. -/
theorem plainTop_spec :
    isClosed (joinLines plainTop) ∧ endsStatement (tokenize (joinLines plainTop)) ∧
      (scan (joinLines plainTop)).filterMap (declaration? {}) = [importLine] := by
  unfold scan isClosed joinLines plainTop Generation.referenceDirectives importLine
  simp only [List.cons_append, List.nil_append, String.intercalate_cons_cons,
    String.intercalate_singleton]
  -- The three lines become one list of characters.
  repeat rw [← String.ofList_append]
  rw [tokenize_ofList, String.toList_ofList]
  refine ⟨?_, ?_, ?_⟩ <;> decide +kernel

theorem isFramed_of_plain (himports : p.imports = []) (hscript : p.moduleScript = none)
    (hproperties : isClosed (joinLines ((p.properties.map propertyLine).map (indented 1))))
    (hevents : isClosed (joinLines ((eventLines p.events).map (indented 1))))
    (hslots : isClosed (joinLines ((p.slots.map slotLine).map (indented 1)))) : p.IsFramed := by
  obtain ⟨htop, hends, -⟩ := plainTop_spec
  rw [← fileTop_eq himports hscript] at htop hends
  exact ⟨htop, hends, hproperties, hevents, hslots⟩

/-- A component with a property and a slot. -/
def titled : String :=
  "<script lang=\"ts\">\n  export let title: string;\n</script>\n<h1>\x7btitle\x7d</h1>\n<slot />\n"

def titledParts : Parts :=
  { moduleScript := none
    imports := []
    body := "\n  let title: string;\n"
    properties := [⟨"title", "string", false⟩]
    events := none
    slots := [⟨"default", []⟩] }

theorem declarationFile_titled : parts titled = .ok titledParts ∧ titledParts.IsClosed ∧
    declarationFile {} titled (.ofString "/s/Card.svelte") =
      .ok (unlines (Generation.referenceDirectives ++
        [importLine,
          "export interface CardProps \x7b",
          "  title: string;",
          "\x7d",
          "export interface CardEvents \x7b",
          "  [evt: string]: CustomEvent<any>;",
          "\x7d",
          "export interface CardSlots \x7b",
          "  default: \x7b\x7d;",
          "\x7d",
          "export default class Card extends SvelteComponentTyped<CardProps, CardEvents, CardSlots> \x7b",
          "\x7d"])) := by
  have hparts : parts titled = .ok titledParts := by
    unfold parts blocks titled
    rw [String.toList_ofList]
    exact eq_ok_of_toOption (by decide +kernel)
  have hclosed : titledParts.IsClosed :=
    ⟨isFramed_of_plain rfl rfl (by decide +kernel) (by decide +kernel) (by decide +kernel),
      by decide +kernel⟩
  refine ⟨hparts, hclosed, ?_⟩
  rw [declarationFile_of_isClosed {} _ hparts hclosed, fileTop_eq rfl rfl, plainTop_spec.2.2]
  refine congrArg Except.ok ?_
  decide +kernel

/-- A component whose script holds a pattern. The lexer knows no patterns, and takes the brace in it
for one that opens. -/
def patterned : String := "<script lang=\"ts\">\n  const open = /[\x7b]/;\n</script>\n"

def patternedParts : Parts :=
  { moduleScript := none
    imports := []
    body := "\n  const open = /[\x7b]/;\n"
    properties := []
    events := none
    slots := [] }

theorem declarationFile_patterned :
    declarationFile {} patterned (.ofString "/s/A.svelte") =
      .ok (unlines (Generation.referenceDirectives ++ [importLine])) := by
  have hparts : parts patterned = .ok patternedParts := by
    unfold parts blocks patterned
    rw [String.toList_ofList]
    exact eq_ok_of_toOption (by decide +kernel)
  have hframed : patternedParts.IsFramed :=
    isFramed_of_plain rfl rfl (by decide +kernel) (by decide +kernel) (by decide +kernel)
  rw [declarationFile_of_unclosed (d := 0) {} _ hparts hframed (by decide +kernel) (by decide +kernel),
    fileTop_eq rfl rfl, declarationLines, plainTop_spec.2.2]
  refine congrArg Except.ok ?_
  decide

end Component

end SvelteTypings

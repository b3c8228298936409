import SvelteTypings.Component.Typing
import SvelteTypings.Proofs.Script.Layout

/-!
# The lines of a typing

What a component is rendered to, line by line: lines at the top, and five blocks (`render_eq`).
-/

namespace SvelteTypings

namespace Text.Writer

/-- A line at a level of indentation. -/
def indented (level : Nat) (line : String) : String :=
  if line.isEmpty then "" else String.ofList (List.replicate (2 * level) ' ') ++ line

/-- The lines of a block without their margin. -/
def blockLines (block : List Char) : List String :=
  (lines block).map fun line => String.ofList (shifted (margin (lines block)) line)

theorem addLine_eq (text : String) (level : Nat) (line : String) :
    addLine ⟨text, level⟩ line = ⟨text ++ unlines [indented level line], level⟩ := by
  rw [addLine, indented, unlines_cons]
  split
  · rfl
  · simp [indentation, add, unlines]

theorem addLines_eq (text : String) (level : Nat) (ls : List String) :
    addLines ⟨text, level⟩ ls = ⟨text ++ unlines (ls.map (indented level)), level⟩ := by
  induction ls generalizing text with
  | nil => simp [addLines, unlines]
  | cons l ls ih =>
    have hcons : addLines ⟨text, level⟩ (l :: ls) = (addLine ⟨text, level⟩ l).addLines ls := rfl
    rw [hcons, addLine_eq, ih, String.append_assoc, ← unlines_append]
    rfl

theorem addLines_concat (w : Writer) (ls : List String) (l : String) :
    w.addLines (ls ++ [l]) = (w.addLines ls).addLine l := by
  rw [addLines, List.foldl_append]
  rfl

theorem indent_eq (text : String) (level : Nat) : indent ⟨text, level⟩ = ⟨text, level + 1⟩ := rfl

theorem dedent_eq (text : String) (level : Nat) : dedent ⟨text, level + 1⟩ = ⟨text, level⟩ := rfl

theorem indented_zero (line : String) : indented 0 line = line := by
  rw [indented]
  split
  · next h => simpa using h.symm
  · simp

theorem map_indented_zero (ls : List String) : ls.map (indented 0) = ls := by
  simp [funext indented_zero]

/-- Indented lines between a head and a brace. -/
theorem addBraced_eq (text head : String) (ls : List String) :
    (((addLine ⟨text, 0⟩ head).indent.addLines ls).dedent).addLine "\x7d" =
      ⟨text ++ unlines (Script.Block.mk head (ls.map (indented 1))).lines, 0⟩ := by
  simp only [addLine_eq, addLines_eq, indent_eq, dedent_eq, indented_zero, String.append_assoc,
    ← unlines_append]
  rfl

end Text.Writer

namespace Component

open Text.Writer
open Script (Block)

variable {name : String} {p : Parts}

/-- The import of the class that every component extends. -/
def importLine : String := "import \x7b SvelteComponentTyped \x7d from \"svelte\";"

/-- The lines above the first block. -/
def Parts.topLines (p : Parts) : List String :=
  importLine :: (p.imports ++
    match p.moduleScript with
    | some script => blockLines (trimNewlines script)
    | none => [])

def Parts.bodyLines (p : Parts) : List String :=
  blockLines (trimNewlines p.body) ++
    ["return \x7b props: \x7b " ++ String.intercalate ", " (p.properties.map (·.name)) ++ " \x7d \x7d;"]

/-- The function that the instance script is the body of. -/
def renderBlock (p : Parts) : Block := ⟨"function render() \x7b", p.bodyLines.map (indented 1)⟩

def interfaceBlock (name : String) (members : List String) : Block :=
  ⟨"export interface " ++ name ++ " \x7b", members.map (indented 1)⟩

def classBlock (name : String) : Block :=
  ⟨"export default class " ++ name ++ " extends SvelteComponentTyped<" ++ name ++ "Props, " ++ name ++
    "Events, " ++ name ++ "Slots> \x7b", []⟩

/-- The blocks that declare a component. -/
def exportBlocks (name : String) (p : Parts) : List Block :=
  [interfaceBlock (name ++ "Props") (p.properties.map propertyLine),
    interfaceBlock (name ++ "Events") (eventLines p.events),
    interfaceBlock (name ++ "Slots") (p.slots.map slotLine),
    classBlock name]

theorem writeHead_eq (p : Parts) (text : String) :
    writeHead p ⟨text, 0⟩ = ⟨text ++ unlines (p.topLines ++ [""]), 0⟩ := by
  have hlines : writeHead p ⟨text, 0⟩ = addLines ⟨text, 0⟩ (p.topLines ++ [""]) := by
    rw [addLines_concat, writeHead, Parts.topLines]
    cases p.moduleScript with
    | none => rw [List.append_nil]; rfl
    | some script => simp only [addLines, List.foldl_cons, List.foldl_append, addBlock]; rfl
  rw [hlines, addLines_eq, map_indented_zero]

theorem writeBody_eq (p : Parts) (text : String) :
    writeBody p ⟨text, 0⟩ = ⟨text ++ unlines ((renderBlock p).lines ++ [""]), 0⟩ := by
  have hlines : writeBody p ⟨text, 0⟩ =
      ((((addLine ⟨text, 0⟩ "function render() \x7b").indent.addLines
        p.bodyLines).dedent).addLine "\x7d").addLine "" := by
    rw [Parts.bodyLines, addLines_concat]
    rfl
  rw [hlines, addBraced_eq, addLine_eq, indented_zero, String.append_assoc, ← unlines_append]
  rfl

theorem writeInterface_eq (name : String) (members : List String) (text : String) :
    writeInterface name members ⟨text, 0⟩ =
      ⟨text ++ unlines ((interfaceBlock name members).lines ++ [""]), 0⟩ := by
  rw [writeInterface, addBraced_eq, addLine_eq, indented_zero, String.append_assoc, ← unlines_append]
  rfl

theorem writeClass_eq (name : String) (text : String) :
    writeClass name ⟨text, 0⟩ = ⟨text ++ unlines (classBlock name).lines, 0⟩ := by
  have hlines : writeClass name ⟨text, 0⟩ =
      ((((addLine ⟨text, 0⟩ (classBlock name).head).indent.addLines []).dedent).addLine "\x7d") := rfl
  rw [hlines, addBraced_eq]
  rfl

/-- **What a component is rendered to**: the lines at the top, and the blocks below them. -/
theorem render_eq (name : String) (p : Parts) :
    render name p =
      unlines (p.topLines ++ (renderBlock p :: exportBlocks name p).flatMap Block.spaced) := by
  rw [render, Text.Writer.empty, writeHead_eq, writeBody_eq, writeInterface_eq, writeInterface_eq,
    writeInterface_eq, writeClass_eq]
  simp only [String.empty_append, ← unlines_append]
  simp [exportBlocks, Block.spaced]

end Component

end SvelteTypings

import SvelteTypings.Proofs.Component.Rendering
import SvelteTypings.Proofs.Script.Declaring

/-!
# The statements of a typing

Each block of a typing is one statement, if its lines leave nothing open. The interfaces and the
class are declared as they stand, and the function between them is not declared.
-/

namespace SvelteTypings

namespace Component

open Script Text.Writer

/-! ## Names -/

theorem isAlphanum_toUpper {c : Char} (h : c.isAlphanum) : c.toUpper.isAlphanum := by
  unfold Char.toUpper
  split
  · next hlower =>
    have hle := UInt32.le_iff_toNat_le.1 hlower.1
    have hge := UInt32.le_iff_toNat_le.1 hlower.2
    refine Bool.or_eq_true_iff.2 (.inl (Bool.or_eq_true_iff.2 (.inl (decide_eq_true ?_))))
    simp [UInt32.le_iff_toNat_le] at *
    omega
  · exact h

theorem isAlphanum_of_mem_pascalFrom {atStart : Bool} {cs : List Char} {c : Char}
    (h : c ∈ pascalFrom atStart cs) : c.isAlphanum := by
  induction cs generalizing atStart with
  | nil => simp [pascalFrom] at h
  | cons d cs ih =>
    rw [pascalFrom] at h
    split at h
    · next hd =>
      rcases List.mem_cons.1 h with rfl | h
      · split
        · exact isAlphanum_toUpper hd
        · exact hd
      · exact ih h
    · exact ih h

/-- The name of a class is read as one name. -/
theorem isName_className (path : Path) : Lexeme.isName (className path).toList := by
  rw [className]
  cases hname : pascalFrom true (fileStem path) with
  | nil => decide
  | cons c cs =>
    have halnum : ∀ x ∈ c :: cs, x.isAlphanum := fun x hx =>
      isAlphanum_of_mem_pascalFrom (hname ▸ hx)
    have hrest : ∀ x ∈ c :: cs, Lexeme.isIdentRest x := fun x hx => by
      simp [Lexeme.isIdentRest, halnum x hx]
    rw [String.toList_ofList]
    split
    · rw [Lexeme.isName, List.all_eq_true.2 hrest]
      rfl
    · next hdigit =>
      have halpha : c.isAlpha := by simpa [Char.isAlphanum, hdigit] using halnum c List.mem_cons_self
      have hcs : cs.all Lexeme.isIdentRest :=
        List.all_eq_true.2 fun x hx => hrest x (List.mem_cons_of_mem _ hx)
      simp [Lexeme.isName, Lexeme.isIdentStart, halpha, hcs]

/-! ## Interfaces -/

variable {name : String} {members : List String}

/-- The head of an interface, cut. -/
def interfaceHead (name : String) : List Lexeme :=
  [⟨.token .ident, "export".toList⟩, ⟨.blank, [' ']⟩, ⟨.token .ident, "interface".toList⟩,
    ⟨.blank, [' ']⟩, ⟨.token .ident, name.toList⟩, ⟨.blank, [' ']⟩]

theorem read_interfaceHead (hname : Lexeme.isName name.toList) :
    Lexeme.read (interfaceBlock name members).head.toList =
      interfaceHead name ++ [⟨.token .openBrace, ['\x7b']⟩] := by
  have hbrace : Lexeme.read ['\x7b'] = [⟨.token .openBrace, ['\x7b']⟩] := by decide +kernel
  have hexport : Lexeme.isName "export".toList := by decide
  have hinterface : Lexeme.isName "interface".toList := by decide
  have hhead : (interfaceBlock name members).head.toList =
      "export".toList ++ ' ' :: ("interface".toList ++ ' ' :: (name.toList ++ ' ' :: ['\x7b'])) := by
    have hstart : "export interface ".toList =
        "export".toList ++ ' ' :: ("interface".toList ++ [' ']) := by decide
    have hend : " \x7b".toList = [' ', '\x7b'] := by decide
    show ("export interface " ++ name ++ " \x7b").toList = _
    rw [String.toList_append, String.toList_append, hstart, hend]
    simp only [List.append_assoc, List.cons_append, List.nil_append]
  rw [hhead, Lexeme.read_name hexport (by decide), Lexeme.read_space_name hinterface,
    Lexeme.read_name hinterface (by decide), Lexeme.read_space_name hname,
    Lexeme.read_name hname (by decide), Lexeme.read_space (by decide), hbrace]
  rfl

theorem isWhole_interface (hname : Lexeme.isName name.toList)
    (hmembers : isClosed (joinLines (members.map (indented 1)))) :
    (interfaceBlock name members).IsWhole (interfaceHead name) where
  read := read_interfaceHead hname
  first := ⟨.ident, "export".toList, rfl, by decide⟩
  plain := List.all_eq_true.1 rfl
  balanced := rfl
  closed := hmembers

theorem declaration?_interface (o : CompilerOptions) (hname : Lexeme.isName name.toList)
    (hmembers : isClosed (joinLines (members.map (indented 1)))) :
    declaration? o ⟨tokenize (interfaceBlock name members).text, none⟩ =
      some (interfaceBlock name members).text := by
  have hwhole := isWhole_interface hname hmembers
  obtain ⟨opening, newline, closing, -, -, -, htext⟩ := hwhole.tokenize_text
  rw [declaration?, statementText?_of_interface o htext (by decide) (by decide), Statement.text,
    hwhole.span_text, terminate_of_getLast? (Block.getLast?_text _)]
  rfl

/-! ## The class -/

/-- The head of the class, cut. -/
def classHead (name : String) : List Lexeme :=
  [⟨.token .ident, "export".toList⟩, ⟨.blank, [' ']⟩, ⟨.token .ident, "default".toList⟩,
    ⟨.blank, [' ']⟩, ⟨.token .ident, "class".toList⟩, ⟨.blank, [' ']⟩, ⟨.token .ident, name.toList⟩,
    ⟨.blank, [' ']⟩, ⟨.token .ident, "extends".toList⟩, ⟨.blank, [' ']⟩,
    ⟨.token .ident, "SvelteComponentTyped".toList⟩, ⟨.token .less, ['<']⟩,
    ⟨.token .ident, (name ++ "Props").toList⟩, ⟨.token .comma, [',']⟩, ⟨.blank, [' ']⟩,
    ⟨.token .ident, (name ++ "Events").toList⟩, ⟨.token .comma, [',']⟩, ⟨.blank, [' ']⟩,
    ⟨.token .ident, (name ++ "Slots").toList⟩, ⟨.token .greater, ['>']⟩, ⟨.blank, [' ']⟩]

theorem toList_classHead (name : String) :
    (classBlock name).head.toList =
      "export".toList ++ ' ' :: ("default".toList ++ ' ' :: ("class".toList ++ ' ' ::
        (name.toList ++ ' ' :: ("extends".toList ++ ' ' :: ("SvelteComponentTyped".toList ++ '<' ::
          ((name ++ "Props").toList ++ ',' :: ' ' :: ((name ++ "Events").toList ++ ',' :: ' ' ::
            ((name ++ "Slots").toList ++ '>' :: ' ' :: ['\x7b'])))))))) := by
  have hstart : "export default class ".toList =
      "export".toList ++ ' ' :: ("default".toList ++ ' ' :: ("class".toList ++ [' '])) := by decide
  have hextends : " extends SvelteComponentTyped<".toList =
      ' ' :: ("extends".toList ++ ' ' :: ("SvelteComponentTyped".toList ++ ['<'])) := by decide
  have hprops : "Props, ".toList = "Props".toList ++ [',', ' '] := by decide
  have hevents : "Events, ".toList = "Events".toList ++ [',', ' '] := by decide
  have hslots : "Slots> \x7b".toList = "Slots".toList ++ ['>', ' ', '\x7b'] := by decide
  show ("export default class " ++ name ++ " extends SvelteComponentTyped<" ++ name ++ "Props, " ++
    name ++ "Events, " ++ name ++ "Slots> \x7b").toList = _
  simp only [String.toList_append, hstart, hextends, hprops, hevents, hslots, List.append_assoc,
    List.cons_append, List.nil_append]

theorem isName_interfaces (hname : Lexeme.isName name.toList) :
    Lexeme.isName (name ++ "Props").toList ∧ Lexeme.isName (name ++ "Events").toList ∧
      Lexeme.isName (name ++ "Slots").toList := by
  simp only [String.toList_append]
  exact ⟨Lexeme.isName_append hname (by decide), Lexeme.isName_append hname (by decide),
    Lexeme.isName_append hname (by decide)⟩

theorem read_classHead (hname : Lexeme.isName name.toList) :
    Lexeme.read (classBlock name).head.toList =
      classHead name ++ [⟨.token .openBrace, ['\x7b']⟩] := by
  have hbrace : Lexeme.read ['\x7b'] = [⟨.token .openBrace, ['\x7b']⟩] := by decide +kernel
  have hexport : Lexeme.isName "export".toList := by decide
  have hdefault : Lexeme.isName "default".toList := by decide
  have hclass : Lexeme.isName "class".toList := by decide
  have hextends : Lexeme.isName "extends".toList := by decide
  have hbase : Lexeme.isName "SvelteComponentTyped".toList := by decide
  obtain ⟨hprops, hevents, hslots⟩ := isName_interfaces hname
  rw [toList_classHead, Lexeme.read_name hexport (by decide), Lexeme.read_space_name hdefault,
    Lexeme.read_name hdefault (by decide), Lexeme.read_space_name hclass,
    Lexeme.read_name hclass (by decide), Lexeme.read_space_name hname,
    Lexeme.read_name hname (by decide), Lexeme.read_space_name hextends,
    Lexeme.read_name hextends (by decide), Lexeme.read_space_name hbase,
    Lexeme.read_name hbase (by decide), Lexeme.read_punctuation (k := .less) rfl,
    Lexeme.read_name hprops (by decide), Lexeme.read_punctuation (k := .comma) rfl,
    Lexeme.read_space_name hevents, Lexeme.read_name hevents (by decide),
    Lexeme.read_punctuation (k := .comma) rfl, Lexeme.read_space_name hslots,
    Lexeme.read_name hslots (by decide), Lexeme.read_punctuation (k := .greater) rfl,
    Lexeme.read_space (by decide), hbrace]
  rfl

theorem isWhole_class (hname : Lexeme.isName name.toList) :
    (classBlock name).IsWhole (classHead name) where
  read := read_classHead hname
  first := ⟨.ident, "export".toList, rfl, by decide⟩
  plain := List.all_eq_true.1 rfl
  balanced := rfl
  closed := show isClosed (joinLines []) by decide +kernel

/-- The tokens of the class from `class` to `>`. -/
def classTokens (name : String) : List Token :=
  [⟨.ident, " ", "class"⟩, ⟨.ident, " ", name⟩, ⟨.ident, " ", "extends"⟩,
    ⟨.ident, " ", "SvelteComponentTyped"⟩, ⟨.less, "", "<"⟩, ⟨.ident, "", name ++ "Props"⟩,
    ⟨.comma, "", ","⟩, ⟨.ident, " ", name ++ "Events"⟩, ⟨.comma, "", ","⟩,
    ⟨.ident, " ", name ++ "Slots"⟩, ⟨.greater, "", ">"⟩]

theorem tokensAfter_classHead (name : String) :
    Lexeme.tokensAfter [] (classHead name) =
      ⟨.ident, "", "export"⟩ :: ⟨.ident, " ", "default"⟩ :: classTokens name := by
  simp only [classHead, Lexeme.tokensAfter, String.ofList_toList]
  rfl

/-- The text of these tokens. -/
def classHeader (name : String) : String :=
  "class " ++ (name ++ (" extends SvelteComponentTyped<" ++ (name ++ ("Props, " ++ (name ++
    ("Events, " ++ (name ++ "Slots>")))))))

theorem span_classTokens (name : String) :
    Token.span (Token.significant (classTokens name)) = classHeader name := by
  have hsignificant : Token.significant (classTokens name) = classTokens name := rfl
  have hclass : "class " = "class" ++ " " := by decide
  have hextends : " extends SvelteComponentTyped<" =
      " " ++ ("extends" ++ (" " ++ ("SvelteComponentTyped" ++ "<"))) := by decide
  have hprops : "Props, " = "Props" ++ ("," ++ " ") := by decide
  have hevents : "Events, " = "Events" ++ ("," ++ " ") := by decide
  have hslots : "Slots>" = "Slots" ++ ">" := by decide
  rw [hsignificant, classHeader, hclass, hextends, hprops, hevents, hslots]
  simp only [classTokens, Token.span, Token.spaced, List.map_cons, List.map_nil, String.join_cons,
    String.join_nil, String.append_assoc, String.empty_append, String.append_empty]

theorem spanText?_classTokens (name : String) :
    spanText? (Token.significant (classTokens name)) = some (classHeader name) := by
  rw [spanText?_of_ends (c := 'c') (d := '>') ?_ ?_ (by decide) (by decide), span_classTokens]
  · rw [span_classTokens, classHeader, String.toList_append, List.head?_append]
    rfl
  · rw [span_classTokens]
    simp only [classHeader, ← String.append_assoc]
    rw [String.toList_append, List.getLast?_append]
    rfl

theorem text_classBlock (name : String) :
    (classBlock name).text = "export default " ++ classHeader name ++ " \x7b\n" ++ "\x7d" := by
  have hstart : "export default class " = "export default " ++ "class " := by decide
  have hend : "Slots> \x7b" = "Slots>" ++ " \x7b" := by decide
  have hline : " \x7b\n" = " \x7b" ++ "\n" := by decide
  have hinner : unlines (classBlock name).inner = "" := by
    show String.join [] = ""
    exact String.join_nil
  have hhead : (classBlock name).head = "export default class " ++ name ++
      " extends SvelteComponentTyped<" ++ name ++ "Props, " ++ name ++ "Events, " ++ name ++
      "Slots> \x7b" := rfl
  rw [Block.text_eq, hinner, hhead, classHeader, hstart, hend, hline]
  simp only [String.append_assoc, String.empty_append]

/-- The class is declared as it stands. -/
theorem classText?_class (o : CompilerOptions) {opening newline closing : Token}
    (hopening : opening.kind = .openBrace) (hnewline : newline.kind = .newline)
    (hclosing : closing.kind = .closeBrace) :
    classText? o "export default " (classTokens name ++ [opening, newline, closing]) =
      some (classBlock name).text := by
  have hcut : cutClass? (classTokens name ++ [opening, newline, closing]) =
      some (classTokens name, [newline]) := by
    obtain ⟨_, _, _⟩ := opening
    obtain ⟨_, _, _⟩ := newline
    obtain ⟨_, _, _⟩ := closing
    simp only at hopening hnewline hclosing
    subst hopening hnewline hclosing
    rfl
  have hmembers : splitStatements [newline] = [] := by
    rw [splitStatements, splitFrom, if_pos hnewline, if_pos (by rfl), splitFrom]
    rfl
  rw [classText?, hcut, text_classBlock]
  simp only [Option.bind_eq_bind, Option.bind_some, spanText?_classTokens, hmembers,
    List.filterMap_nil, List.map_nil, String.join_nil, String.append_empty]
  rfl

theorem declaration?_class (o : CompilerOptions) (hname : Lexeme.isName name.toList) :
    declaration? o ⟨tokenize (classBlock name).text, none⟩ = some (classBlock name).text := by
  obtain ⟨opening, newline, closing, hopening, hnewline, hclosing, htext⟩ :=
    (isWhole_class hname).tokenize_text
  have hinner : tokenize (unlines (classBlock name).inner) = [] := tokenize_empty
  rw [tokensAfter_classHead, hinner] at htext
  have hstatement : statementText? o ⟨tokenize (classBlock name).text, none⟩ =
      classText? o "export default " (classTokens name ++ [opening, newline, closing]) :=
    statementText?_of_class o htext (by decide) (by decide) (by decide)
  rw [declaration?, hstatement]
  exact congrArg (Option.map _) (classText?_class o hopening hnewline hclosing)

/-! ## The script in between -/

variable {p : Parts}

/-- The head of the function, cut. -/
def renderHead : List Lexeme :=
  [⟨.token .ident, "function".toList⟩, ⟨.blank, [' ']⟩, ⟨.token .ident, "render".toList⟩,
    ⟨.token .openParen, ['(']⟩, ⟨.token .closeParen, [')']⟩, ⟨.blank, [' ']⟩]

theorem hasHead_render (p : Parts) : (renderBlock p).HasHead renderHead where
  read := by
    show Lexeme.read "function render() \x7b".toList = _
    decide +kernel
  first := ⟨.ident, "function".toList, rfl, by decide⟩
  plain := List.all_eq_true.1 rfl
  balanced := rfl

/-- A function declares nothing. -/
theorem declaration?_render (o : CompilerOptions) (us : List Token) (doc : Option String) :
    declaration? o ⟨Lexeme.tokensAfter [] renderHead ++ us, doc⟩ = none := by
  have hhead : Lexeme.tokensAfter [] renderHead = ⟨.ident, "", "function"⟩ ::
      [⟨.ident, " ", "render"⟩, ⟨.openParen, "", "("⟩, ⟨.closeParen, "", ")"⟩] := by decide
  have hsignificant : ∃ ts, (Statement.mk (Lexeme.tokensAfter [] renderHead ++ us) doc).significant =
      ⟨.ident, "", "function"⟩ :: ts := by
    rw [Statement.significant, hhead]
    exact ⟨_, rfl⟩
  obtain ⟨ts, hts⟩ := hsignificant
  rw [declaration?, statementText?, hts]
  simp [Token.isWord]

end Component

end SvelteTypings

import SvelteTypings.Proofs.Script.Indexed.Classes

/-!
# Declarations read by position

Scanning a script, naming the modules it imports and declaring what it exports take slices that all
exist: done with positions, they give what they give by cutting (`slices_inRange`).
-/

namespace SvelteTypings.Script.Indexed

open Outcome

variable {source : String} {ts : List Token} {s s' : Statement} {o : CompilerOptions}

/-- A statement as it stands. -/
def whole (source : String) (s : Statement) : Outcome String := do
  let text ← text source s
  return terminate text

/-- A statement behind `export`, as it stands. -/
def exported (source : String) (s : Statement) (second : Token) : Outcome String := do
  let text ← textFrom source s second
  return "export declare " ++ text

/-- The declaration of a default export with the significant tokens `ts`. -/
def defaultText (o : CompilerOptions) (source : String) (s : Statement) (ts : List Token) :
    Outcome String := do
  let rest ← tokensFrom ts 2
  let rest := dropSemicolon rest
  let first ← ofOption rest[0]?
  match first.text with
  | "class" | "abstract" => classText o source "export default " s rest
  | "function" | "async" => functionText o source "export default " rest
  | "interface" => whole source s
  | _ =>
    if rest.length = 1 ∧ first.kind = .ident then whole source s
    else return "declare const _default: " ++ fallbackType o ++ ";\nexport default _default;"

/-- The declaration of an exporting statement with the significant tokens `ts`. -/
def exportText (o : CompilerOptions) (source : String) (s : Statement) (ts : List Token) :
    Outcome String := do
  let second ← ofOption ts[1]?
  if second.kind = .openBrace ∨ second.kind = .equals ∨ second.isOperator "*" then whole source s
  else
    match second.text with
    | "default" => defaultText o source s ts
    | "type" | "interface" | "declare" | "import" => whole source s
    | "enum" | "namespace" | "module" => exported source s second
    | "const" =>
      if ts[2]?.any (·.isWord "enum") then exported source s second
      else tokensFrom ts 2 >>= variablesText o source "const"
    | "let" => tokensFrom ts 2 >>= variablesText o source "let"
    | "var" => tokensFrom ts 2 >>= variablesText o source "var"
    | "function" | "async" => tokensFrom ts 1 >>= functionText o source "export declare "
    | "class" | "abstract" => tokensFrom ts 1 >>= classText o source "export declare " s
    | _ => .nothing

/-- The declaration of a statement, if it declares anything. -/
def statementText (o : CompilerOptions) (source : String) (s : Statement) : Outcome String := do
  let ts := significant s
  let first ← ofOption ts[0]?
  if first.isWord "import" then
    if ts[1]?.any (·.kind = .openParen) ∨ ts[1]?.any (·.kind = .dot) then .nothing
    else whole source s
  else if first.isWord "export" then exportText o source s ts
  else if first.isWord "interface" ∨ first.isWord "declare" ∨
      (first.isWord "type" ∧ ts[1]?.any (·.kind = .ident)) then
    whole source s
  else .nothing

/-- A statement's declaration below its documentation. -/
def declaration (o : CompilerOptions) (source : String) (s : Statement) : Outcome String := do
  let text ← statementText o source s
  return withDoc o "" s.doc text

/-- The declaration file of a script. -/
def declarations (o : CompilerOptions) (source : String) : Outcome String := do
  let statements ← scan source
  let texts ← collect (declaration o source) statements
  return joinLines (referenceDirectives source ++ if texts.isEmpty then [placeholder] else texts) ++
    "\n"

/-! ## In range -/

theorem whole_agrees (h : SameStatement source s' s) :
    Agrees Eq (whole source s') (some (terminate s.text)) := by
  rw [whole, h.text]
  exact .found rfl

theorem exported_agrees (h : SameStatement source s' s)
    (hlast : ∃ t, s'.tokens.getLast? = some t ∧ t.isTrivia = false) {second : Token}
    (hsecond : (significant s')[1]? = some second) :
    Agrees Eq (exported source s' second) (some ("export declare " ++ s.textFrom 1)) := by
  rw [exported, h.textFrom hlast hsecond]
  exact .found rfl

theorem defaultText_agrees (o : CompilerOptions) (h : SameStatement source s' s)
    (hlength : 2 ≤ s.significant.length) :
    Agrees Eq (defaultText o source s' (significant s')) (defaultText? o s s.significant) := by
  obtain ⟨qs, hqs, hplaced⟩ := h.significant.tokensFrom hlength
  have hdrop : qs = (significant s').drop 2 := by
    have hle : 2 ≤ (significant s').length := h.significant.length_eq ▸ hlength
    rw [tokensFrom, tokens, if_pos ⟨hle, Nat.le_refl _⟩, List.take_length] at hqs
    exact (Outcome.found.inj hqs).symm
  -- what is left out at the end is a semicolon
  obtain ⟨us, hus, hsemicolon⟩ : ∃ us, (significant s').drop 2 = dropSemicolon qs ++ us ∧
      ∀ t ∈ us, t.kind = .semicolon := by
    rw [← hdrop, dropSemicolon]
    split
    · next hlast =>
      rcases List.eq_nil_or_concat qs with rfl | ⟨front, last, rfl⟩
      · exact absurd hlast (by simp)
      · rw [List.concat_eq_append] at hlast ⊢
        exact ⟨[last], by rw [List.dropLast_concat], by simpa using hlast⟩
    · exact ⟨[], (List.append_nil _).symm, fun t ht => absurd ht List.not_mem_nil⟩
  have hclass := classText_agrees o "export default " h hus hsemicolon
  have hrest := hplaced.dropSemicolon
  rw [defaultText, defaultText?, hqs, found_bind]
  dsimp only
  generalize dropSemicolon qs = rs at hrest hclass
  generalize dropSemicolon (s.significant.drop 2) = ts at hrest
  cases ts with
  | nil =>
    rw [hrest.nil_iff.2 rfl]
    exact .nothing
  | cons first more =>
    obtain ⟨p, hp, hsame⟩ := (hrest.get 0).exists_found (b := first)
    have hone : rs.length = 1 ∧ p.kind = .ident ↔ more.isEmpty ∧ first.kind = .ident := by
      rw [hrest.length_eq, hsame.kind, List.length_cons, Nat.succ_inj, List.isEmpty_iff,
        List.length_eq_zero_iff]
    have hfunction := functionText_agrees o "export default " hrest
    have hwhole := whole_agrees h
    rw [hp, found_bind, hsame.text]
    dsimp only
    simp only [hone]
    generalize first.text = word
    split
    · exact hclass
    · exact hclass
    · exact hfunction
    · exact hfunction
    · exact hwhole
    · by_cases halone : more.isEmpty ∧ first.kind = .ident
      · simp only [if_pos halone]
        exact hwhole
      · simp only [if_neg halone]
        exact .found rfl

theorem exportText_agrees (o : CompilerOptions) (h : SameStatement source s' s)
    (hlast : ∃ t, s'.tokens.getLast? = some t ∧ t.isTrivia = false) :
    Agrees Eq (exportText o source s' (significant s')) (exportText? o s s.significant) := by
  have hplaced := h.significant
  have hwhole := whole_agrees h
  rw [exportText, exportText?]
  cases hsecond : s.significant[1]? with
  | none =>
    have hget := hplaced.get 1
    rw [hsecond] at hget
    rw [hget.eq_nothing, List.drop_eq_nil_of_le (List.getElem?_eq_none_iff.1 hsecond)]
    exact .nothing
  | some second =>
    obtain ⟨p, hp, hsame⟩ := hplaced.exists_getElem? hsecond
    have hlength : 2 ≤ s.significant.length := (List.getElem?_eq_some_iff.1 hsecond).1
    have hcons : s.significant.drop 1 = second :: s.significant.drop 2 := by
      obtain ⟨hlt, rfl⟩ := List.getElem?_eq_some_iff.1 hsecond
      exact List.drop_eq_getElem_cons hlt
    have henum : (significant s')[2]?.any (·.isWord "enum") =
        (s.significant.drop 2).head?.any (·.isWord "enum") := by
      rw [List.head?_drop]
      exact hplaced.any (fun p t hsame => hsame.isWord "enum") 2
    have hexported := exported_agrees h hlast hp
    have hvariables := fun keyword => variablesText_agrees o keyword (hplaced.drop 2)
    have hfunction := functionText_agrees o "export declare " (hplaced.drop 1)
    have hclass := classText_agrees o "export declare " h
      (List.append_nil ((significant s').drop 1)).symm fun t ht => absurd ht List.not_mem_nil
    have hdefault := defaultText_agrees o h hlength
    rw [hp, ofOption, found_bind, hcons, hsame.kind, hsame.isOperator, hsame.text, henum,
      hplaced.tokensFrom_eq hlength, hplaced.tokensFrom_eq (Nat.le_of_lt hlength)]
    rw [hcons] at hfunction
    dsimp only
    -- Both readers branch on the same kind and the same word; what is left are pairs of branches.
    by_cases hwholeKind : second.kind = .openBrace ∨ second.kind = .equals ∨ second.isOperator "*"
    · rw [if_pos hwholeKind, if_pos hwholeKind]
      exact hwhole
    rw [if_neg hwholeKind, if_neg hwholeKind]
    generalize second.text = word
    split
    · exact hdefault
    · exact hwhole
    · exact hwhole
    · exact hwhole
    · exact hwhole
    · exact hexported
    · exact hexported
    · exact hexported
    · split
      · exact hexported
      · exact hvariables "const"
    · exact hvariables "let"
    · exact hvariables "var"
    · exact hfunction
    · exact hfunction
    · exact hclass
    · exact hclass
    · first
      | exact .nothing
      | split <;> first | exact .nothing | contradiction

theorem statementText_agrees (o : CompilerOptions) (h : SameStatement source s' s)
    (hlast : ∃ t, s'.tokens.getLast? = some t ∧ t.isTrivia = false) :
    Agrees Eq (statementText o source s') (statementText? o s) := by
  have hplaced := h.significant
  have hwhole := whole_agrees h
  have hexport := exportText_agrees o h hlast
  rw [statementText, statementText?]
  generalize significant s' = ps at *
  generalize s.significant = ts at *
  cases ts with
  | nil =>
    rw [hplaced.nil_iff.2 rfl]
    exact .nothing
  | cons first rest =>
    obtain ⟨p, hp, hsame⟩ := (hplaced.get 0).exists_found (b := first)
    have hsecond : ∀ k, ps[1]?.any (·.kind = k) = startsWith k rest := fun k => by
      rw [startsWith, List.head?_eq_getElem?, ← List.getElem?_cons_succ (a := first)]
      exact hplaced.any (fun p t hsame => by rw [hsame.kind]) 1
    rw [hp, found_bind]
    simp only [hsame.isWord, hsecond]
    split
    · split
      · exact .nothing
      · exact hwhole
    · split
      · exact hexport
      · split
        · exact hwhole
        · exact .nothing

theorem declaration_agrees (o : CompilerOptions) (h : SameStatement source s' s)
    (hlast : ∃ t, s'.tokens.getLast? = some t ∧ t.isTrivia = false) :
    Agrees Eq (declaration o source s') (declaration? o s) := by
  rw [declaration, declaration?, Option.map_eq_bind]
  exact (statementText_agrees o h hlast).bind fun a b hab => .found (by rw [hab, h.doc])

theorem declarations_eq (o : CompilerOptions) (source : String) :
    declarations o source = .found (Script.declarations o source) := by
  have hboth := (List.forall₂_and_left _ _).2
    ⟨fun s (hs : s ∈ placedScan source) => exists_last_of_mem_splitStatements hs,
      forall₂_placedScan source⟩
  have hcollect := Agrees.collect hboth fun s' s ⟨hlast, h⟩ => declaration_agrees o h hlast
  rw [declarations, scan_eq, found_bind, hcollect, found_bind, Script.declarations, declarationLines]
  cases (Script.scan source).filterMap (declaration? o) <;> rfl

/-- **Every slice that is taken exists.** Read by position, where a slice of a run or of the source
comes out as `outOfRange` unless its ends are in order and in range, and those of a text on the
boundaries of characters, a script has the statements, the specifiers and the declarations that it
has when it is cut. -/
theorem slices_inRange (o : CompilerOptions) (source : String) :
    scan source = .found (placedScan source) ∧
      specifiers (placedScan source) = .found (Script.specifiers (Script.scan source)) ∧
      declarations o source = .found (Script.declarations o source) ∧
      (placedScan source).map (Statement.map Token.bare) =
        (Script.scan source).map (Statement.map Token.bare) :=
  ⟨scan_eq source, specifiers_eq source, declarations_eq o source, map_bare_placedScan source⟩

end SvelteTypings.Script.Indexed

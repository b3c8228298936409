import SvelteTypings.Proofs.Script.Layout
import SvelteTypings.Proofs.Script.Legible

/-!
# Texts put together

A text is *paired* if its brackets are matched wherever it stands in front of a separator. Texts that
are put together of such parts are paired if the parts stand apart, and so are parts in parentheses
or braces. Documentation and reference directives are lines of their own, without brackets.
-/

namespace SvelteTypings.Script

open Lexeme

variable {text text' : String} {us vs : List Token} {t : Token} {c : Char} {cs rest : List Char}

/-! ## Parts -/

namespace Reads

theorem append (h : Reads text us) (h' : Reads text' vs) (hapart : startsApart text'.toList) :
    Reads (text ++ text') (us ++ vs) := by
  intro rest hrest
  have hbehind : startsApart (text'.toList ++ rest) := by
    cases htext : text'.toList with
    | nil => exact hrest
    | cons c cs =>
      rw [htext] at hapart
      exact hapart
  rw [String.toList_append, List.append_assoc, h _ hbehind, h' rest hrest, bracketsOf_append,
    List.append_assoc]

/-- What starts with a separator can stand behind anything, and in front of what it could. -/
theorem append_anywhere (h : Reads text us) (h' : ReadsAnywhere text' vs)
    (hapart : text'.toList.head?.any isSeparator) : ReadsAnywhere (text ++ text') (us ++ vs) := by
  intro rest
  have hbehind : startsApart (text'.toList ++ rest) := by
    cases htext : text'.toList with
    | nil => exact absurd hapart (by simp [htext])
    | cons c cs =>
      rw [htext] at hapart
      exact hapart
  rw [String.toList_append, List.append_assoc, h _ hbehind, h' rest, bracketsOf_append,
    List.append_assoc]

end Reads

namespace ReadsAnywhere

theorem reads (h : ReadsAnywhere text us) : Reads text us := fun rest _ => h rest

theorem append (h : ReadsAnywhere text us) (h' : Reads text' vs) :
    Reads (text ++ text') (us ++ vs) := by
  intro rest hrest
  rw [String.toList_append, List.append_assoc, h, h' rest hrest, bracketsOf_append, List.append_assoc]

theorem append_anywhere (h : ReadsAnywhere text us) (h' : ReadsAnywhere text' vs) :
    ReadsAnywhere (text ++ text') (us ++ vs) := by
  intro rest
  rw [String.toList_append, List.append_assoc, h, h' rest, bracketsOf_append, List.append_assoc]

end ReadsAnywhere

/-- A token of one character whatever follows. -/
theorem readsAnywhere_of_punctuation (c : Char) {k : Kind}
    (h : ∀ cs, classify c cs = (.token k, 0)) (htext : text.toList = [c]) :
    ReadsAnywhere text [⟨k, "", text⟩] := by
  intro rest
  rw [htext, bracketsOf_cons, List.append_assoc]
  exact bracketsIn_of_punctuation (h rest)

/-! ### Words -/

/-- No lexeme of the text is stray input, and it does not end with a comment. -/
def isWritten (text : String) : Bool :=
  (read text.toList).all (·.cls ≠ .stray) &&
    (read text.toList).getLast?.all fun l => l.cls ≠ .token .lineComment && l.cls ≠ .token .blockComment

/-- The last lexeme of the text is a separator. -/
def endsApart (text : String) : Bool :=
  (read text.toList).getLast?.all fun l => l.text.length = 1 && l.text.all isSeparator

theorem bracketsIn_of_isWritten (h : isWritten text) (hends : endsApart text ∨ startsApart rest) :
    bracketsIn (text.toList ++ rest) = bracketsOf (tokenize text) ++ bracketsIn rest := by
  obtain ⟨hstray, hlast⟩ := Bool.and_eq_true_iff.1 h
  have hbefore : EndsBefore (read text.toList) rest := by
    intro l hl
    rcases hends with hends | hrest
    · have hl := (Option.all_eq_true _ _).1 hends l hl
      rw [Bool.and_eq_true_iff, decide_eq_true_eq] at hl
      obtain ⟨c, hc⟩ := List.length_eq_one_iff.1 hl.1
      exact Or.inl ⟨c, by simpa [hc] using hl.2, hc⟩
    · have hl := (Option.all_eq_true _ _).1 hlast l hl
      rw [Bool.and_eq_true_iff, decide_eq_true_eq, decide_eq_true_eq] at hl
      exact Or.inr ⟨hrest, hl.1, fun hblock => absurd hblock hl.2⟩
  have hrun := bracketsIn_flatMap_text (List.prefix_refl (read text.toList)) (by simpa using hstray)
    hbefore
  rwa [flatMap_text_read, ← bracketsIn, ← bracketsOf_tokenize] at hrun

theorem reads_of_isWritten (h : isWritten text) : Reads text (tokenize text) :=
  fun _ hrest => bracketsIn_of_isWritten h (Or.inr hrest)

theorem readsAnywhere_of_isWritten (h : isWritten text) (hends : endsApart text) :
    ReadsAnywhere text (tokenize text) :=
  fun _ => bracketsIn_of_isWritten h (Or.inl hends)

/-! ## Paired texts -/

/-- The brackets of the text are matched, in front of a separator. -/
def IsPaired (text : String) : Prop := ∃ us, isMatched us ∧ Reads text us

/-- The brackets of the text are matched, in front of anything. -/
def IsPairedAnywhere (text : String) : Prop := ∃ us, isMatched us ∧ ReadsAnywhere text us

theorem isPaired_of_isWritten (h : (isWritten text && isMatched (tokenize text)) = true) :
    IsPaired text := by
  obtain ⟨hwritten, hmatched⟩ := Bool.and_eq_true_iff.1 h
  exact ⟨_, hmatched, reads_of_isWritten hwritten⟩

theorem isPairedAnywhere_of_isWritten
    (h : (isWritten text && isMatched (tokenize text) && endsApart text) = true) :
    IsPairedAnywhere text := by
  simp only [Bool.and_eq_true_iff] at h
  exact ⟨_, h.1.2, readsAnywhere_of_isWritten h.1.1 h.2⟩

/-- What stands between the parts of a declaration. -/
def joints : List String :=
  ["", " ", "\n", ", ", ": ", "?: ", " = ", " => ", "export declare ", "export default "]

/-- Words, marks and types that are shown as they are, whatever the script is. -/
def fixedTexts : List String :=
  ["", "?", ";", "function", "constructor", "string", "number", "boolean", "any", "unknown",
    "void", "Promise<any>", "Promise<unknown>", "Promise<void>"]

theorem isPairedAnywhere_of_mem_joints (h : text ∈ joints) : IsPairedAnywhere text := by
  have hall : joints.all fun text =>
      isWritten text && isMatched (tokenize text) && endsApart text := by decide +kernel
  exact isPairedAnywhere_of_isWritten (List.all_eq_true.1 hall text h)

theorem isPaired_of_mem_fixedTexts (h : text ∈ fixedTexts) : IsPaired text := by
  have hall : fixedTexts.all fun text => isWritten text && isMatched (tokenize text) := by
    decide +kernel
  exact isPaired_of_isWritten (List.all_eq_true.1 hall text h)

/-- A matched span of a clean script is paired. -/
theorem IsLegible.isPaired_span (h : IsLegible us) (hmatched : isMatched us) :
    IsPaired (Token.span us) :=
  ⟨us, hmatched, h.reads_span⟩

namespace IsPaired

theorem append (h : IsPaired text) (h' : IsPaired text') (hapart : startsApart text'.toList) :
    IsPaired (text ++ text') := by
  obtain ⟨us, hus, htext⟩ := h
  obtain ⟨vs, hvs, htext'⟩ := h'
  exact ⟨us ++ vs, isMatched_append hus hvs, htext.append htext' hapart⟩

theorem append_anywhere (h : IsPaired text) (h' : IsPairedAnywhere text')
    (hapart : text'.toList.head?.any isSeparator) : IsPairedAnywhere (text ++ text') := by
  obtain ⟨us, hus, htext⟩ := h
  obtain ⟨vs, hvs, htext'⟩ := h'
  exact ⟨us ++ vs, isMatched_append hus hvs, htext.append_anywhere htext' hapart⟩

/-- A paired text in brackets is paired wherever it stands. -/
theorem bracketed (h : IsPaired text) {opening closing : String} {o c : Token}
    (hopens : o.kind.opens) (hcloser : o.kind.closer = c.kind) (hopening : ReadsAnywhere opening [o])
    (hclosing : ReadsAnywhere closing [c]) (hapart : closing.toList.head?.any isSeparator) :
    IsPairedAnywhere (opening ++ (text ++ closing)) := by
  obtain ⟨us, hus, htext⟩ := h
  exact ⟨o :: (us ++ [c]), isMatched_bracketed hus hopens hcloser,
    hopening.append_anywhere (htext.append_anywhere hclosing hapart)⟩

theorem parenthesized (h : IsPaired text) : IsPairedAnywhere ("(" ++ (text ++ ")")) := by
  have hopening : ReadsAnywhere "(" [⟨.openParen, "", "("⟩] :=
    readsAnywhere_of_punctuation '(' (fun _ => rfl) (by decide)
  have hclosing : ReadsAnywhere ")" [⟨.closeParen, "", ")"⟩] :=
    readsAnywhere_of_punctuation ')' (fun _ => rfl) (by decide)
  exact bracketed h rfl rfl hopening hclosing (by decide)

theorem braced (h : IsPaired text) : IsPairedAnywhere ("\x7b" ++ (text ++ "\x7d")) := by
  have hopening : ReadsAnywhere "\x7b" [⟨.openBrace, "", "\x7b"⟩] :=
    readsAnywhere_of_punctuation '\x7b' (fun _ => rfl) (by decide)
  have hclosing : ReadsAnywhere "\x7d" [⟨.closeBrace, "", "\x7d"⟩] :=
    readsAnywhere_of_punctuation '\x7d' (fun _ => rfl) (by decide)
  exact bracketed h rfl rfl hopening hclosing (by decide)

end IsPaired

namespace IsPairedAnywhere

theorem isPaired (h : IsPairedAnywhere text) : IsPaired text := by
  obtain ⟨us, hus, htext⟩ := h
  exact ⟨us, hus, htext.reads⟩

theorem append (h : IsPairedAnywhere text) (h' : IsPaired text') : IsPaired (text ++ text') := by
  obtain ⟨us, hus, htext⟩ := h
  obtain ⟨vs, hvs, htext'⟩ := h'
  exact ⟨us ++ vs, isMatched_append hus hvs, htext.append htext'⟩

theorem append_anywhere (h : IsPairedAnywhere text) (h' : IsPairedAnywhere text') :
    IsPairedAnywhere (text ++ text') := by
  obtain ⟨us, hus, htext⟩ := h
  obtain ⟨vs, hvs, htext'⟩ := h'
  exact ⟨us ++ vs, isMatched_append hus hvs, htext.append_anywhere htext'⟩

end IsPairedAnywhere

end SvelteTypings.Script

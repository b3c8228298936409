import SvelteTypings.Proofs.Script.Locality
import SvelteTypings.Proofs.Script.Sequence

/-!
# The tokens cover the text

Between tokens there are blanks, control characters, and literals that are broken off. What is
passed over is described without the reader (`Passed`), and so are the tokens that hold the end of a
line (`HoldsLine`). A text is cut into what is passed over and tokens (`cut_tokenize`), so each of
its characters stands in a token, or it has a reason to stand in none (`tokenize_covers`).
-/

namespace SvelteTypings.Script

open Lexeme (isGap isIdentStart isOperatorChar isNonAscii isNumberRest runLength blockLength
  literalLength classify read tokensAfter)

variable {c quote : Char} {cs xs gap run behind rest front : List Char} {k : Kind} {n : Nat}
  {cls : LexemeClass} {t u : Token} {ts ps : List Token} {above : String}

/-! ## What is passed over -/

/-- What a literal can hold: a character, or an escaped one. Only a template holds ends of lines,
and it does not hold them escaped. -/
inductive Within (quote : Char) : List Char → Prop where
  | plain (c : Char) (hquote : c ≠ quote) (hslash : c ≠ '\\') (hline : c = '\n' → quote = '`') :
    Within quote [c]
  | escaped (c : Char) (hline : c ≠ '\n') : Within quote ['\\', c]

/-- The text of a literal, from its quote on as far as it goes. -/
inductive Inside (quote : Char) : List Char → Prop where
  | nil : Inside quote []
  | cons {part run : List Char} (hpart : Within quote part) (h : Inside quote run) :
    Inside quote (part ++ run)

/-- No literal goes on over this text, nor does it end here: the text is at its end, or the line is,
or a backslash escapes nothing. -/
inductive BreaksOff (quote : Char) : List Char → Prop where
  | ended : BreaksOff quote []
  | line (rest : List Char) (hquote : quote ≠ '`') : BreaksOff quote ('\n' :: rest)
  | slash : BreaksOff quote ['\\']
  | slashLine (rest : List Char) : BreaksOff quote ('\\' :: '\n' :: rest)

/-- A quote opens a literal that is broken off after `run`. -/
structure Unclosed (quote : Char) (run behind : List Char) : Prop where
  opens : quote ∈ ['"', '\'', '`']
  inside : Inside quote run
  breaks : BreaksOff quote behind

/-- What can be passed over in front of some text. -/
inductive Passed : List Char → List Char → Prop where
  | nil (behind : List Char) : Passed [] behind
  | blank {c : Char} {gap behind : List Char} (hc : isGap c) (h : Passed gap behind) :
    Passed (c :: gap) behind
  | control {c : Char} {gap behind : List Char} (hc : isControl c) (h : Passed gap behind) :
    Passed (c :: gap) behind
  | unclosed {quote : Char} {run gap behind : List Char} (hrun : Unclosed quote run (gap ++ behind))
    (h : Passed gap behind) : Passed (quote :: run ++ gap) behind

theorem Passed.append (hgap : Passed gap (xs ++ behind)) (hxs : Passed xs behind) :
    Passed (gap ++ xs) behind := by
  generalize hrest : xs ++ behind = rest at hgap
  induction hgap with
  | nil => exact hxs
  | blank hc _ ih => exact .blank hc (ih hrest)
  | control hc _ ih => exact .control hc (ih hrest)
  | @unclosed quote run gap rest hrun _ ih =>
    rw [← hrest, ← List.append_assoc] at hrun
    rw [List.append_assoc]
    exact .unclosed hrun (ih hrest)

theorem passed_of_gaps (h : ∀ c ∈ gap, isGap c) (behind : List Char) : Passed gap behind := by
  induction gap with
  | nil => exact .nil behind
  | cons c gap ih =>
    obtain ⟨hc, hgap⟩ := List.forall_mem_cons.1 h
    exact .blank hc (ih hgap)

/-- Only a template goes on over the end of a line. -/
theorem Inside.quote_of_newline (h : Inside quote run) (hline : '\n' ∈ run) : quote = '`' := by
  induction h with
  | nil => exact absurd hline List.not_mem_nil
  | cons hpart _ ih =>
    rcases List.mem_append.1 hline with hline | hline
    · cases hpart with
      | plain c _ _ hc => exact hc (List.mem_singleton.1 hline).symm
      | escaped c hc => exact absurd hline (by simp [Ne.symm hc])
    · exact ih hline

/-! ## Tokens that hold the end of a line -/

/-- A token with the end of a line in it, and what stands behind it: the end alone, a comment, which
reaches to where it is closed or to the end of the text, or a template. -/
inductive HoldsLine : Kind → List Char → List Char → Prop where
  | newline (behind : List Char) : HoldsLine .newline ['\n'] behind
  | closed (inner behind : List Char) (h : ¬ ['*', '/'] <:+: inner) :
    HoldsLine .blockComment (['/', '*'] ++ inner ++ ['*', '/']) behind
  | unended (inner : List Char) (h : ¬ ['*', '/'] <:+: inner) :
    HoldsLine .blockComment (['/', '*'] ++ inner) []
  | template {run : List Char} (hrun : Inside '`' run) (behind : List Char) :
    HoldsLine .template ('`' :: run ++ ['`']) behind

/-- The end of a line is a token of its own, or it is in a comment or a template. -/
theorem HoldsLine.newline_or (h : HoldsLine t.kind t.text.toList behind) :
    t.kind = .newline ∧ t.text = "\n" ∨ ∃ behind,
      (t.kind = .blockComment ∨ t.kind = .template) ∧ HoldsLine t.kind t.text.toList behind := by
  generalize hkind : t.kind = kind at h ⊢
  generalize htext : t.text.toList = text at h ⊢
  cases h with
  | newline => exact Or.inl ⟨rfl, String.toList_injective htext⟩
  | closed inner behind hinner => exact Or.inr ⟨behind, Or.inl rfl, .closed inner behind hinner⟩
  | unended inner hinner => exact Or.inr ⟨[], Or.inl rfl, .unended inner hinner⟩
  | template hrun behind => exact Or.inr ⟨behind, Or.inr rfl, .template hrun behind⟩

/-! ## The reader -/

namespace Lexeme

/-- A literal is closed, or it is broken off. -/
theorem literalLength_spec (quote : Char) (cs : List Char) :
    ((literalLength quote cs).1 = true ∧
      ∃ run, Inside quote run ∧ cs.take (literalLength quote cs).2 = run ++ [quote]) ∨
    ((literalLength quote cs).1 = false ∧ Inside quote (cs.take (literalLength quote cs).2) ∧
      BreaksOff quote (cs.drop (literalLength quote cs).2)) := by
  fun_induction literalLength quote cs with
  | case1 => exact Or.inr ⟨rfl, .nil, .ended⟩
  | case2 => exact Or.inr ⟨rfl, .nil, .slash⟩
  | case3 cs => exact Or.inr ⟨rfl, .nil, .slashLine cs⟩
  | case4 c cs hc closed n hcs ih =>
    rw [hcs] at ih
    rcases ih with ⟨hclosed, run, hrun, htake⟩ | ⟨hclosed, hrun, hbreaks⟩
    · refine Or.inl ⟨hclosed, ['\\', c] ++ run, .cons (.escaped c hc) hrun, ?_⟩
      rw [List.take_succ_cons, List.take_succ_cons, htake]
      rfl
    · exact Or.inr ⟨hclosed, .cons (.escaped c hc) hrun, hbreaks⟩
  | case5 cs => exact Or.inl ⟨rfl, [], .nil, rfl⟩
  | case6 c cs _ _ hc hline =>
    obtain ⟨rfl, hquote⟩ := hline
    exact Or.inr ⟨rfl, .nil, .line cs hquote⟩
  | case7 c cs hnil hcons hc hline closed n hcs ih =>
    have hwithin : Within quote [c] := by
      refine .plain c hc (ne_backslash hnil hcons) fun hnewline => ?_
      exact Decidable.byContradiction fun hquote => hline ⟨hnewline, hquote⟩
    rw [hcs] at ih
    rcases ih with ⟨hclosed, run, hrun, htake⟩ | ⟨hclosed, hrun, hbreaks⟩
    · refine Or.inl ⟨hclosed, [c] ++ run, .cons hwithin hrun, ?_⟩
      rw [List.take_succ_cons, htake]
      rfl
    · exact Or.inr ⟨hclosed, .cons hwithin hrun, hbreaks⟩

/-- A comment reaches to the first place where it is closed, or to the end of the text. -/
theorem blockLength_spec (cs : List Char) :
    (∃ inner, ¬ ['*', '/'] <:+: inner ∧ cs.take (blockLength cs) = inner ++ ['*', '/']) ∨
    (¬ ['*', '/'] <:+: cs ∧ blockLength cs = cs.length) := by
  fun_induction blockLength cs with
  | case1 cs => exact Or.inl ⟨[], by simp, rfl⟩
  | case2 c cs hend ih =>
    rcases ih with ⟨inner, hinner, htake⟩ | ⟨hcs, hlength⟩
    · refine Or.inl ⟨c :: inner, fun hc => ?_, by rw [List.take_succ_cons, htake]; rfl⟩
      rcases List.infix_cons_iff.1 hc with ⟨tail, htail⟩ | hc
      · -- the comment would be closed at its first character
        obtain ⟨rfl, hstart⟩ := List.cons.inj htail
        obtain ⟨behind, hbehind⟩ : ['/'] <+: cs := by
          refine List.IsPrefix.trans ?_ (List.take_prefix (blockLength cs) cs)
          rw [htake, ← hstart]
          exact ⟨tail ++ ['*', '/'], rfl⟩
        exact hend behind rfl hbehind.symm
      · exact hinner hc
    · refine Or.inr ⟨fun hc => ?_, by rw [hlength, List.length_cons]⟩
      rcases List.infix_cons_iff.1 hc with ⟨tail, htail⟩ | hc
      · obtain ⟨rfl, hstart⟩ := List.cons.inj htail
        exact hend tail rfl hstart.symm
      · exact hcs hc
  | case3 => exact Or.inr ⟨by simp, rfl⟩

theorem of_mem_take_runLength {p : Char → Bool} (h : c ∈ cs.take (runLength p cs)) : p c := by
  rw [take_runLength] at h
  exact List.all_eq_true.1 List.all_takeWhile c h

/-- The characters of a number. -/
theorem of_mem_take_numberLength (h : c ∈ cs.take (numberLength cs)) :
    isNumberRest c ∨ c = '.' := by
  rw [numberLength] at h
  generalize hn : runLength isNumberRest cs = n at h
  have hfirst : ∀ c ∈ cs.take n, isNumberRest c := hn ▸ fun c hc => of_mem_take_runLength hc
  dsimp only at h
  split at h
  · next rest hdrop =>
    split at h
    · exact Or.inl (hfirst c h)
    · rw [Nat.add_assoc, List.take_add, hdrop, Nat.add_comm 1, List.take_succ_cons] at h
      rcases List.mem_append.1 h with h | h
      · exact Or.inl (hfirst c h)
      · rcases List.mem_cons.1 h with rfl | h
        · exact Or.inr rfl
        · exact Or.inl (of_mem_take_runLength h)
  · exact Or.inl (hfirst c h)

/-- A literal that is closed ends with its quote. -/
theorem exists_inside_of_closed (h : (literalLength quote cs).1 = true) :
    ∃ run, Inside quote run ∧ cs.take (literalLength quote cs).2 = run ++ [quote] := by
  rcases literalLength_spec quote cs with ⟨-, hrun⟩ | ⟨hopen, -⟩
  · exact hrun
  · exact absurd (h.symm.trans hopen) (by simp)

/-- What is passed over is a blank, a control character or a literal that is broken off. -/
theorem Classifies.passed (h : Classifies c cs cls n) (hcls : ∀ k, cls ≠ .token k) :
    Passed (c :: cs.take n) (cs.drop n) := by
  cases h with
  | run hr hc =>
    rcases mem_runClasses_iff.1 hr with ⟨-, rfl, rfl⟩ | ⟨hk, -⟩ | ⟨hk, -⟩ | ⟨hk, -⟩
    · exact passed_of_gaps (List.forall_mem_cons.2 ⟨hc, fun _ => of_mem_take_runLength⟩) _
    all_goals exact absurd hk (hcls _)
  | unclosed hc hopen =>
    have hquotes : ∀ q ∈ quotes, q.1 ∈ ['"', '\'', '`'] := by decide
    rcases literalLength_spec c cs with ⟨hclosed, -⟩ | ⟨-, hinside, hbreaks⟩
    · exact absurd (hopen.symm.trans hclosed) (by simp)
    · have hunclosed : Unclosed c (cs.take (literalLength c cs).2)
          ([] ++ cs.drop (literalLength c cs).2) := ⟨hquotes _ hc, hinside, hbreaks⟩
      have hpassed := Passed.unclosed hunclosed (.nil _)
      rwa [List.append_nil] at hpassed
  | control hc => exact .control hc (.nil _)
  | _ => exact absurd rfl (hcls _)

theorem newline_not_mem_run {p : Char → Bool} (hp : p '\n' = false) (hc : c ≠ '\n') :
    '\n' ∉ c :: cs.take (runLength p cs) := by
  intro hmem
  rcases List.mem_cons.1 hmem with hmem | hmem
  · exact hc hmem.symm
  · exact absurd (of_mem_take_runLength hmem) (by simp [hp])

/-- Few tokens hold the end of a line. -/
theorem Classifies.holdsLine (h : Classifies c cs (.token k) n) (hline : '\n' ∈ c :: cs.take n) :
    HoldsLine k (c :: cs.take n) (cs.drop n) := by
  cases h with
  | run hr hc =>
    have hruns : ∀ r ∈ runClasses, r.first '\n' = false ∧ r.rest '\n' = false := by decide
    have hne : c ≠ '\n' := by
      rintro rfl
      exact Bool.false_ne_true ((hruns _ hr).1.symm.trans hc)
    exact absurd hline (newline_not_mem_run (hruns _ hr).2 hne)
  | number hc =>
    rcases List.mem_cons.1 hline with rfl | hmem
    · exact absurd hc (by decide)
    · exact absurd (of_mem_take_numberLength hmem) (by decide)
  | lineComment hc hcs =>
    rw [hc, hcs, Nat.add_comm, List.take_succ_cons] at hline
    rcases List.mem_cons.1 hline with heq | hline
    · exact absurd heq (by decide)
    · exact absurd hline (newline_not_mem_run (by decide) (by decide))
  | @blockComment inside hc hcs =>
    rw [hc, hcs, Nat.add_comm, List.take_succ_cons, List.drop_succ_cons]
    rcases blockLength_spec inside with ⟨inner, hinner, htake⟩ | ⟨hopen, hlength⟩
    · rw [htake]
      exact .closed inner _ hinner
    · rw [hlength, List.take_length, List.drop_length]
      exact .unended inside hopen
  | literal hc hclosed =>
    obtain ⟨run, hrun, htake⟩ := exists_inside_of_closed hclosed
    rw [htake] at hline ⊢
    have hquotes : ∀ q ∈ quotes, q = ('`', .template) ∨ q.1 ≠ '`' ∧ q.1 ≠ '\n' := by decide
    rcases hquotes _ hc with hq | ⟨hquote, hne⟩
    · obtain ⟨rfl, rfl⟩ := Prod.mk.inj hq
      exact .template hrun _
    · -- a string holds no end of a line
      rw [← List.cons_append] at hline
      simp only [List.mem_append, List.mem_cons, List.not_mem_nil, or_false] at hline
      rcases hline with (heq | hmem) | heq
      · exact absurd heq.symm hne
      · exact absurd (hrun.quote_of_newline hmem) hquote
      · exact absurd heq.symm hne
  | single hc =>
    have hsingles : ∀ s ∈ singles, s.1 = '\n' → s.2 = .newline := by decide
    obtain rfl : '\n' = c := by simpa using hline
    obtain rfl := hsingles _ hc rfl
    exact .newline _
  | mark hc hcs =>
    have hmarks : ∀ m ∈ marks, '\n' ∉ m.1 := by decide
    rw [hcs, List.take_left] at hline
    exact absurd hline (hmarks _ hc)

end Lexeme

/-! ## Cutting the text -/

/-- A text is tokens with what is passed over between them and at the end. -/
inductive Cut : List Token → List Char → Prop where
  | tail {cs : List Char} (h : Passed cs []) : Cut [] cs
  | token {t : Token} {ts : List Token} {rest : List Char}
      (hgap : Passed t.gap.toList (t.text.toList ++ rest)) (hne : t.text ≠ "")
      (hline : '\n' ∈ t.text.toList → HoldsLine t.kind t.text.toList rest) (h : Cut ts rest) :
      Cut (t :: ts) (t.gap.toList ++ (t.text.toList ++ rest))

/-- What has been passed over so far is in front of what is read. -/
theorem cut_tokensAfter (hgap : Passed gap cs) : Cut (tokensAfter gap (read cs)) (gap ++ cs) := by
  fun_induction read cs generalizing gap with
  | case1 =>
    rw [List.append_nil]
    exact .tail hgap
  | case2 c cs cls n hclassify ih =>
    have hreads := Lexeme.classifies_iff.2 hclassify
    have htext : c :: cs = (c :: cs.take n) ++ cs.drop n := by
      rw [List.cons_append, List.take_append_drop]
    cases cls with
    | token k =>
      let t : Token := ⟨k, String.ofList gap, String.ofList (c :: cs.take n)⟩
      have hfront : t.gap.toList = gap := String.toList_ofList
      have htake : t.text.toList = c :: cs.take n := String.toList_ofList
      have hne : t.text ≠ "" := by
        intro hempty
        rw [hempty] at htake
        exact absurd htake (by simp)
      rw [htext, ← hfront, ← htake] at hgap
      have hcut := Cut.token hgap hne (htake ▸ hreads.holdsLine) (ih (.nil _))
      rw [hfront, htake, ← htext] at hcut
      exact hcut
    | blank =>
      rw [htext] at hgap ⊢
      rw [← List.append_assoc]
      exact ih (hgap.append (hreads.passed (by simp)))
    | stray =>
      rw [htext] at hgap ⊢
      rw [← List.append_assoc]
      exact ih (hgap.append (hreads.passed (by simp)))

/-- **The text is cut into tokens and what is passed over.** -/
theorem cut_tokenize (source : String) : Cut (tokenize source) source.toList :=
  cut_tokensAfter (.nil _)

/-! ## Characters -/

/-- A character is part of a token, which has all the text in front of it. -/
structure Token.Holds (t : Token) (front : List Char) (c : Char) (x y : List Char) : Prop where
  front : front = t.gap.toList ++ x
  text : t.text.toList = x ++ c :: y

/-- Where the character behind `front` stands in a text with tokens. Each token has all the text in
front of it. -/
inductive Stands (text : List Char) (ts : List Token) (front : List Char) (c : Char) : Prop where
  /-- In a token; the end of a line is a token of its own, or it is in a comment or a template. -/
  | token (t : Token) (x y : List Char) (ht : t ∈ ts) (h : t.Holds front c x y)
      (hline : c = '\n' → t.kind = .newline ∧ t.text = "\n" ∨ ∃ behind,
        (t.kind = .blockComment ∨ t.kind = .template) ∧ HoldsLine t.kind t.text.toList behind)
  | blank (h : isGap c)
  | control (h : isControl c)
  /-- In a literal that is broken off and in no token. Only a template holds an end of a line. -/
  | unclosed (before : List Char) (quote : Char) (run behind : List Char)
      (htext : text = before ++ (quote :: run ++ behind)) (hrun : Unclosed quote run behind)
      (hstart : before.length ≤ front.length) (hstop : front.length ≤ (before ++ run).length)
      (hpassed : ∀ t ∈ ts, (t.gap.toList ++ t.text.toList).length ≤ before.length ∨
        (before ++ quote :: run).length ≤ t.gap.toList.length)
      (hline : c = '\n' → quote = '`')

/-- A character of two texts is in the first or in the second. -/
theorem exists_of_append_eq {xs ys : List Char} (h : xs ++ ys = front ++ c :: rest) :
    (∃ after, xs = front ++ c :: after ∧ rest = after ++ ys) ∨
      ∃ front', front = xs ++ front' ∧ ys = front' ++ c :: rest := by
  rcases List.append_eq_append_iff.1 h with hsecond | ⟨part, hxs, hpart⟩
  · exact Or.inr hsecond
  · cases part with
    | nil => exact Or.inr ⟨[], by rw [hxs, List.append_nil, List.append_nil], hpart.symm⟩
    | cons d part =>
      obtain ⟨rfl, hrest⟩ := List.cons.inj hpart
      exact Or.inl ⟨part, hxs, hrest⟩

/-- Why the character behind `front` is passed over, in a text with something behind it. -/
inductive IsPassed (text behind front : List Char) (c : Char) : Prop where
  | blank (h : isGap c)
  | control (h : isControl c)
  | unclosed (before : List Char) (quote : Char) (run after : List Char)
      (htext : text = before ++ (quote :: run ++ after))
      (hrun : Unclosed quote run (after ++ behind)) (hstart : before.length ≤ front.length)
      (hstop : front.length ≤ (before ++ run).length) (hline : c = '\n' → quote = '`')

theorem IsPassed.below (xs : List Char) (h : IsPassed cs behind front c) :
    IsPassed (xs ++ cs) behind (xs ++ front) c := by
  cases h with
  | blank h => exact .blank h
  | control h => exact .control h
  | unclosed before quote run after htext hrun hstart hstop hline =>
    refine .unclosed (xs ++ before) quote run after ?_ hrun ?_ ?_ hline
    · rw [htext, List.append_assoc]
    · simp only [List.length_append]
      omega
    · simp only [List.length_append] at hstop ⊢
      omega

/-- Every character that is passed over has a reason. -/
theorem Passed.isPassed (h : Passed gap behind) (hgap : gap = front ++ c :: rest) :
    IsPassed gap behind front c := by
  -- The character is in the first piece that is passed over, or in what follows it.
  induction h generalizing front with
  | nil => exact absurd hgap (by simp)
  | @blank d gap behind hd _ ih =>
    have hgap' : [d] ++ gap = front ++ c :: rest := hgap
    rcases exists_of_append_eq hgap' with ⟨after, hc, -⟩ | ⟨front', rfl, hrest⟩
    · cases front with
      | nil => exact .blank ((List.cons.inj hc).1 ▸ hd)
      | cons e front => exact absurd hc (by simp)
    · exact (ih hrest).below [d]
  | @control d gap behind hd _ ih =>
    have hgap' : [d] ++ gap = front ++ c :: rest := hgap
    rcases exists_of_append_eq hgap' with ⟨after, hc, -⟩ | ⟨front', rfl, hrest⟩
    · cases front with
      | nil => exact .control ((List.cons.inj hc).1 ▸ hd)
      | cons e front => exact absurd hc (by simp)
    · exact (ih hrest).below [d]
  | @unclosed quote run gap behind hrun _ ih =>
    rcases exists_of_append_eq hgap with ⟨after, hliteral, -⟩ | ⟨front', rfl, hrest⟩
    · have hlength := congrArg List.length hliteral
      have hmem : c ∈ quote :: run := hliteral ▸ List.mem_append_right front List.mem_cons_self
      refine .unclosed [] quote run gap rfl hrun (Nat.zero_le _) ?_ fun hc => ?_
      · simp only [List.length_append, List.length_cons] at hlength
        rw [List.nil_append]
        omega
      · rw [hc] at hmem
        rcases List.mem_cons.1 hmem with rfl | hmem
        · exact absurd hrun.opens (by decide)
        · exact hrun.inside.quote_of_newline hmem
    · exact (ih hrest).below (quote :: run)

/-- What is passed over in front of some tokens and behind others is in none of them. -/
theorem IsPassed.stands (h : IsPassed gap behind front c) (front' : List Char)
    (hts : ∀ t ∈ ts, (t.gap.toList ++ t.text.toList).length ≤ front'.length ∨
      (front' ++ gap).length ≤ t.gap.toList.length) :
    Stands (front' ++ (gap ++ behind)) ts (front' ++ front) c := by
  cases h with
  | blank h => exact .blank h
  | control h => exact .control h
  | unclosed before quote run after htext hrun hstart hstop hline =>
    refine .unclosed (front' ++ before) quote run (after ++ behind) ?_ hrun ?_ ?_ ?_ hline
    · rw [htext]
      simp only [List.append_assoc]
    · simp only [List.length_append]
      omega
    · simp only [List.length_append] at hstop ⊢
      omega
    · intro t ht
      have hgap := congrArg List.length htext
      have houtside := hts t ht
      simp only [List.length_append, List.length_cons] at hgap houtside ⊢
      omega

/-- Tokens that follow each other below a text begin below it. -/
theorem Token.length_le_of_mem_placed (ht : t ∈ placed above ts) :
    above.toList.length ≤ t.gap.toList.length := by
  induction ts generalizing above with
  | nil => exact absurd ht List.not_mem_nil
  | cons u ts ih =>
    rcases List.mem_cons.1 ht with rfl | ht
    · show _ ≤ (above ++ u.gap).toList.length
      rw [String.toList_append, List.length_append]
      exact Nat.le_add_right _ _
    · have hbelow := ih ht
      rw [String.toList_append, List.length_append] at hbelow
      exact Nat.le_trans (Nat.le_add_right _ _) hbelow

/-- **Every character of a text that is cut stands somewhere**, below any text and its tokens. -/
theorem Cut.stands (h : Cut ts cs) (hps : ∀ t ∈ ps, (t.gap.toList ++ t.text.toList).length ≤
    above.toList.length) (hcs : cs = front ++ c :: rest) :
    Stands (above.toList ++ cs) (ps ++ Token.placed above ts) (above.toList ++ front) c := by
  induction h generalizing ps above front with
  | tail hpassed =>
    have hstands := (hpassed.isPassed hcs).stands above.toList fun t ht => Or.inl (hps t ht)
    rw [List.append_nil] at hstands
    rwa [Token.placed, List.append_nil]
  | @token t ts rest' hgap hne hline _ ih =>
    have hspaced : (above ++ t.spaced).toList =
        above.toList ++ (t.gap.toList ++ t.text.toList) := by
      rw [String.toList_append, Token.spaced, String.toList_append]
    have htokens : ps ++ Token.placed above (t :: ts) =
        (ps ++ [t.below above]) ++ Token.placed (above ++ t.spaced) ts := by
      rw [Token.placed, List.append_assoc]
      rfl
    have hbelow : (t.below above).gap.toList = above.toList ++ t.gap.toList := String.toList_append
    rcases exists_of_append_eq hcs with ⟨after, hfront, -⟩ | ⟨front₁, rfl, hcs₁⟩
    · -- in front of the token
      refine (hgap.isPassed hfront).stands above.toList fun u hu => ?_
      rcases List.mem_append.1 hu with hu | hu
      · exact Or.inl (hps u hu)
      · rcases List.mem_cons.1 hu with rfl | hu
        · exact Or.inr (by rw [hbelow])
        · have hlength := Token.length_le_of_mem_placed hu
          rw [hspaced, ← List.append_assoc, List.length_append] at hlength
          exact Or.inr (Nat.le_trans (Nat.le_add_right _ _) hlength)
    · rcases exists_of_append_eq hcs₁ with ⟨after, htext, -⟩ | ⟨front₂, rfl, hcs₂⟩
      · -- in the token
        refine .token (t.below above) front₁ after ?_ ⟨?_, htext⟩ fun hc => ?_
        · exact List.mem_append_right _ List.mem_cons_self
        · rw [hbelow, List.append_assoc]
        · have hmem : '\n' ∈ t.text.toList := by
            rw [htext, hc]
            exact List.mem_append_right _ List.mem_cons_self
          exact (hline hmem).newline_or
      · -- behind the token
        have hps' : ∀ u ∈ ps ++ [t.below above], (u.gap.toList ++ u.text.toList).length ≤
            (above ++ t.spaced).toList.length := by
          intro u hu
          rcases List.mem_append.1 hu with hu | hu
          · have hle := hps u hu
            simp only [hspaced, List.length_append] at hle ⊢
            omega
          · rw [List.mem_singleton.1 hu, hbelow, hspaced, List.append_assoc]
            exact Nat.le_refl _
        have hstands := ih hps' hcs₂
        rw [hspaced] at hstands
        rw [htokens]
        simpa only [List.append_assoc] using hstands

/-! ## Places -/

theorem Cut.text_ne_empty (h : Cut ts cs) : ∀ t ∈ ts, t.text ≠ "" := by
  induction h with
  | tail => exact fun t ht => absurd ht List.not_mem_nil
  | token _ hne _ _ ih => exact List.forall_mem_cons.2 ⟨hne, ih⟩

/-- Every token is a slice of the text, behind all that stands in front of it. -/
theorem Cut.exists_slice (h : Cut ts cs) (ht : t ∈ Token.placed above ts) :
    t.text ≠ "" ∧ ∃ behind, above.toList ++ cs = t.gap.toList ++ t.text.toList ++ behind := by
  induction h generalizing above with
  | tail => exact absurd ht List.not_mem_nil
  | @token u ts rest hgap hne hline _ ih =>
    rcases List.mem_cons.1 ht with rfl | ht
    · refine ⟨hne, rest, ?_⟩
      show _ = (above ++ u.gap).toList ++ u.text.toList ++ rest
      rw [String.toList_append]
      simp only [List.append_assoc]
    · obtain ⟨hne', behind, hbehind⟩ := ih ht
      refine ⟨hne', behind, ?_⟩
      rw [← hbehind, String.toList_append, Token.spaced, String.toList_append]
      simp only [List.append_assoc]

theorem Token.le_of_mem_placesFrom {offset : Nat} {place : Nat × Nat}
    (h : place ∈ placesFrom offset ts) : offset ≤ place.1 := by
  induction ts generalizing offset with
  | nil => exact absurd h List.not_mem_nil
  | cons t ts ih =>
    rw [placesFrom] at h
    rcases List.mem_cons.1 h with rfl | h
    · exact Nat.le_add_right _ _
    · have hle := ih h
      omega

/-- The places of tokens follow each other. -/
theorem Token.pairwise_placesFrom (offset : Nat) (ts : List Token) :
    (placesFrom offset ts).Pairwise fun a b => a.2 ≤ b.1 := by
  induction ts generalizing offset with
  | nil => exact List.Pairwise.nil
  | cons t ts ih => exact List.pairwise_cons.2 ⟨fun b hb => le_of_mem_placesFrom hb, ih _⟩

theorem Token.lt_of_mem_placesFrom {offset : Nat} {place : Nat × Nat}
    (hts : ∀ t ∈ ts, t.text ≠ "") (h : place ∈ placesFrom offset ts) : place.1 < place.2 := by
  induction ts generalizing offset with
  | nil => exact absurd h List.not_mem_nil
  | cons t ts ih =>
    obtain ⟨ht, hts⟩ := List.forall_mem_cons.1 hts
    rw [placesFrom] at h
    rcases List.mem_cons.1 h with rfl | h
    · have hsize : t.text.utf8ByteSize ≠ 0 := fun hzero => ht (String.utf8ByteSize_eq_zero_iff.1 hzero)
      exact Nat.lt_add_of_pos_right (Nat.pos_of_ne_zero hsize)
    · exact ih hts h

/-- Tokens cover a text: their places are apart, in order and not empty, each token is the slice of
the text at its place, and every character stands somewhere. -/
structure Covers (ts : List Token) (source : String) : Prop where
  ordered : (Token.places ts).Pairwise fun a b => a.2 ≤ b.1
  nonempty : ∀ place ∈ Token.places ts, place.1 < place.2
  /-- A place is how many bytes are in front of the token, and how many to its end. -/
  places : Token.places ts = (Token.placed "" ts).map Token.place
  slices : ∀ t ∈ Token.placed "" ts, ∃ behind, source = t.gap ++ t.text ++ behind
  stands : ∀ front c behind, source.toList = front ++ c :: behind →
    Stands source.toList (Token.placed "" ts) front c

/-- **The tokens of a text cover it.** -/
theorem tokenize_covers (source : String) : Covers (tokenize source) source where
  ordered := Token.pairwise_placesFrom 0 _
  nonempty _ h := Token.lt_of_mem_placesFrom (cut_tokenize source).text_ne_empty h
  places := Token.places_eq _
  slices t ht := by
    obtain ⟨-, behind, hbehind⟩ := (cut_tokenize source).exists_slice ht
    refine ⟨String.ofList behind, String.toList_injective ?_⟩
    rw [String.toList_append, String.toList_append, String.toList_ofList, ← hbehind]
    rfl
  stands front c behind hsource := by
    have hstands : Stands ("".toList ++ source.toList) ([] ++ Token.placed "" (tokenize source))
        ("".toList ++ front) c :=
      (cut_tokenize source).stands (fun t ht => absurd ht List.not_mem_nil) hsource
    exact hstands

end SvelteTypings.Script

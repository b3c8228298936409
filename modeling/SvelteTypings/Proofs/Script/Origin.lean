import SvelteTypings.Proofs.Script.Stretches

/-!
# Where tokens come from

Every token of a statement, and of what is cut from it, was read from the text of the script
(`isWritten_of_mem_significant`), so its kind tells how its text starts.
-/

namespace SvelteTypings.Script

variable {t u : Token} {ts : List Token} {s : Statement}

/-- The token is what is read at the start of some text. -/
def Token.IsWritten (t : Token) : Prop :=
  ∃ c cs, (Lexeme.classify c cs).1 = .token t.kind ∧
    t.text = String.ofList (c :: cs.take (Lexeme.classify c cs).2)

theorem Token.IsWritten.congr (h : t.IsWritten) (hkind : u.kind = t.kind) (htext : u.text = t.text) :
    u.IsWritten := by
  unfold Token.IsWritten
  rw [hkind, htext]
  exact h

theorem Token.IsWritten.classifies (h : t.IsWritten) : ∃ c cs n,
    Lexeme.Classifies c cs (.token t.kind) n ∧ t.text = String.ofList (c :: cs.take n) := by
  obtain ⟨c, cs, hcls, htext⟩ := h
  exact ⟨c, cs, _, Lexeme.classifies_iff.2 (Prod.ext hcls rfl), htext⟩

namespace Lexeme

theorem exists_classify_of_mem_read {cs : List Char} {l : Lexeme} (h : l ∈ read cs) :
    ∃ c cs', l = ⟨(classify c cs').1, c :: cs'.take (classify c cs').2⟩ := by
  fun_induction read cs with
  | case1 => exact absurd h List.not_mem_nil
  | case2 c cs cls n hclassify ih =>
    rcases List.mem_cons.1 h with rfl | h
    · exact ⟨c, cs, by rw [hclassify]⟩
    · exact ih h

theorem exists_lexeme_text_of_mem {gap : List Char} {ls : List Lexeme} (h : t ∈ tokensAfter gap ls) :
    ∃ l ∈ ls, l.cls = .token t.kind ∧ t.text = String.ofList l.text := by
  induction ls generalizing gap with
  | nil => exact absurd h List.not_mem_nil
  | cons l ls ih =>
    obtain ⟨cls, x⟩ := l
    have hlater : ∀ {gap}, t ∈ tokensAfter gap ls →
        ∃ l ∈ (⟨cls, x⟩ :: ls : List Lexeme), l.cls = .token t.kind ∧ t.text = String.ofList l.text :=
      fun hmem => by
        obtain ⟨l, hl, hsame⟩ := ih hmem
        exact ⟨l, List.mem_cons_of_mem _ hl, hsame⟩
    cases cls with
    | token k =>
      rcases List.mem_cons.1 h with rfl | h
      · exact ⟨_, List.mem_cons_self, rfl, rfl⟩
      · exact hlater h
    | blank => exact hlater h
    | stray => exact hlater h

end Lexeme

theorem isWritten_of_mem_tokenize {source : String} (h : t ∈ tokenize source) : t.IsWritten := by
  obtain ⟨l, hl, hcls, htext⟩ := Lexeme.exists_lexeme_text_of_mem h
  obtain ⟨c, cs, rfl⟩ := Lexeme.exists_classify_of_mem_read hl
  exact ⟨c, cs, hcls, htext⟩

/-- The tokens of statements are those of the run that is split. -/
theorem mem_of_mem_splitStatements (hs : s ∈ splitStatements ts) (ht : t ∈ s.tokens) : t ∈ ts := by
  obtain ⟨stretches, rest, hsplit, hcuts, -⟩ := splitStatements_cutsInto ts
  rw [hsplit] at hs
  obtain ⟨stretch, hstretch, rfl⟩ := List.mem_map.1 hs
  rw [hcuts.tokens]
  apply List.mem_append_left
  apply List.mem_flatMap.2
  exact ⟨stretch, hstretch, List.mem_append_left _ (List.mem_append_right _ ht)⟩

/-- A significant token differs from one of the run by its gap at most. -/
theorem exists_mem_of_mem_significant (h : t ∈ Token.significant ts) :
    ∃ u ∈ ts, t.kind = u.kind ∧ t.text = u.text := by
  have hbare : t.bare ∈ (ts.filter fun t => !t.isTrivia).map Token.bare := by
    rw [← map_bare_significantAfter "" ts]
    exact List.mem_map_of_mem h
  obtain ⟨u, hu, hsame⟩ := List.mem_map.1 hbare
  obtain ⟨hkind, -, htext⟩ := Token.mk.inj hsame
  exact ⟨u, List.mem_of_mem_filter hu, hkind.symm, htext.symm⟩

theorem isWritten_of_mem_significant {source : String} (hs : ∀ u ∈ ts, u ∈ tokenize source)
    (h : t ∈ Token.significant ts) : t.IsWritten := by
  obtain ⟨u, hu, hkind, htext⟩ := exists_mem_of_mem_significant h
  exact (isWritten_of_mem_tokenize (hs u hu)).congr hkind htext

/-! ## Texts of a kind -/

theorem text_of_less (h : t.IsWritten) (hkind : t.kind = .less) : t.text = "<" := by
  obtain ⟨c, cs, n, hreads, htext⟩ := h.classifies
  rw [hkind] at hreads
  rw [htext]
  cases hreads with
  | run hr => exact absurd hr (by simp [Lexeme.runClasses])
  | literal hc => exact absurd hc (by simp [Lexeme.quotes])
  | single hc =>
    obtain rfl : c = '<' := by simpa [Lexeme.singles] using hc
    rfl
  | mark hc => exact absurd hc (by simp [Lexeme.marks])

end SvelteTypings.Script

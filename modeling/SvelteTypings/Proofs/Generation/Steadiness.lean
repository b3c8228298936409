import SvelteTypings.Proofs.Compiler.Candidates
import SvelteTypings.Proofs.FileSystem.Memory
import SvelteTypings.Proofs.Generation.History
import SvelteTypings.Proofs.Generation.Listing
import SvelteTypings.Proofs.Path.Spelling

/-!
# Answers of the overlay last

A question to the overlay can change the table, and the next question is answered from the table.
Still the answers do not change while a run goes on. A table only ever gains entries that discovery
finds (`Config.Extends`), discovery looks at the real files alone, and it finds a component behind
every spelling of its intermediate file that it can strip the suffix from (`Config.Finds.of_same`).
Nor does a text change once it can be read, for a real file is never covered by an entry that is
discovered later.

One kind of spelling is an exception: with a separator or a `.` at its end, the path of an
intermediate file has no suffix to strip. Discovery finds nothing there, while the table knows the
path as soon as the file has been discovered under its proper name (`answer_changes`).
-/

namespace SvelteTypings.Generation

open SvelteTypings.Path (Alike IsSuffix intermediateSuffix isSuffix_intermediate)

/-! ## What a table comes to -/

/-- What the overlay answers when it is asked for a file. -/
def Setting.answer (s : Setting) (t : Table) (p : Path) : Except Failure Bool :=
  (overlayExists s.discovery s.fs t p).1

/-- What the overlay lets be read at a path. -/
def Setting.text (s : Setting) (t : Table) (p : Path) : Except Failure (Option String) :=
  overlayText? s.fs t p

/-- The table that some events leave, one after the other. -/
def Setting.afterAll (s : Setting) (t : Table) (events : List Event) : Table :=
  events.foldl s.after t

/-- The table has the entries of an earlier one, with their texts, and others that were discovered.
-/
structure Setting.Extends (s : Setting) (t t' : Table) : Prop where
  keeps : ∀ k e, t.Holds k e → ∃ e', t'.Holds k e' ∧ e'.source = e.source
  gains : ∀ k ∈ t'.keys, k ∈ t.keys ∨ ∃ e, s.discovery k = .ok (some e)

variable {s : Setting} {c : Config} {transformer : Transformer} {m : MemoryFiles} {cwd p k : Path}
  {compiler : Compiler} {t t' t'' : Table} {e : Entry}

theorem Setting.extends_self (s : Setting) (t : Table) : s.Extends t t :=
  ⟨fun _ e he => ⟨e, he, rfl⟩, fun _ => Or.inl⟩

theorem Setting.Extends.trans (h : s.Extends t t') (h' : s.Extends t' t'') : s.Extends t t'' where
  keeps k e he := by
    obtain ⟨e', he', hsource⟩ := h.keeps k e he
    obtain ⟨e'', he'', hsource'⟩ := h'.keeps k e' he'
    exact ⟨e'', he'', hsource'.trans hsource⟩
  gains k hk := by
    rcases h'.gains k hk with hk | hfound
    · exact h.gains k hk
    · exact Or.inr hfound

theorem Setting.Extends.mem_keys (h : s.Extends t t') (hk : k ∈ t.keys) : k ∈ t'.keys := by
  obtain ⟨e, he⟩ := Table.mem_keys_iff.1 hk
  obtain ⟨e', he', -⟩ := h.keeps k e he
  exact he'.mem_keys

theorem Setting.Extends.contains (h : s.Extends t t') (hp : t.contains p) : t'.contains p := by
  obtain ⟨k, hk, hsame⟩ := Table.contains_iff.1 hp
  exact Table.contains_iff.2 ⟨k, h.mem_keys hk, hsame⟩

/-- An event keeps the entries and adds one at most, which was discovered. -/
theorem Setting.extends_after (hd : s.discovery.Keyed) (t : Table) (event : Event) :
    s.Extends t (s.after t event) := by
  cases event with
  | passBegins =>
    refine ⟨fun k e he => ?_, fun k hk => Or.inl ?_⟩
    · exact ⟨_, Table.holds_clearDiscovered_iff.2 ⟨e, he, rfl⟩, rfl⟩
    · exact Table.keys_clearDiscovered t ▸ hk
  | called call =>
    cases call with
    | save p text =>
      refine ⟨fun k e he => ?_, fun k hk => Or.inl ?_⟩
      · refine ⟨_, Table.holds_capture_iff.2 ⟨e, he, rfl⟩, ?_⟩
        split <;> rfl
      · exact Table.keys_capture t p text ▸ hk
    | fileExists p =>
      show s.Extends t (overlayExists s.discovery s.fs t p).2
      rcases overlayExists_cases s.discovery s.fs t p with heq | ⟨e, hnew, hfound, heq⟩
      · rw [heq]
        exact s.extends_self t
      · have hkey : Table.keyFor e.component = p := hd p e hfound
        have hnew' : ¬ t.contains (Table.keyFor e.component) := hkey ▸ hnew
        rw [heq]
        refine ⟨fun k x hx => ?_, fun k hk => ?_⟩
        · exact ⟨x, (Table.holds_insertDiscovered_iff hnew').2 (Or.inr hx), rfl⟩
        · rcases (Table.mem_keys_insertDiscovered_iff hnew').1 hk with rfl | hk
          · exact Or.inr ⟨e, hkey ▸ hfound⟩
          · exact Or.inl hk

/-- So do all events of a run together. -/
theorem Setting.extends_afterAll (hd : s.discovery.Keyed) (t : Table) (events : List Event) :
    s.Extends t (s.afterAll t events) := by
  induction events generalizing t with
  | nil => exact s.extends_self t
  | cons event events ih => exact (s.extends_after hd t event).trans (ih _)

/-! ## Discovery under another spelling -/

/-- Whether a component can be transformed depends on its text alone. -/
def Uniform (transformer : Transformer) : Prop :=
  ∀ text p q transformed, transformer text p = .ok transformed →
    ∃ transformed', transformer text q = .ok transformed'

theorem uniform_copy : Uniform fun text _ => .ok text :=
  fun text _ _ _ _ => ⟨text, rfl⟩

theorem uniform_typing : Uniform Component.typing := by
  intro text p q transformed h
  rw [Component.typing] at h ⊢
  cases hparts : Component.parts text with
  | error e =>
    rw [hparts] at h
    exact absurd h (by simp)
  | ok parts => exact ⟨_, rfl⟩

/-- A kind of component that is told by extensions is told by the last segment. -/
theorem endsInOneOf_of_alike {extensions : List String} {q : Path}
    (hext : ∀ e ∈ extensions, '/' ∉ e.toList) (h : Alike p q)
    (hq : Config.endsInOneOf extensions q) : Config.endsInOneOf extensions p := by
  obtain ⟨e, he, hsuffix⟩ := List.any_eq_true.1 hq
  refine List.any_eq_true.2 ⟨e, he, ?_⟩
  rw [List.isSuffixOf_iff_suffix] at hsuffix ⊢
  exact (h.isSuffix_display_iff (Path.separator_not_mem_encode (hext e he))).2 hsuffix

/-- A component may get types under every spelling of its path that suffixes go to in the same way.
-/
theorem mayType_of_same {q : Path} (hsame : (Table.keyFor p).same (Table.keyFor q))
    (hq : mayType m.fileSystem q = .ok true) : mayType m.fileSystem p = .ok true := by
  have hpresent : ∀ {suffix : String}, IsSuffix (Text.encode suffix) →
      m.fileSystem.present (q.appendSuffix suffix) = false →
        m.fileSystem.present (p.appendSuffix suffix) = false := by
    intro suffix hsuffix hq
    rw [MemoryFiles.present_congr
      ((Path.same_appendSuffix_congr isSuffix_intermediate hsuffix).1 hsame)]
    exact hq
  obtain ⟨htyped, hintermediate, hdeclaration⟩ := mayType_eq_ok_true_iff.1 hq
  exact mayType_eq_ok_true_iff.2 ⟨hpresent Path.isSuffix_typed htyped,
    hpresent isSuffix_intermediate hintermediate, hpresent Path.isSuffix_declaration hdeclaration⟩

/-- **Discovery finds a component behind every spelling that has the suffix.** -/
theorem Config.Finds.of_same {extensions : List String}
    (hcomponent : c.isComponent = Config.endsInOneOf extensions)
    (hext : ∀ e ∈ extensions, '/' ∉ e.toList) (htransformer : Uniform transformer)
    (h : c.Finds m.fileSystem transformer k e) (hsuffix : p.hasSuffix intermediateSuffix)
    (hsame : p.same k) : ∃ e', c.Finds m.fileSystem transformer p e' := by
  obtain ⟨component, rfl⟩ := Path.hasSuffix_iff_exists.1 hsuffix
  have hkeys : (Table.keyFor component).same (Table.keyFor e.component) := h.key ▸ hsame
  have halike : Alike component e.component :=
    Path.alike_of_same_appendSuffix isSuffix_intermediate hkeys
  have hunder : c.isUnderSource component := by
    have hbelow := isUnderSource_of_destination? h.destination
    rw [Config.isUnderSource, ← Path.startsWith_congr halike.same] at hbelow
    exact hbelow
  obtain ⟨destination, hdestination⟩ : ∃ destination, c.destination? component = some destination :=
    Option.ne_none_iff_exists'.1 fun hnone => destination?_eq_none_iff.1 hnone hunder
  obtain ⟨text, transformed, hread, htransformed, -⟩ := synthesize_eq_ok_iff.1 h.source
  obtain ⟨transformed', htransformed'⟩ := htransformer text _ component transformed htransformed
  have hread' : m.fileSystem.read component = .ok text :=
    MemoryFiles.read_congr (Path.same_symm halike.same) hread
  refine ⟨⟨component, directiveText ++ transformed', destination, none, false⟩, rfl, ?_, ?_, ?_, ?_,
    hdestination, synthesize_eq_ok_iff.2 ⟨text, transformed', hread', htransformed', rfl⟩, rfl⟩
  · exact (MemoryFiles.isFile_congr halike.same).trans h.isFile
  · rw [hcomponent]
    exact endsInOneOf_of_alike hext halike (hcomponent ▸ h.isComponent)
  · exact mayType_of_same hkeys h.mayType
  · exact (Path.startsWith_congr hsame).trans h.underSource

/-- Where an intermediate file is discovered there is no real file. -/
theorem Config.Finds.isFile_eq_false (h : c.Finds m.fileSystem transformer k e) (hsame : k.same p) :
    m.fileSystem.isFile p = false := by
  have habsent := (mayType_eq_ok_true_iff.1 h.mayType).2.1
  rw [← MemoryFiles.isFile_congr hsame, h.key, FileSystem.isFile]
  show (m.fileSystem.present (e.component.appendSuffix intermediateSuffix) && _) = false
  rw [habsent, Bool.false_and]

/-! ## Answers -/

theorem answer_of_contains (hp : t.contains p) : s.answer t p = .ok true := by
  rw [Setting.answer, overlayExists, if_pos hp]

theorem answer_of_nothing (hp : ¬ t.contains p) (hnone : s.discovery p = .ok none) :
    s.answer t p = .ok (s.fs.isFile p) := by
  rw [Setting.answer, overlayExists, if_neg hp, hnone]

/-- What is discovered is there, in whatever table. -/
theorem answer_of_found (hd : s.discovery.Keyed) (hfound : s.discovery p = .ok (some e)) (t : Table) :
    s.answer t p = .ok true := by
  rw [Setting.answer, overlayExists_fst hd, hfound]
  split <;> rfl

/-- Tables that do not know a path answer alike. -/
theorem answer_eq_of_not_contains (hd : s.discovery.Keyed) (hp : ¬ t.contains p)
    (hp' : ¬ t'.contains p) : s.answer t' p = s.answer t p := by
  rw [Setting.answer, Setting.answer, overlayExists_fst hd, overlayExists_fst hd, if_neg hp, if_neg hp']

/-- Discovery finds nothing behind a path that ends in a void segment. -/
theorem discoverComponent_of_endsVoid {fs : FileSystem} (hp : p.EndsVoid) :
    discoverComponent c fs transformer p = .ok none := by
  have hstrip : p.stripSuffix? intermediateSuffix = none :=
    if_neg fun hsuffix => Path.not_endsVoid_of_hasSuffix isSuffix_intermediate hsuffix hp
  rw [discoverComponent, hstrip]

/-- **An answer stays as it is**, unless the path is that of an intermediate file, spelled with a
void segment at its end, and the file is discovered in between. -/
theorem answer_of_extends {extensions : List String}
    (hcomponent : c.isComponent = Config.endsInOneOf extensions)
    (hext : ∀ e ∈ extensions, '/' ∉ e.toList) (htransformer : Uniform transformer)
    (hs : s = c.setting transformer compiler m.fileSystem cwd) (h : s.Extends t t') (p : Path) :
    s.answer t' p = s.answer t p ∨
      p.EndsVoid ∧ s.answer t p = .ok false ∧ s.answer t' p = .ok true ∧
        ∃ k ∈ t'.keys, k ∉ t.keys ∧ k.same p := by
  have hkeyed : s.discovery.Keyed := hs ▸ keyed_discoverComponent c m.fileSystem transformer
  by_cases hp : t.contains p
  · exact Or.inl ((answer_of_contains (h.contains hp)).trans (answer_of_contains hp).symm)
  by_cases hp' : t'.contains p
  · obtain ⟨k, hk, hsame⟩ := Table.contains_iff.1 hp'
    have hnew : k ∉ t.keys := fun hk => hp (Table.contains_iff.2 ⟨k, hk, hsame⟩)
    obtain ⟨e, hfound⟩ := (h.gains k hk).resolve_left hnew
    rw [hs] at hfound
    have hfinds : c.Finds m.fileSystem transformer k e := finds_of_discoverComponent hfound
    rw [answer_of_contains hp']
    by_cases hvoid : p.EndsVoid
    · -- there is no suffix to strip, and no real file either
      have hnone : s.discovery p = .ok none := hs ▸ discoverComponent_of_endsVoid hvoid
      have hfile : s.fs.isFile p = false := hs ▸ hfinds.isFile_eq_false hsame
      refine Or.inr ⟨hvoid, ?_, rfl, k, hk, hnew, hsame⟩
      rw [answer_of_nothing hp hnone, hfile]
    · have hsuffix : p.hasSuffix intermediateSuffix :=
        Path.hasSuffix_of_same isSuffix_intermediate (hfinds.key ▸ Path.same_symm hsame) hvoid
      obtain ⟨e', hfinds'⟩ :=
        hfinds.of_same hcomponent hext htransformer hsuffix (Path.same_symm hsame)
      have hfound' := discoverComponent_of_finds hfinds'
      rw [hs] at hkeyed ⊢
      exact Or.inl (answer_of_found hkeyed hfound' t).symm
  · exact Or.inl (answer_eq_of_not_contains hkeyed hp hp')

/-! ## Texts -/

/-- **A text that can be read stays the same.** -/
theorem exists_text_of_answer (hs : s = c.setting transformer compiler m.fileSystem cwd)
    (h : s.answer t p = .ok true) :
    ∃ text, ∀ t', s.Extends (s.after t (.called (.fileExists p))) t' →
      s.text t' p = .ok (some text) := by
  have hasked : Asked s.discovery s.fs t p (s.answer t p) (s.after t (.called (.fileExists p))) :=
    asked_overlayExists s.discovery s.fs t p
  generalize s.after t (.called (.fileExists p)) = after at hasked ⊢
  by_cases hp : after.contains p
  · -- the text of the entry is kept
    obtain ⟨k, hk, hsame⟩ := Table.contains_iff.1 hp
    obtain ⟨e, he⟩ := Table.mem_keys_iff.1 hk
    refine ⟨e.source, fun t' hextends => ?_⟩
    obtain ⟨e', he', hsource⟩ := hextends.keeps k e he
    have hget : t'.get? p = some e' := Table.get?_eq_some_iff.2 ⟨k, he', hsame⟩
    rw [Setting.text, overlayText?, hget, ← hsource]
  · -- the file is real, and what is discovered later is not
    have hfile : s.fs.isFile p := by
      rw [h] at hasked
      generalize hanswer : (Except.ok true : Except Failure Bool) = answer at hasked
      cases hasked with
      | known hknown => exact absurd hknown hp
      | failed hnew e hd => exact absurd hanswer (by simp)
      | nothing hnew hd => exact (Except.ok.inj hanswer).symm
      | found hnew e hd =>
        have htrue := (Except.ok.inj hanswer).symm
        rw [Bool.not_eq_true] at hp
        rw [hp, Bool.false_or] at htrue
        exact htrue
    rw [hs] at hfile
    obtain ⟨text, htext⟩ := MemoryFiles.exists_textOf?_of_isFile hfile
    refine ⟨text, fun t' hextends => ?_⟩
    have hnot : ¬ t'.contains p := by
      intro hcontains
      obtain ⟨k, hk, hsame⟩ := Table.contains_iff.1 hcontains
      rcases hextends.gains k hk with hk | ⟨e, hfound⟩
      · exact hp (Table.contains_iff.2 ⟨k, hk, hsame⟩)
      · rw [hs] at hfound
        have hfinds : c.Finds m.fileSystem transformer k e := finds_of_discoverComponent hfound
        have habsent := hfinds.isFile_eq_false hsame
        exact absurd hfile (by rw [Config.setting, habsent]; decide)
    rw [Setting.text, overlayText?, Table.get?_eq_none_iff.2 hnot, hs]
    exact htext

/-! ## Whole runs -/

/-- What lasts about a path, whatever happens to a table. -/
structure Setting.Lasts (s : Setting) (start : Table) (p : Path) : Prop where
  /-- Whatever has happened before and whatever happens in between, the answer is the same again. It
  may turn from false to true if the path ends in a void segment. -/
  answer : ∀ events later,
    s.answer (s.afterAll (s.afterAll start events) later) p =
        s.answer (s.afterAll start events) p ∨
      p.EndsVoid ∧ s.answer (s.afterAll start events) p = .ok false ∧
        s.answer (s.afterAll (s.afterAll start events) later) p = .ok true ∧
          ∃ k ∈ (s.afterAll (s.afterAll start events) later).keys,
            k ∉ (s.afterAll start events).keys ∧ k.same p
  /-- After an answer that there is a file, one text is read for good. -/
  text : ∀ events, s.answer (s.afterAll start events) p = .ok true →
    ∃ text, ∀ later,
      s.text (s.afterAll (s.after (s.afterAll start events) (.called (.fileExists p))) later) p =
        .ok (some text)

/-- **Answers of the overlay last.** Over files in memory, whatever a compiler asks and writes in
whatever passes, a question has the same answer at all times, and a file that is there keeps its
text. -/
theorem answers_last (c : Config) (extensions : List String) (transformer : Transformer)
    (compiler : Compiler) (m : MemoryFiles) (cwd : Path) (start : Table) (p : Path)
    (hcomponent : c.isComponent = Config.endsInOneOf extensions)
    (hext : ∀ e ∈ extensions, '/' ∉ e.toList)
    (htransformer : (transformer = fun text _ => .ok text) ∨ transformer = Component.typing) :
    (c.setting transformer compiler m.fileSystem cwd).Lasts start p := by
  have huniform : Uniform transformer := by
    rcases htransformer with rfl | rfl
    · exact uniform_copy
    · exact uniform_typing
  generalize hs : c.setting transformer compiler m.fileSystem cwd = s
  have hkeyed : s.discovery.Keyed := hs ▸ keyed_discoverComponent c m.fileSystem transformer
  refine ⟨fun events later => ?_, fun events h => ?_⟩
  · have hextends := Setting.extends_afterAll hkeyed (s.afterAll start events) later
    exact answer_of_extends hcomponent hext huniform hs.symm hextends p
  · obtain ⟨text, htext⟩ := exists_text_of_answer hs.symm h
    refine ⟨text, fun later => htext _ ?_⟩
    exact Setting.extends_afterAll hkeyed _ later

/-- One component, which is not listed. -/
def unlistedFiles : MemoryFiles := .ofList [(.ofString "/s/A.svelte", "")]

def unlistedConfig : Config where
  source := .ofString "/s"
  output := .ofString "/o"
  isComponent := Config.endsInOneOf [".svelte"]

def unlistedSetting : Setting :=
  unlistedConfig.setting (fun text _ => .ok text) askLonger unlistedFiles.fileSystem .root

/-- The intermediate file of the component is there from the first question on, and stays. -/
theorem answers_last_unlisted :
    (∀ e ∈ [".svelte"], '/' ∉ e.toList) ∧
      unlistedSetting.answer .empty (.ofString "/s/A.svelte.tsx") = .ok true ∧
        unlistedSetting.Lasts .empty (.ofString "/s/A.svelte.tsx") := by
  have hext : ∀ e ∈ [".svelte"], '/' ∉ e.toList := by decide
  have hanswer : unlistedSetting.answer .empty (.ofString "/s/A.svelte.tsx") = .ok true :=
    eq_ok_of_toOption (by decide +kernel)
  exact ⟨hext, hanswer, answers_last _ [".svelte"] _ _ _ _ _ _ rfl hext (Or.inl rfl)⟩

/-- With a separator at its end, the same path is no file until the file has been discovered. -/
theorem answer_changes :
    (initialTable unlistedConfig (fun text _ => .ok text) unlistedFiles.fileSystem .root
        unlistedConfig.components .empty).1 = .ok .empty ∧
      unlistedSetting.answer .empty (.ofString "/s/A.svelte.tsx/") = .ok false ∧
        unlistedSetting.answer
          (unlistedSetting.afterAll .empty [.called (.fileExists (.ofString "/s/A.svelte.tsx"))])
          (.ofString "/s/A.svelte.tsx/") = .ok true := by
  refine ⟨rfl, eq_ok_of_toOption ?_, eq_ok_of_toOption ?_⟩
  · decide
  · decide +kernel

end SvelteTypings.Generation

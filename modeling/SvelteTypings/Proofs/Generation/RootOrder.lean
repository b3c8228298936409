import SvelteTypings.Proofs.Compiler.Files
import SvelteTypings.Proofs.Compiler.SameBuild
import SvelteTypings.Proofs.FileSystem.Memory
import SvelteTypings.Proofs.Generation.Visibility
import SvelteTypings.Proofs.Path.Named

/-!
# The order of roots, over files and over a table

Files in memory answer the same whenever they are asked. The overlay does so too, although its table
grows: what a question adds depends on the path alone, and once it is added it is found again. Only
a file that has not been discovered yet cannot be read, so the roots have to be in the table from
the beginning; everything else is asked for before it is read.
-/

namespace SvelteTypings

open SvelteTypings.Path (IsCanonical isSuffix_intermediate)

/-! ## Files in memory -/

namespace MemoryFiles

variable {m : MemoryFiles} {σ : Type} {host : Host σ} {s : σ} {p : Path}

/-- What the files say. -/
def answers (m : MemoryFiles) : Answers where
  isFile p := .ok (m.fileSystem.isFile p)
  textOf := m.fileSystem.textOf?
  isDirectory := m.fileSystem.isDirectory

/-- A file under a canonical path is one of the files, normalised. -/
theorem mem_map_normalize (hp : IsCanonical p) (hfile : m.fileSystem.isFile p) :
    p ∈ m.files.keys.map Path.normalize := by
  obtain ⟨q, hq, hsame⟩ := exists_key_of_isFile hfile
  exact List.mem_map.2 ⟨q, hq, (hp.eq_normalize hsame).symm⟩

theorem steady (h : host.Shows m.fileSystem s)
    (hcapacity : m.fileSystem.capacity ≤ host.capacity s) :
    Steady host s m.answers (fun _ => True) fun _ t => t = s where
  initial := rfl
  fileExists asked t p ht _ := by
    subst ht
    rw [h.fileExists]
    exact ⟨rfl, rfl⟩
  textOf asked t p ht _ _ := by
    subst ht
    exact h.textOf p
  directoryExists asked t p ht := by
    subst ht
    exact h.directoryExists p
  textOf_ne_none p _ hfile := FileSystem.textOf?_ne_none_of_isFile (Except.ok.inj hfile)
  unique _ _ t t' _ ht ht' := ht.trans ht'.symm
  capacity ps hnodup hps := by
    have hsub : ps ⊆ m.files.keys.map Path.normalize := by
      intro p hp
      obtain ⟨hoffers, text, htext⟩ := hps p hp
      exact mem_map_normalize hoffers.canonical (FileSystem.isFile_of_textOf? htext)
    have hlength := hnodup.length_le_of_subset hsub
    have hsize : m.files.keys.length = m.fileSystem.capacity := List.length_map _
    rw [List.length_map, hsize] at hlength
    exact Nat.le_trans hlength hcapacity

end MemoryFiles

/-! ## Questions to the overlay -/

namespace Generation

variable {c : Config} {transformer : Transformer} {m : MemoryFiles} {fs : FileSystem}
  {d : Discovery} {start t t' : Table} {asked asked' : List Path} {p k : Path} {e : Entry}

/-- What discovery adds to a table behind a path that the table does not know. -/
def Discovery.Adds (d : Discovery) (start : Table) (k : Path) (e : Entry) : Prop :=
  ¬ start.contains k ∧ ∃ x, d k = .ok (some x) ∧ e = { x with discovered := true }

/-- The table is what questions for some paths have made of another one, in whatever order. -/
structure Table.AfterAsking (d : Discovery) (start : Table) (asked : List Path) (t : Table) :
    Prop where
  canonical : ∀ p ∈ asked, IsCanonical p
  holds_iff : ∀ k e, t.Holds k e ↔ start.Holds k e ∨ k ∈ asked ∧ d.Adds start k e

theorem Table.afterAsking_nil (d : Discovery) (t : Table) : Table.AfterAsking d t [] t :=
  ⟨fun _ hp => absurd hp List.not_mem_nil, fun k e => by simp⟩

/-- Which paths have been asked for decides what the table is. -/
theorem Table.AfterAsking.unique (h : Table.AfterAsking d start asked t)
    (h' : Table.AfterAsking d start asked' t') (hasked : ∀ q, q ∈ asked ↔ q ∈ asked') : t = t' := by
  have hentries : t.entries = t'.entries := by
    refine PathMap.eq_of_mem_iff fun entry => ?_
    show t.Holds entry.1 entry.2 ↔ t'.Holds entry.1 entry.2
    rw [h.holds_iff, h'.holds_iff, hasked]
  exact congrArg Table.mk hentries

/-- Under a canonical path the table holds what it did at the beginning, or what a question for this
very path has added. -/
theorem Table.AfterAsking.get?_eq_some_iff (h : Table.AfterAsking d start asked t)
    (hp : IsCanonical p) :
    t.get? p = some e ↔ start.get? p = some e ∨ p ∈ asked ∧ d.Adds start p e := by
  rw [Table.get?_eq_some_iff, Table.get?_eq_some_iff]
  refine ⟨?_, ?_⟩
  · rintro ⟨k, hk, hsame⟩
    rcases (h.holds_iff k e).1 hk with hk | ⟨hmem, hadds⟩
    · exact Or.inl ⟨k, hk, hsame⟩
    · obtain rfl := (h.canonical k hmem).eq_of_same hp hsame
      exact Or.inr ⟨hmem, hadds⟩
  · rintro (⟨k, hk, hsame⟩ | ⟨hmem, hadds⟩)
    · exact ⟨k, (h.holds_iff k e).2 (Or.inl hk), hsame⟩
    · exact ⟨p, (h.holds_iff p e).2 (Or.inr ⟨hmem, hadds⟩), Path.same_refl p⟩

theorem Table.AfterAsking.contains_iff (h : Table.AfterAsking d start asked t)
    (hp : IsCanonical p) :
    t.contains p ↔ start.contains p ∨ p ∈ asked ∧ ∃ e, d.Adds start p e := by
  rw [Table.contains_iff_exists_get?, Table.contains_iff_exists_get?]
  simp only [h.get?_eq_some_iff hp, exists_or, exists_and_left]

/-- A question is answered as at the beginning. -/
theorem Table.AfterAsking.answer_eq (h : Table.AfterAsking d start asked t) (hd : d.Keyed)
    (hp : IsCanonical p) : (overlayExists d fs t p).1 = (overlayExists d fs start p).1 := by
  rw [overlayExists_fst hd, overlayExists_fst hd]
  by_cases hstart : start.contains p
  · rw [if_pos hstart, if_pos ((h.contains_iff hp).2 (Or.inl hstart))]
  · rw [if_neg hstart]
    split
    · next hcontains =>
      -- the path has been asked for before, and was answered with what it added
      obtain ⟨-, e, -, x, hx, -⟩ := ((h.contains_iff hp).1 hcontains).resolve_left hstart
      rw [hx]
      rfl
    · rfl

/-- A question adds to the table what it would have added at the beginning. -/
theorem Table.AfterAsking.ask (h : Table.AfterAsking d start asked t) (hd : d.Keyed)
    (hp : IsCanonical p) : Table.AfterAsking d start (p :: asked) (overlayExists d fs t p).2 := by
  have hcanonical : ∀ q ∈ p :: asked, IsCanonical q := by
    intro q hq
    rcases List.mem_cons.1 hq with rfl | hq
    · exact hp
    · exact h.canonical q hq
  refine ⟨hcanonical, fun k e => ?_⟩
  -- where the table stays, whatever could be added behind the path has been added already
  have hstays : (d.Adds start p e → p ∈ asked) →
      (t.Holds k e ↔ start.Holds k e ∨ k ∈ p :: asked ∧ d.Adds start k e) := by
    intro hadded
    rw [h.holds_iff]
    refine or_congr_right ⟨fun ⟨hk, hadds⟩ => ⟨List.mem_cons_of_mem p hk, hadds⟩, ?_⟩
    rintro ⟨hk, hadds⟩
    rcases List.mem_cons.1 hk with rfl | hk
    · exact ⟨hadded hadds, hadds⟩
    · exact ⟨hk, hadds⟩
  generalize hanswer : (overlayExists d fs t p).1 = answer
  generalize htable : (overlayExists d fs t p).2 = t'
  have hasked := asked_overlayExists d fs t p
  rw [hanswer, htable] at hasked
  cases hasked with
  | known hcontains =>
    refine hstays fun hadds => ?_
    exact (((h.contains_iff hp).1 hcontains).resolve_left hadds.1).1
  | failed _ error hfailed =>
    refine hstays fun ⟨_, x, hx, _⟩ => ?_
    exact absurd (hfailed.symm.trans hx) (by simp)
  | nothing _ hnothing =>
    refine hstays fun ⟨_, x, hx, _⟩ => ?_
    exact absurd (hnothing.symm.trans hx) (by simp)
  | found hnew x hx =>
    have hkey := hd p x hx
    have hstart : ¬ start.contains p := fun hstart => hnew ((h.contains_iff hp).2 (Or.inl hstart))
    rw [Table.holds_insertDiscovered_iff (hkey ▸ hnew), h.holds_iff, hkey]
    refine ⟨?_, ?_⟩
    · rintro (⟨rfl, rfl⟩ | hold | ⟨hk, hadds⟩)
      · exact Or.inr ⟨List.mem_cons_self, hstart, x, hx, rfl⟩
      · exact Or.inl hold
      · exact Or.inr ⟨List.mem_cons_of_mem p hk, hadds⟩
    · rintro (hold | ⟨hk, hadds⟩)
      · exact Or.inr (Or.inl hold)
      · rcases List.mem_cons.1 hk with rfl | hk
        · obtain ⟨-, x', hx', rfl⟩ := hadds
          obtain rfl : x = x' := Option.some.inj (Except.ok.inj (hx.symm.trans hx'))
          exact Or.inl ⟨rfl, rfl⟩
        · exact Or.inr (Or.inr ⟨hk, hadds⟩)

/-! ## The overlay -/

/-- What the overlay answers, beginning with a table. -/
def overlayAnswers (d : Discovery) (fs : FileSystem) (start : Table) : Answers where
  isFile p := (overlayExists d fs start p).1
  textOf p := overlayText? fs (overlayExists d fs start p).2 p
  isDirectory := fs.isDirectory

/-- A file is read as it would be after its own question, if it has been asked for or was in the
table from the beginning. -/
theorem Table.AfterAsking.overlayText?_eq (h : Table.AfterAsking d start asked t) (hd : d.Keyed)
    (hp : IsCanonical p) (hready : start.contains p ∨ p ∈ asked) :
    overlayText? fs t p = (overlayAnswers d fs start).textOf p := by
  have hafter : Table.AfterAsking d start [p] (overlayExists d fs start p).2 :=
    (Table.afterAsking_nil d start).ask hd hp
  have hget : t.get? p = (overlayExists d fs start p).2.get? p := by
    refine Option.ext fun e => ?_
    show t.get? p = some e ↔ (overlayExists d fs start p).2.get? p = some e
    rw [h.get?_eq_some_iff hp, hafter.get?_eq_some_iff hp]
    refine or_congr_right (and_congr_left fun hadds => ?_)
    exact iff_of_true (hready.resolve_left hadds.1) List.mem_cons_self
  show _ = overlayText? fs (overlayExists d fs start p).2 p
  rw [overlayText?, overlayText?, hget]

/-- What is there can be read. -/
theorem overlayText?_ne_none (h : (overlayExists d fs t p).1 = .ok true) :
    overlayText? fs (overlayExists d fs t p).2 p ≠ .ok none := by
  have hread : ∀ t : Table, (t.contains p || fs.isFile p) = true →
      overlayText? fs t p ≠ .ok none := by
    intro t hthere
    rw [overlayText?]
    cases hget : t.get? p with
    | some e => simp
    | none =>
      have hcontains : t.contains p = false := by simpa using Table.get?_eq_none_iff.1 hget
      rw [hcontains, Bool.false_or] at hthere
      exact FileSystem.textOf?_ne_none_of_isFile hthere
  generalize hanswer : (overlayExists d fs t p).1 = answer at h
  generalize htable : (overlayExists d fs t p).2 = t'
  have hasked := asked_overlayExists d fs t p
  rw [hanswer, htable] at hasked
  cases hasked with
  | known hcontains => exact hread t (by rw [hcontains]; rfl)
  | failed => exact absurd h (by simp)
  | nothing _ _ => exact hread t (by rw [Except.ok.inj h, Bool.or_true])
  | found _ x _ => exact hread _ (Except.ok.inj h)

/-! ## How many files there are -/

/-- The files that can be there because there is one file. -/
def filesFrom (q : Path) : List Path := q.normalize :: q.spellingsBefore.map Table.keyFor

/-- Behind a path that the overlay shows there is an entry of the table or a file. -/
theorem mem_filesFrom (hp : IsCanonical p)
    (hthere : start.contains p ∨
      (overlayExists (discoverComponent c m.fileSystem transformer) m.fileSystem start p).1 =
        .ok true) :
    p ∈ start.keys.map Path.normalize ++ m.files.keys.flatMap filesFrom := by
  have hbehind : ∀ {component q : Path}, q ∈ filesFrom component → component ∈ m.files.keys →
      q ∈ start.keys.map Path.normalize ++ m.files.keys.flatMap filesFrom := fun hq hcomponent =>
    List.mem_append_right _ (List.mem_flatMap.2 ⟨_, hcomponent, hq⟩)
  by_cases hstart : start.contains p
  · obtain ⟨k, hk, hsame⟩ := Table.contains_iff.1 hstart
    exact List.mem_append_left _ (List.mem_map.2 ⟨k, hk, (hp.eq_normalize hsame).symm⟩)
  · have hanswer := hthere.resolve_left hstart
    rw [overlayExists_fst (keyed_discoverComponent c m.fileSystem transformer),
      if_neg hstart] at hanswer
    cases hfound : discoverComponent c m.fileSystem transformer p with
    | error e => simp [hfound, Except.map] at hanswer
    | ok found =>
      cases found with
      | some e =>
        have hfinds := finds_of_discoverComponent hfound
        obtain ⟨q, hq, hsame⟩ := MemoryFiles.exists_key_of_isFile hfinds.isFile
        refine hbehind (List.mem_cons_of_mem _ ?_) hq
        rw [hfinds.key] at hp ⊢
        exact List.mem_map_of_mem (Path.mem_spellingsBefore isSuffix_intermediate hp hsame)
      | none =>
        have hfile : m.fileSystem.isFile p := by simpa [hfound, Except.map] using hanswer
        obtain ⟨q, hq, hsame⟩ := MemoryFiles.exists_key_of_isFile hfile
        exact hbehind (hp.eq_normalize hsame ▸ List.mem_cons_self) hq

/-- A real file is behind four of them. -/
theorem length_filesFrom (m : MemoryFiles) (start : Table) :
    (start.keys.map Path.normalize ++ m.files.keys.flatMap filesFrom).length =
      4 * m.files.size + start.size := by
  have hstart : start.keys.length = start.size := List.length_map _
  have hfiles : m.files.keys.length = m.files.size := List.length_map _
  have hfour : (m.files.keys.flatMap filesFrom).length = 4 * m.files.keys.length := by
    rw [List.length_flatMap]
    show (m.files.keys.map fun _ => 4).sum = _
    rw [List.map_const', List.sum_replicate_nat, Nat.mul_comm]
  rw [List.length_append, List.length_map, hfour, hstart, hfiles, Nat.add_comm]

theorem overlay_steady (c : Config) (transformer : Transformer) (m : MemoryFiles) (cwd : Path)
    (t : Table) :
    Steady (c.host m.fileSystem transformer cwd) t
      (overlayAnswers (discoverComponent c m.fileSystem transformer) m.fileSystem t)
      (fun p => t.contains p)
      (Table.AfterAsking (discoverComponent c m.fileSystem transformer) t) where
  initial := Table.afterAsking_nil _ t
  fileExists asked t' p h hp :=
    have hd := keyed_discoverComponent c m.fileSystem transformer
    ⟨h.answer_eq hd hp, h.ask hd hp⟩
  textOf asked t' p h hoffers hready :=
    h.overlayText?_eq (keyed_discoverComponent c m.fileSystem transformer) hoffers.canonical hready
  directoryExists _ _ _ _ := rfl
  textOf_ne_none _ _ hfile := overlayText?_ne_none hfile
  unique _ _ _ _ hasked h h' := h.unique h' hasked
  capacity ps hnodup hps := by
    have hsub : ps ⊆ t.keys.map Path.normalize ++ m.files.keys.flatMap filesFrom := fun p hp =>
      mem_filesFrom (hps p hp).1.canonical (hps p hp).1.known
    have hlength := hnodup.length_le_of_subset hsub
    rw [length_filesFrom] at hlength
    exact hlength

/-! ## The order of roots -/

/-- **The order of the roots does not matter**, neither over files in memory, nor over a table of
which the roots are normalised keys. The files may be shown by any host, whatever it does with what
is written. The table may hold any entries, and discovery adds to it while files are loaded. -/
theorem sameBuild_of_perm (m : MemoryFiles) (roots roots' : List Path) (hperm : roots.Perm roots') :
    (∀ (σ : Type) (host : Host σ) (s : σ), host.Shows m.fileSystem s →
      m.fileSystem.capacity ≤ host.capacity s → SameBuild host s roots roots') ∧
    (∀ (c : Config) (transformer : Transformer) (cwd : Path) (t : Table),
      (∀ r ∈ roots, r ∈ t.keys ∧ r.isAbsolute ∧ r.normalize = r) →
        SameBuild (c.host m.fileSystem transformer cwd) t roots roots') := by
  refine ⟨?_, ?_⟩
  · intro σ host s hshows hcapacity
    exact (MemoryFiles.steady hshows hcapacity).sameBuild (fun _ _ => trivial) hperm
  · intro c transformer cwd t hroots
    have hrooted : ∀ r ∈ roots, Path.IsRooted r := fun r hr =>
      Path.isRooted_of_normalize_eq (hroots r hr).2.1 (hroots r hr).2.2
    have hrootsOf : Steady.rootsOf (c.host m.fileSystem transformer cwd) roots = roots :=
      Path.map_normalize_join _ hrooted
    refine (overlay_steady c transformer m cwd t).sameBuild ?_ hperm
    rw [hrootsOf]
    exact fun r hr => Table.contains_of_mem_keys (hroots r hr).1

/-- Two components that import a third one, and each of them something that is missing. -/
def importers : MemoryFiles :=
  .ofList [(.ofString "/A.svelte", "import './B.svelte'\nimport './x'"),
    (.ofString "/B.svelte", ""), (.ofString "/C.svelte", "import './B.svelte'\nimport './y'")]

def importersConfig : Config where
  source := .root
  output := .ofString "/o"
  isComponent := Config.endsInOneOf [".svelte"]

/-- The table in which the two are listed. -/
def importersTable : Table :=
  (Table.empty.insert { component := .ofString "/A.svelte", destination := .ofString "/o/A.d.ts"
                        source := "import './B.svelte'\nimport './x'" }).insert
    { component := .ofString "/C.svelte", destination := .ofString "/o/C.d.ts"
      source := "import './B.svelte'\nimport './y'" }

def importersHost : Host Table :=
  importersConfig.host importers.fileSystem (fun text _ => .ok text) .root

/-- In both orders the third component is discovered, and what is missing is remarked on. -/
theorem sameBuild_of_perm_importers :
    SameBuild (Host.capturing importers.fileSystem .root) .empty importersTable.keys
        importersTable.keys.reverse ∧
      SameBuild importersHost importersTable importersTable.keys importersTable.keys.reverse ∧
      ∀ roots ∈ [importersTable.keys, importersTable.keys.reverse],
        ((Program.build roots).run importersHost importersTable).state.keys =
            ["/A.svelte.tsx", "/B.svelte.tsx", "/C.svelte.tsx"].map Path.ofString ∧
          ((Program.build roots).run importersHost importersTable).result.toOption.map
            (fun program => program.diagnostics.map (·.file)) = some (roots.map some) := by
  have hsame := sameBuild_of_perm importers importersTable.keys importersTable.keys.reverse
    (List.reverse_perm _).symm
  refine ⟨?_, ?_, by decide +kernel⟩
  · exact hsame.1 _ _ _ (Host.shows_capturing _ _ _) (Nat.le_refl _)
  · exact hsame.2 importersConfig (fun text _ => .ok text) .root importersTable (by decide)

end Generation

end SvelteTypings

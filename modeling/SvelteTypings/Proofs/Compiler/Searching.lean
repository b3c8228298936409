import SvelteTypings.Proofs.Compiler.Candidates
import SvelteTypings.Proofs.FileSystem.Memory
import SvelteTypings.Proofs.Path.Spelling

/-!
# Searching in full

Resolution leaves index files out when the imported path is no directory. `searchInFull` leaves
nothing out and never asks for a directory. Where a host shows nothing inside a path that is no
directory, the two searches end in the same way and in the same state (`run_search_eq`). In memory
this is so for the real files, and for the components behind intermediate files, as long as no file
is stored under the root or under the empty path: the candidates that lie in these two are made by
appending a suffix to them, and not all of them are index files.
-/

namespace SvelteTypings

variable {σ α : Type} {host : Host σ}

/-! ## Questions -/

/-- What is asked about a path, with the answer. -/
inductive Question where
  | file (p : Path) (answer : Except Failure Bool)
  | directory (p : Path) (answer : Bool)

def Question.isDirectory : Question → Bool
  | .file _ _ => false
  | .directory _ _ => true

/-- After a file has been found, nothing more is asked. -/
def EndsAtHit (questions : List Question) : Prop :=
  ∀ before p after, questions = before ++ .file p (.ok true) :: after → after = []

theorem endsAtHit_nil : EndsAtHit [] := by
  intro before p after h
  exact absurd (congrArg List.length h) (by simp)

theorem endsAtHit_cons {q : Question} {questions : List Question}
    (hq : ∀ p, q = .file p (.ok true) → questions = []) (h : EndsAtHit questions) :
    EndsAtHit (q :: questions) := by
  intro before p after heq
  cases before with
  | nil =>
    obtain ⟨hhead, htail⟩ := List.cons.inj heq
    exact htail ▸ hq p hhead
  | cons q' before => exact h before p after (List.cons.inj heq).2

/-- The questions of a session, in order. -/
def Session.questions (host : Host σ) : Session α → σ → List Question
  | .done _, _ => []
  | .fileExists p next, s =>
    let (answer, t) := host.fileExists s p
    .file p answer :: (next answer).questions host t
  | .textOf p next, s => (next (host.textOf s p)).questions host s
  | .save p text next, s =>
    let (answer, t) := host.save s p text
    (next answer).questions host t
  | .directoryExists p next, s =>
    .directory p (host.directoryExists s p) :: (next (host.directoryExists s p)).questions host s
  | .currentDirectory next, s => (next host.currentDirectory).questions host s
  | .capacity next, s => (next (host.capacity s)).questions host s
  | .note _ next, s => next.questions host s

namespace Resolution

/-! ## The full search -/

/-- Takes the candidate if it exists, and goes on otherwise. -/
def probe (candidate : Path) (rest : Session (Option Path)) : Session (Option Path) := do
  if ← Session.exists? candidate then pure (some candidate) else rest

/-- Tries all candidates in order. -/
def searchInFull : List Path → Session (Option Path)
  | [] => pure none
  | candidate :: rest => probe candidate (searchInFull rest)

/-- The file that a relative specifier means, if every candidate is tried. -/
def resolveInFull (specifier : String) (importer : Path) : Session (Option Path) :=
  if Script.isRelative specifier then searchInFull (candidates (importBase specifier importer))
  else pure none

variable {base p : Path} {ps : List Path} {known : Option Bool} {b : Bool} {s : σ}
  {rest rest' : Session (Option Path)}

/-! ## Steps of a search -/

theorem search_cons_beside (h : isIndex base p = false) :
    search base known (p :: ps) = probe p (search base known ps) := by
  rw [search, h, if_neg Bool.false_ne_true]
  rfl

theorem search_cons_known (h : isIndex base p) :
    search base (some b) (p :: ps) =
      if b then probe p (search base (some b) ps) else search base (some b) ps := by
  rw [search, if_pos h]
  rfl

/-- The directory is asked for when the first candidate in it is reached. -/
theorem search_cons_unknown (h : isIndex base p) :
    search base none (p :: ps) =
      Session.isDirectory base >>= fun b => search base (some b) (p :: ps) := by
  rw [search, if_pos h]
  refine congrArg (Session.isDirectory base >>= ·) (funext fun b => ?_)
  rw [search_cons_known h]
  rfl

theorem run_probe (host : Host σ) (s : σ) :
    (probe p rest).run host s =
      match (host.fileExists s p).1 with
      | .ok true => ⟨.ok (some p), (host.fileExists s p).2, []⟩
      | .ok false => rest.run host (host.fileExists s p).2
      | .error e => ⟨.error e, (host.fileExists s p).2, []⟩ := by
  show ((Session.done (host.fileExists s p).1).bind _).run host (host.fileExists s p).2 = _
  cases (host.fileExists s p).1 with
  | error e => rfl
  | ok found => cases found <;> rfl

theorem run_probe_congr
    (h : rest.run host (host.fileExists s p).2 = rest'.run host (host.fileExists s p).2) :
    (probe p rest).run host s = (probe p rest').run host s := by
  rw [run_probe, run_probe, h]

/-- A candidate that is not there is passed over. -/
theorem run_probe_absent (h : host.fileExists s p = (.ok false, s)) :
    (probe p rest).run host s = rest.run host s := by
  rw [run_probe, h]

/-! ## The two searches -/

/-- While a property of the state holds, the host says the same of the directory, and shows none of
the candidates in it if it says that there is no such directory. -/
structure Prunable (host : Host σ) (P : σ → Prop) (base : Path) (ps : List Path) : Prop where
  keeps : ∀ s p, P s → P (host.fileExists s p).2
  steady : ∀ s s', P s → P s' → host.directoryExists s base = host.directoryExists s' base
  absent : ∀ s, P s → host.directoryExists s base = false →
    ∀ p ∈ ps, isIndex base p → host.fileExists s p = (.ok false, s)

theorem Prunable.tail {P : σ → Prop} (h : Prunable host P base (p :: ps)) :
    Prunable host P base ps :=
  ⟨h.keeps, h.steady, fun s hs hno q hq => h.absent s hs hno q (List.mem_cons_of_mem p hq)⟩

/-- **Both searches end in the same way.** What is known of the directory when the search goes on is
what the host says of it. -/
theorem run_search_eq {P : σ → Prop} (h : Prunable host P base ps) (hs : P s)
    (hknown : ∀ b, known = some b → host.directoryExists s base = b) :
    (search base known ps).run host s = (searchInFull ps).run host s := by
  induction ps generalizing known s with
  | nil => rfl
  | cons p ps ih =>
    have hnext : ∀ s known, P s → (∀ b, known = some b → host.directoryExists s base = b) →
        (search base known ps).run host s = (searchInFull ps).run host s :=
      fun s known hs hknown => ih h.tail hs hknown
    have hprobe : ∀ known, (∀ b, known = some b → host.directoryExists s base = b) →
        (probe p (search base known ps)).run host s =
          (probe p (searchInFull ps)).run host s := by
      intro known hknown
      refine run_probe_congr (hnext _ known (h.keeps s p hs) fun b hb => ?_)
      rw [h.steady _ s (h.keeps s p hs) hs]
      exact hknown b hb
    rw [searchInFull]
    -- Only a probe under the directory is answered without asking for it.
    cases hindex : isIndex base p with
    | false =>
      rw [search_cons_beside hindex]
      exact hprobe known hknown
    | true =>
      have hanswered : (search base (some (host.directoryExists s base)) (p :: ps)).run host s =
          (probe p (searchInFull ps)).run host s := by
        have hsaid : ∀ b, some (host.directoryExists s base) = some b →
            host.directoryExists s base = b := fun b hb => Option.some.inj hb
        rw [search_cons_known hindex]
        cases hdirectory : host.directoryExists s base with
        | true =>
          rw [if_pos rfl]
          exact hprobe (some true) (hdirectory ▸ hsaid)
        | false =>
          rw [if_neg Bool.false_ne_true,
            run_probe_absent (h.absent s hs hdirectory p List.mem_cons_self hindex)]
          exact hnext s (some false) hs (hdirectory ▸ hsaid)
      cases known with
      | some b => rwa [hknown b rfl] at hanswered
      | none =>
        rw [search_cons_unknown hindex]
        exact hanswered

/-- A resolution that is relative searches the candidates of one canonical path. -/
theorem run_resolve_eq {P : σ → Prop} {specifier : String} {importer : Path}
    (h : ∀ base, Path.IsCanonical base → Prunable host P base (candidates base)) (hs : P s) :
    (resolve specifier importer).run host s = (resolveInFull specifier importer).run host s := by
  rw [resolve, resolveInFull]
  split
  · exact run_search_eq (h _ (Path.isCanonical_normalize _)) hs fun b hb => absurd hb (by simp)
  · rfl

/-! ## What is asked -/

theorem questions_probe (host : Host σ) (s : σ) :
    (probe p rest).questions host s = .file p (host.fileExists s p).1 ::
      if (host.fileExists s p).1 matches .ok false then
        rest.questions host (host.fileExists s p).2
      else [] := by
  refine congrArg (List.cons _) ?_
  show ((Session.done (host.fileExists s p).1).bind _).questions host (host.fileExists s p).2 = _
  cases (host.fileExists s p).1 with
  | error e => rfl
  | ok found => cases found <;> rfl

/-- A search asks for the directory at most once, not at all if it knows the answer, and ends when
it has found a file. -/
theorem questions_search (host : Host σ) (base : Path) (known : Option Bool) (ps : List Path)
    (s : σ) :
    ((search base known ps).questions host s).countP Question.isDirectory ≤
        (if known.isSome then 0 else 1) ∧
      EndsAtHit ((search base known ps).questions host s) := by
  induction ps generalizing known s with
  | nil => exact ⟨Nat.zero_le _, endsAtHit_nil⟩
  | cons p ps ih =>
    have hprobe : ∀ known, ((probe p (search base known ps)).questions host s).countP
          Question.isDirectory ≤ (if known.isSome then 0 else 1) ∧
        EndsAtHit ((probe p (search base known ps)).questions host s) := by
      intro known
      rw [questions_probe]
      split
      · next hmiss =>
        refine ⟨(ih known _).1, endsAtHit_cons (fun q hq => ?_) (ih known _).2⟩
        rw [(Question.file.inj hq).2] at hmiss
        exact absurd hmiss (by simp)
      · exact ⟨Nat.zero_le _, endsAtHit_cons (fun _ _ => rfl) endsAtHit_nil⟩
    have hknown : ∀ b, ((search base (some b) (p :: ps)).questions host s).countP
          Question.isDirectory ≤ 0 ∧
        EndsAtHit ((search base (some b) (p :: ps)).questions host s) := by
      intro b
      cases hindex : isIndex base p with
      | false =>
        rw [search_cons_beside hindex]
        exact hprobe (some b)
      | true =>
        rw [search_cons_known hindex]
        cases b with
        | true => exact hprobe (some true)
        | false => exact ih (some false) s
    cases known with
    | some b => exact hknown b
    | none =>
      cases hindex : isIndex base p with
      | false =>
        rw [search_cons_beside hindex]
        exact hprobe none
      | true =>
        obtain ⟨hcount, hends⟩ := hknown (host.directoryExists s base)
        -- from here on the answer is known
        have hasks : (search base none (p :: ps)).questions host s =
            .directory base (host.directoryExists s base) ::
              (search base (some (host.directoryExists s base)) (p :: ps)).questions host s := by
          rw [search_cons_unknown hindex]
          rfl
        rw [hasks]
        refine ⟨?_, endsAtHit_cons (fun q hq => absurd hq (by simp)) hends⟩
        rw [List.countP_cons_of_pos rfl]
        exact Nat.succ_le_succ hcount

theorem questions_resolve (host : Host σ) (specifier : String) (importer : Path) (s : σ) :
    ((resolve specifier importer).questions host s).countP Question.isDirectory ≤ 1 ∧
      EndsAtHit ((resolve specifier importer).questions host s) := by
  rw [resolve]
  split
  · exact questions_search host _ none _ s
  · exact ⟨Nat.zero_le _, endsAtHit_nil⟩

/-! ## Candidates in the path -/

/-- What lies in a path has its components and one more. -/
theorem components_of_isIndex (hp : Path.IsCanonical p) (h : isIndex base p) :
    ∃ n, p.components = base.components ++ [Path.Component.ofPlain n] := by
  obtain ⟨absolute, ss, htidy, rfl⟩ := hp
  rw [isIndex, Path.parent?_written htidy.plain] at h
  split at h
  · exact absurd h (by simp)
  · next hne =>
    have hfront : ∀ s ∈ ss.dropLast, Path.Plain s := fun s hs =>
      htidy.plain s ((List.dropLast_sublist ss).mem hs)
    rw [Option.any_some, Path.same_iff, Path.components_written hfront] at h
    refine ⟨ss.getLast hne, ?_⟩
    rw [← h, Path.components_written htidy.plain, List.append_assoc, ← List.map_singleton,
      ← List.map_append, List.dropLast_concat_getLast]

/-- A candidate that lies in the path is an index file, or it is made of the root or the empty path
by a suffix. -/
theorem eq_of_isIndex (hbase : Path.IsCanonical base) (hp : p ∈ candidates base)
    (h : isIndex base p) :
    ∃ s ∈ typedSuffixes,
      p.components = base.components ++ [.name (Text.encode ("index" ++ s))] ∨
        p.components = base.components ++ [.name (Text.encode s)] ∧
          (base = Path.root ∨ base = Path.empty) := by
  obtain ⟨n, hn⟩ := components_of_isIndex (isCanonical_of_mem_candidates hbase hp) h
  have hlength := congrArg List.length hn
  rw [List.length_append, List.length_singleton] at hlength
  cases candidate_of_mem hp with
  | itself => exact absurd hlength (by omega)
  | exchanged stem s s' heq hs hs' =>
    -- another suffix does not change the number of components
    obtain ⟨front, last, hsplit⟩ := Path.exists_split_eq stem.bytes
    rw [heq, Path.components_appendSuffix hsplit (isSuffix_of_mem_sourceSuffixes hs),
      Path.components_appendSuffix hsplit (isSuffix_of_mem_typedSuffixes hs'),
      List.length_append, List.length_append] at hlength
    exact absurd hlength (by simp)
  | appended s hs =>
    obtain ⟨absolute, ss, htidy, rfl⟩ := hbase
    have hss : ss = [] := by
      refine Classical.byContradiction fun hne => ?_
      -- with segments there is a last one, and the suffix only makes it longer
      obtain ⟨front, last, rfl⟩ : ∃ front last, ss = front ++ [last] :=
        ⟨ss.dropLast, ss.getLast hne, (List.dropLast_concat_getLast hne).symm⟩
      have hlast := (htidy.plain last (by simp)).separator_not_mem
      have hsuffixed := (isSuffix_of_mem_typedSuffixes hs).plain hlast
      have hplain : ∀ t ∈ front ++ [last ++ Text.encode s], Path.Plain t :=
        (Path.tidy_concat (Path.tidy_of_concat htidy) hsuffixed.1 fun _ => hsuffixed.2).plain
      rw [Path.written_appendSuffix, Path.components_written hplain,
        Path.components_written htidy.plain] at hlength
      simp at hlength
    subst hss
    have hsplit : Path.split (Path.written absolute []).bytes =
        (if absolute then [[]] else []) ++ [[]] := by cases absolute <;> rfl
    refine ⟨s, hs, Or.inr ⟨?_, ?_⟩⟩
    · rw [Path.components_appendSuffix hsplit (isSuffix_of_mem_typedSuffixes hs)]
      cases absolute <;> rfl
    · cases absolute
      · exact Or.inr rfl
      · exact Or.inl rfl
  | index s hs =>
    obtain ⟨absolute, ss, htidy, rfl⟩ := hbase
    obtain ⟨hplain, hup⟩ := plain_index hs
    have hall : ∀ t ∈ ss ++ [Text.encode ("index" ++ s)], Path.Plain t :=
      (Path.tidy_concat htidy hplain fun _ => hup).plain
    refine ⟨s, hs, Or.inl ?_⟩
    rw [Path.ofString, Path.join_written htidy.plain hplain, Path.components_written hall,
      Path.components_written htidy.plain, List.map_append, List.append_assoc, List.map_singleton,
      Path.Component.ofPlain, if_neg hup]

/-! ## Files in memory -/

variable {m : MemoryFiles} {component : Path} {text : String}

/-- What has one component more lies below. -/
theorem isDirectory_of_components {c : Path.Component} (hread : m.read p = .ok text)
    (h : p.components = base.components ++ [c]) : m.isDirectory base := by
  refine MemoryFiles.isDirectory_of_below hread ?_ ?_
  · rw [Path.startsWith, h, List.isPrefixOf_iff_prefix]
    exact List.prefix_append _ _
  · rw [Path.same_iff, h]
    simp

/-- A candidate in a path that is no directory is no file. -/
theorem isFile_of_isIndex (hbase : Path.IsCanonical base) (hp : p ∈ candidates base)
    (h : isIndex base p) (hno : m.isDirectory base = false) : m.fileSystem.isFile p = false := by
  rw [← Bool.not_eq_true]
  intro hfile
  obtain ⟨text, hread⟩ := MemoryFiles.exists_text_of_isFile hfile
  obtain ⟨n, hn⟩ := components_of_isIndex (isCanonical_of_mem_candidates hbase hp) h
  rw [isDirectory_of_components hread hn] at hno
  exact absurd hno (by decide)

theorem void_of_ofSegment? {last : Path.Segment} (h : Path.Component.ofSegment? last = none) :
    last = [] ∨ last = [Path.dot] := by
  rw [Path.Component.ofSegment?, Path.isVoid] at h
  split at h
  · next hvoid => simpa using hvoid
  · exact absurd h (by split <;> simp)

/-- A void segment with the suffix of intermediate files is no index file, and only the empty one is
another candidate. -/
theorem not_index_of_void : ∀ last ∈ ([[], [Path.dot]] : List Path.Segment),
    last ++ Text.encode Path.intermediateSuffix ∉
        typedSuffixes.map (fun s => Text.encode ("index" ++ s)) ∧
      (last ++ Text.encode Path.intermediateSuffix ∈ typedSuffixes.map Text.encode →
        last = []) := by decide

/-- A component whose intermediate file is a candidate in a path that is no directory is that path,
and has no name. -/
theorem same_of_isIndex_keyFor (hbase : Path.IsCanonical base) (hp : p ∈ candidates base)
    (h : isIndex base p) (hno : m.isDirectory base = false) (hread : m.read component = .ok text)
    (hsame : p.same (component.appendSuffix Path.intermediateSuffix)) :
    component.same base ∧ (base = Path.root ∨ base = Path.empty) := by
  obtain ⟨front, last, hsplit⟩ := Path.exists_split_eq component.bytes
  rw [Path.same_iff, Path.components_appendSuffix hsplit Path.isSuffix_intermediate] at hsame
  obtain ⟨n, hcomponents, hn⟩ : ∃ n, p.components = base.components ++ [.name n] ∧
      (n ∈ typedSuffixes.map (fun s => Text.encode ("index" ++ s)) ∨
        n ∈ typedSuffixes.map Text.encode ∧ (base = Path.root ∨ base = Path.empty)) := by
    obtain ⟨s, hs, hindex | ⟨hplain, hwhich⟩⟩ := eq_of_isIndex hbase hp h
    · exact ⟨_, hindex, Or.inl (List.mem_map_of_mem hs)⟩
    · exact ⟨_, hplain, Or.inr ⟨List.mem_map_of_mem hs, hwhich⟩⟩
  rw [hcomponents] at hsame
  obtain ⟨hfront, hname⟩ := List.append_inj' hsame rfl
  rw [List.cons.injEq, Path.Component.name.injEq] at hname
  obtain ⟨rfl, -⟩ := hname
  cases hlast : Path.Component.ofSegment? last with
  | some c =>
    -- the component lies in the path itself
    have hdot : last ≠ [Path.dot] := by
      rintro rfl
      rw [Path.ofSegment?_dot] at hlast
      exact absurd hlast (by simp)
    have hbelow := Path.components_of_split hsplit fun _ => hdot
    rw [← hfront, hlast] at hbelow
    rw [isDirectory_of_components hread hbelow] at hno
    exact absurd hno (by decide)
  | none =>
    obtain ⟨hindex, hplain⟩ := not_index_of_void last (by simpa using void_of_ofSegment? hlast)
    obtain ⟨hsuffix, hwhich⟩ := hn.resolve_left hindex
    obtain rfl := hplain hsuffix
    refine ⟨?_, hwhich⟩
    rw [Path.same_iff, Path.components_of_split hsplit (by simp), ← hfront]
    exact List.append_nil _

/-- Nor is it the intermediate file of a component that can be read. -/
theorem not_same_keyFor_of_isIndex (hroot : ¬ m.files.contains Path.root)
    (hempty : ¬ m.files.contains Path.empty) (hbase : Path.IsCanonical base)
    (hp : p ∈ candidates base) (h : isIndex base p) (hno : m.isDirectory base = false)
    (hread : m.read component = .ok text) :
    ¬ p.same (component.appendSuffix Path.intermediateSuffix) := by
  intro hsame
  obtain ⟨hitself, hwhich⟩ := same_of_isIndex_keyFor hbase hp h hno hread hsame
  have hcontains : m.files.contains base :=
    PathMap.contains_congr hitself ▸ MemoryFiles.contains_of_read hread
  rcases hwhich with rfl | rfl
  · exact hroot hcontains
  · exact hempty hcontains

end Resolution

end SvelteTypings

import SvelteTypings.Compiler.Program
import SvelteTypings.Proofs.Generation.Visibility

/-!
# What imports lead to

A relative import means the first of its candidates that is there. With `Config.Available` this is
said without a table (`Config.Resolves`), and so is which files a run gets to see from the listed
components (`Config.Reaches`). Resolution in a session finds exactly what it should, though its
questions make files exist on the way (`resolves_of_resolve`, `resolves_of_resolveAll`).
-/

namespace SvelteTypings.Generation

open SvelteTypings.Path (IsRooted)
open Resolution (candidates importBase isIndex search)

/-! ## Imports apart from the table -/

/-- Resolution stops at a candidate that is there. In the imported path itself nothing is looked for
unless it is a directory. -/
structure Config.Stops (c : Config) (fs : FileSystem) (base p : Path) : Prop where
  directory : isIndex base p → fs.isDirectory base
  available : c.Available fs p

/-- The first of some candidates at which resolution stops. -/
def Config.First (c : Config) (fs : FileSystem) (base : Path) (ps : List Path) (p : Path) : Prop :=
  ∃ before after, ps = before ++ p :: after ∧ c.Stops fs base p ∧ ∀ q ∈ before, ¬ c.Stops fs base q

/-- A relative specifier in an importing file means a file. -/
structure Config.Resolves (c : Config) (fs : FileSystem) (specifier : String)
    (importer target : Path) : Prop where
  relative : Script.isRelative specifier
  first : c.First fs (importBase specifier importer) (candidates (importBase specifier importer))
    target

/-- A file imports another. -/
def Config.Imports (c : Config) (fs : FileSystem) (transformer : Transformer) (file target : Path) :
    Prop :=
  ∃ text specifier, c.Serves fs transformer file text ∧
    specifier ∈ Script.specifiers (Script.scan text) ∧ c.Resolves fs specifier file target

/-- A candidate that resolution asks for: it does not stop before, and an index file is asked for
only in a directory. -/
def Config.Probes (c : Config) (fs : FileSystem) (base : Path) (ps : List Path) (p : Path) : Prop :=
  ∃ before after, ps = before ++ p :: after ∧ (isIndex base p → fs.isDirectory base) ∧
    ∀ q ∈ before, ¬ c.Stops fs base q

/-- A file has a relative import in whose resolution a path is asked for. -/
def Config.Asks (c : Config) (fs : FileSystem) (transformer : Transformer) (file p : Path) : Prop :=
  ∃ text specifier, c.Serves fs transformer file text ∧
    specifier ∈ Script.specifiers (Script.scan text) ∧ Script.isRelative specifier ∧
      c.Probes fs (importBase specifier file) (candidates (importBase specifier file)) p

/-- What the listed components lead to through imports. -/
inductive Config.Reaches (c : Config) (fs : FileSystem) (transformer : Transformer) :
    Path → Prop where
  | listed {key : Path} (h : c.Lists fs key) : c.Reaches fs transformer key
  | imported {file target : Path} (h : c.Reaches fs transformer file)
      (himports : c.Imports fs transformer file target) : c.Reaches fs transformer target

variable {c : Config} {fs : FileSystem} {transformer : Transformer} {cwd base p q : Path}
  {t t' t'' : Table} {ps : List Path}

theorem Config.First.cons (h : c.Stops fs base p) (ps : List Path) : c.First fs base (p :: ps) p :=
  ⟨[], ps, rfl, h, fun _ hq => absurd hq List.not_mem_nil⟩

theorem Config.First.skip (hq : ¬ c.Stops fs base q) (h : c.First fs base ps p) :
    c.First fs base (q :: ps) p := by
  obtain ⟨before, after, rfl, hstops, hbefore⟩ := h
  refine ⟨q :: before, after, rfl, hstops, ?_⟩
  intro q' hq'
  rcases List.mem_cons.1 hq' with rfl | hq'
  · exact hq
  · exact hbefore q' hq'

theorem Config.First.mem (h : c.First fs base ps p) : p ∈ ps := by
  obtain ⟨before, after, rfl, -, -⟩ := h
  simp

theorem Config.First.stops (h : c.First fs base ps p) : c.Stops fs base p := by
  obtain ⟨-, -, -, hstops, -⟩ := h
  exact hstops

theorem Config.First.eq (h : c.First fs base ps p) (h' : c.First fs base ps q) : p = q := by
  obtain ⟨before, after, hps, hstops, hbefore⟩ := h
  obtain ⟨before', after', hps', hstops', hbefore'⟩ := h'
  rw [hps] at hps'
  -- of two candidates in one list, the later one would have the other before it
  rcases List.append_eq_append_iff.1 hps' with ⟨cs, hcs, htail⟩ | ⟨cs, hcs, htail⟩
  · cases cs with
    | nil => exact (List.cons.inj htail).1
    | cons x cs =>
      obtain ⟨rfl, -⟩ := List.cons.inj htail
      exact absurd hstops (hbefore' p (by simp [hcs]))
  · cases cs with
    | nil => exact (List.cons.inj htail).1.symm
    | cons x cs =>
      obtain ⟨rfl, -⟩ := List.cons.inj htail
      exact absurd hstops' (hbefore q (by simp [hcs]))

/-- A candidate is asked for first, or later when resolution does not stop at the first. -/
theorem Config.Probes.cons_cases (h : c.Probes fs base (p :: ps) q) :
    (q = p ∧ (isIndex base p → fs.isDirectory base)) ∨
      (¬ c.Stops fs base p ∧ c.Probes fs base ps q) := by
  obtain ⟨before, after, hps, hdirectory, hbefore⟩ := h
  cases before with
  | nil =>
    obtain ⟨rfl, -⟩ := List.cons.inj hps
    exact Or.inl ⟨rfl, hdirectory⟩
  | cons x before =>
    obtain ⟨rfl, rfl⟩ := List.cons.inj hps
    obtain ⟨hx, hbefore⟩ := List.forall_mem_cons.1 hbefore
    exact Or.inr ⟨hx, before, after, rfl, hdirectory, hbefore⟩

theorem Config.Resolves.available {specifier : String} (h : c.Resolves fs specifier p q) :
    c.Available fs q :=
  h.first.stops.available

theorem Config.Resolves.isTyped {specifier : String} (h : c.Resolves fs specifier p q)
    (hp : IsTyped p) : IsTyped q :=
  Resolution.isTyped_of_mem_candidates (Resolution.isRooted_importBase specifier hp.isScript)
    h.first.mem

/-! ## Search -/

/-- A search among candidates has ended with a result. -/
structure Config.Searched (c : Config) (fs : FileSystem) (transformer : Transformer) (base : Path)
    (ps : List Path) (t : Table) (result : Option Path) (t' : Table) : Prop where
  grows : c.Grows fs transformer t result.toList t'
  first : ∀ p, result = some p → c.First fs base ps p
  shown : ∀ p, result = some p → c.Shows fs p → p ∈ t'.keys
  nothing : result = none → ∀ p ∈ ps, ¬ c.Stops fs base p
  asked : ∀ p, c.Probes fs base ps p → c.Answers fs transformer p

variable {result : Option Path}

/-- A candidate that was passed over, with a question that has found nothing or without one. -/
theorem Config.Searched.skip (hp : ¬ c.Stops fs base p)
    (hanswers : (isIndex base p → fs.isDirectory base) → c.Answers fs transformer p)
    (hgrows : c.Grows fs transformer t [] t')
    (h : c.Searched fs transformer base ps t' result t'') :
    c.Searched fs transformer base (p :: ps) t result t'' where
  grows := by simpa using hgrows.trans h.grows
  first q hq := (h.first q hq).skip hp
  shown := h.shown
  nothing hnone q hq := by
    rcases List.mem_cons.1 hq with rfl | hq
    · exact hp
    · exact h.nothing hnone q hq
  asked q hq := by
    rcases hq.cons_cases with ⟨rfl, hdirectory⟩ | ⟨-, hq⟩
    · exact hanswers hdirectory
    · exact h.asked q hq

/-- A candidate that is looked for is the result, or the search goes on. -/
theorem searched_of_probe {known : Option Bool} (hclear : c.RootClear fs)
    (ht : c.View fs transformer t) (hp : IsRooted p) (hdirectory : isIndex base p → fs.isDirectory base)
    (hrest : ∀ t₁, c.View fs transformer t₁ →
      Session.Returns (c.host fs transformer cwd) (search base known ps) t₁ result t' →
      c.Searched fs transformer base ps t₁ result t')
    (h : Session.Returns (c.host fs transformer cwd)
      (do if ← Session.exists? p then pure (some p) else search base known ps) t result t') :
    c.Searched fs transformer base (p :: ps) t result t' := by
  obtain ⟨b, t₁, hasked, h⟩ := Session.returns_bind_iff.1 h
  obtain ⟨hgrows, hb, hshown⟩ := available_of_exists? hclear ht hp hasked
  have hanswers := answers_of_exists? ht hp hasked
  cases b with
  | true =>
    obtain ⟨rfl, rfl⟩ := Session.returns_pure_iff.1 h
    have hstops : c.Stops fs base p := ⟨hdirectory, hb.1 rfl⟩
    refine ⟨hgrows, ?_, ?_, fun hnone => absurd hnone (by simp), ?_⟩
    · rintro q hq
      cases hq
      exact Config.First.cons hstops ps
    · rintro q hq
      cases hq
      exact hshown
    · intro q hq
      rcases hq.cons_cases with ⟨rfl, -⟩ | ⟨hnot, -⟩
      · exact hanswers
      · exact absurd hstops hnot
  | false =>
    have hnot : ¬ c.Stops fs base p := fun hstops => Bool.false_ne_true (hb.2 hstops.available)
    exact (hrest t₁ hgrows.view h).skip hnot (fun _ => hanswers) hgrows

/-- A search finds the first candidate at which resolution stops. -/
theorem searched_of_search {known : Option Bool} (hclear : c.RootClear fs)
    (ht : c.View fs transformer t) (hps : ∀ p ∈ ps, IsRooted p)
    (hknown : ∀ b, known = some b → b = fs.isDirectory base)
    (h : Session.Returns (c.host fs transformer cwd) (search base known ps) t result t') :
    c.Searched fs transformer base ps t result t' := by
  induction ps generalizing known t with
  | nil =>
    obtain ⟨rfl, rfl⟩ := Session.returns_pure_iff.1 h
    refine ⟨ht.grows_self, fun p hp => absurd hp (by simp), fun p hp => absurd hp (by simp),
      fun _ p hp => absurd hp List.not_mem_nil, ?_⟩
    rintro p ⟨before, after, hnil, -, -⟩
    exact absurd hnil (by simp)
  | cons p ps ih =>
    obtain ⟨hp, hps⟩ := List.forall_mem_cons.1 hps
    rw [search] at h
    by_cases hindex : isIndex base p
    · rw [if_pos hindex] at h
      -- the directory is asked for once; the answer is the same either way
      obtain ⟨b, hb, h⟩ : ∃ b, b = fs.isDirectory base ∧
          Session.Returns (c.host fs transformer cwd)
            (if b then (do if ← Session.exists? p then pure (some p) else search base (some b) ps)
              else search base (some b) ps) t result t' := by
        cases known with
        | some b => exact ⟨b, hknown b rfl, h⟩
        | none =>
          obtain ⟨b, t₁, hasked, h⟩ := Session.returns_bind_iff.1 h
          obtain ⟨rfl, rfl⟩ := Session.returns_isDirectory_iff.1 hasked
          exact ⟨_, rfl, h⟩
      have hknown' : ∀ b', some b = some b' → b' = fs.isDirectory base := by
        rintro b' hb'
        cases hb'
        exact hb
      cases hdirectory : b with
      | true =>
        rw [hdirectory, if_pos rfl] at h
        rw [hdirectory] at hb hknown'
        exact searched_of_probe hclear ht hp (fun _ => hb.symm)
          (fun t₁ ht₁ => ih ht₁ hps hknown') h
      | false =>
        rw [hdirectory, if_neg Bool.false_ne_true] at h
        rw [hdirectory] at hb hknown'
        have hfalse : ¬ fs.isDirectory base := by
          rw [← hb]
          exact Bool.false_ne_true
        have hnot : ¬ c.Stops fs base p := fun hstops => hfalse (hstops.directory hindex)
        exact (ih ht hps hknown' h).skip hnot (fun hdirectory => absurd (hdirectory hindex) hfalse)
          ht.grows_self
    · rw [if_neg hindex] at h
      exact searched_of_probe hclear ht hp (fun h => absurd h hindex)
        (fun t₁ ht₁ => ih ht₁ hps hknown) h

/-! ## Resolution -/

/-- **Resolution finds what a specifier means.** -/
theorem resolves_of_resolve {specifier : String} (hclear : c.RootClear fs)
    (ht : c.View fs transformer t) (hp : IsTyped p) (hrelative : Script.isRelative specifier)
    (h : Session.Returns (c.host fs transformer cwd) (Resolution.resolve specifier p) t result t') :
    c.Grows fs transformer t result.toList t' ∧
      (∀ q, result = some q ↔ c.Resolves fs specifier p q) ∧
        (∀ q, result = some q → c.Shows fs q → q ∈ t'.keys) ∧
          ∀ q, c.Probes fs (importBase specifier p) (candidates (importBase specifier p)) q →
            c.Answers fs transformer q := by
  rw [Resolution.resolve, if_pos hrelative] at h
  have hbase := Resolution.isRooted_importBase specifier hp.isScript
  have hsearched := searched_of_search hclear ht
    (fun q hq => (Resolution.isTyped_of_mem_candidates hbase hq).rooted)
    (fun b hb => absurd hb (by simp)) h
  refine ⟨hsearched.grows, fun q => ⟨fun hq => ⟨hrelative, hsearched.first q hq⟩, ?_⟩,
    hsearched.shown, hsearched.asked⟩
  intro hresolves
  cases hresult : result with
  | none => exact absurd hresolves.first.stops (hsearched.nothing hresult q hresolves.first.mem)
  | some q' => rw [(hsearched.first q' hresult).eq hresolves.first]

/-- **All imports of a file are found.** The table gains entries under imports only. -/
theorem resolves_of_resolveAll {specifiers : List String} {program program' : Program}
    {imports : List Path} (hclear : c.RootClear fs) (ht : c.View fs transformer t) (hp : IsTyped p)
    (h : Session.Returns (c.host fs transformer cwd) (Program.resolveAll p specifiers program) t
      (imports, program') t') :
    c.Grows fs transformer t imports t' ∧ program'.files = program.files ∧
      (∀ q, q ∈ imports ↔ ∃ specifier ∈ specifiers, c.Resolves fs specifier p q) ∧
        (∀ q ∈ imports, c.Shows fs q → q ∈ t'.keys) ∧
          ∀ specifier ∈ specifiers, Script.isRelative specifier → ∀ q,
            c.Probes fs (importBase specifier p) (candidates (importBase specifier p)) q →
              c.Answers fs transformer q := by
  induction specifiers generalizing program imports t with
  | nil =>
    obtain ⟨hpair, rfl⟩ := Session.returns_pure_iff.1 h
    cases hpair
    exact ⟨ht.grows_self, rfl, by simp, by simp, by simp⟩
  | cons specifier specifiers ih =>
    rw [Program.resolveAll] at h
    by_cases hrelative : Script.isRelative specifier
    · rw [if_pos hrelative] at h
      obtain ⟨result, t₁, hresolve, h⟩ := Session.returns_bind_iff.1 h
      obtain ⟨hgrows, hresolves, hshown, hasked⟩ :=
        resolves_of_resolve hclear ht hp hrelative hresolve
      cases result with
      | none =>
        -- the specifier means nothing, which leaves a remark in the program
        obtain ⟨hrest, hfiles, hmem, hrestShown, hrestAsked⟩ := ih hgrows.view h
        refine ⟨by simpa using hgrows.trans hrest, hfiles, ?_, hrestShown,
          List.forall_mem_cons.2 ⟨fun _ => hasked, hrestAsked⟩⟩
        intro q
        have hnot : ¬ c.Resolves fs specifier p q := fun h => absurd ((hresolves q).2 h) (by simp)
        rw [hmem]
        simp [hnot]
      | some found =>
        obtain ⟨⟨imports', program₁⟩, t₂, hrest, h⟩ := Session.returns_bind_iff.1 h
        obtain ⟨hpair, rfl⟩ := Session.returns_pure_iff.1 h
        cases hpair
        obtain ⟨hrest, hfiles, hmem, hrestShown, hrestAsked⟩ := ih hgrows.view hrest
        refine ⟨hgrows.trans hrest, hfiles, ?_, ?_,
          List.forall_mem_cons.2 ⟨fun _ => hasked, hrestAsked⟩⟩
        · intro q
          simp only [List.mem_cons, hmem, exists_eq_or_imp, ← hresolves, Option.some.injEq]
          exact or_congr_left eq_comm
        · intro q hq hshows
          rcases List.mem_cons.1 hq with rfl | hq
          · exact hrest.mem_keys (hshown q rfl hshows)
          · exact hrestShown q hq hshows
    · rw [if_neg hrelative] at h
      obtain ⟨hrest, hfiles, hmem, hrestShown, hrestAsked⟩ := ih ht h
      refine ⟨hrest, hfiles, ?_, hrestShown,
        List.forall_mem_cons.2 ⟨fun h => absurd h hrelative, hrestAsked⟩⟩
      intro q
      have hnot : ¬ c.Resolves fs specifier p q := fun h => hrelative h.relative
      rw [hmem]
      simp [hnot]

end SvelteTypings.Generation

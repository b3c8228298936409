import SvelteTypings.Cli.Generate
import SvelteTypings.Proofs.Compiler.Session
import SvelteTypings.Proofs.FileSystem.Disk

/-!
# What a run writes

The calls of `persist` one after the other, as long as each of them has a result. What one call can
do is said once (`Persisted`); what a whole run keeps, writes first, writes last and leaves alone
follows by induction on the run.
-/

namespace SvelteTypings.Cli

open Disk (Extends location)
open SvelteTypings.Path (upward)
open Text (encode)

variable {policy : WritePolicy} {d d' d'' : Disk} {p : Path} {text : Option String}
  {outcome : WriteOutcome} {l : Location}

/-! ## One call -/

/-- What a call that has a result did. -/
inductive Persisted (policy : WritePolicy) (d : Disk) (p : Path) :
    Option String → WriteOutcome → Disk → Prop
  | noOutput : Persisted policy d p none .noOutput d
  | exists (text : String) (hoverwrite : policy.overwrite = false) (hpresent : d.present p) :
      Persisted policy d p (some text) .exists d
  | dryRun (text : String) (hdry : policy.dryRun) : Persisted policy d p (some text) .dryRun d
  | written (text : String) {above d' : Disk} (hdry : policy.dryRun = false)
      (hfree : policy.overwrite = false → d.present p = false) (houter : Extends p.outer d above)
      (hwrite : above.write p (encode text) = .ok d') : Persisted policy d p (some text) .written d'

theorem persisted_of_persist (h : persist policy d p text = (.ok outcome, d')) :
    Persisted policy d p text outcome d' := by
  cases text with
  | none =>
    obtain ⟨houtcome, rfl⟩ := Prod.mk.inj h
    rw [← Except.ok.inj houtcome]
    exact .noOutput
  | some text =>
    -- The cases are in the order of the code: it exists, a dry run, and a write that succeeds.
    rw [persist] at h
    split at h
    · next hpresent =>
      obtain ⟨hoverwrite, hpresent⟩ := Bool.and_eq_true_iff.1 hpresent
      obtain ⟨houtcome, rfl⟩ := Prod.mk.inj h
      rw [← Except.ok.inj houtcome]
      exact .exists text (by simpa using hoverwrite) hpresent
    · next hnot =>
      split at h
      · next hdry =>
        obtain ⟨houtcome, rfl⟩ := Prod.mk.inj h
        rw [← Except.ok.inj houtcome]
        exact .dryRun text hdry
      · next hdry =>
        rw [writeWithParents] at h
        split at h
        · exact absurd (Prod.mk.inj h).1 (by simp)
        · next above houter =>
          split at h
          · next hwrite =>
            obtain ⟨houtcome, rfl⟩ := Prod.mk.inj h
            rw [← Except.ok.inj houtcome]
            refine .written text (by simpa using hdry) (fun hoverwrite => ?_)
              (Disk.makeParents_ok houter) hwrite
            simpa [hoverwrite] using hnot
          · exact absurd (Prod.mk.inj h).1 (by simp)

/-- What a call may do to a location: a file is written where the call leads, or a directory is
added where one of those leads that it lies in. -/
structure Touches (d : Disk) (p : Path) (text : Option String) (d' : Disk) : Prop where
  current : d'.current = d.current
  tree : d.IsTree → d'.IsTree
  nodes : ∀ l, d'.node? l = d.node? l ∨
    text.isSome ∧ d.location p = l ∧ d.node? l ≠ some .directory ∧
      (∃ bytes, d'.node? l = some (.file bytes)) ∨
    text.isSome ∧ (∃ q ∈ p.outer, d.location q = l) ∧ d.node? l = none ∧
      d'.node? l = some .directory

theorem touches_written {above : Disk} {bytes : List UInt8} (houter : Extends p.outer d above)
    (hwrite : above.write p bytes = .ok d') (text : String) :
    Touches d p (some text) d' ∧ d'.node? (d.location p) = some (.file bytes) := by
  obtain ⟨m, s, hwritten, rfl⟩ := Disk.write_ok hwrite
  have hlocation : d.location p = m ++ [s] := by
    rw [← Disk.location_congr houter.current, hwritten.location_eq]
  have hnode := fun l => Disk.node?_insert (d := above) (show m ++ [s] ≠ [] by simp) (.file bytes) l
  refine ⟨⟨houter.current, fun hd => ?_, fun l => ?_⟩, by rw [hlocation, hnode, if_pos rfl]⟩
  · exact (houter.tree hd).insert hwritten.outer fun h => absurd h hwritten.free
  · rw [hnode]
    split
    · next heq =>
      subst heq
      refine Or.inr (Or.inl ⟨rfl, hlocation, fun hdirectory => ?_, bytes, rfl⟩)
      exact hwritten.free (houter.node?_eq hdirectory)
    · refine (houter.nodes l).imp_right fun ⟨hnone, hnew, hq⟩ => Or.inr ⟨rfl, hq, hnone, hnew⟩

theorem Persisted.touches (h : Persisted policy d p text outcome d') : Touches d p text d' := by
  have hrefl : ∀ text, Touches d p text d := fun _ => ⟨rfl, id, fun _ => Or.inl rfl⟩
  cases h with
  | noOutput => exact hrefl _
  | «exists» text => exact hrefl _
  | dryRun text => exact hrefl _
  | written text _ _ houter hwrite => exact (touches_written houter hwrite text).1

/-! ### What one call keeps and writes -/

theorem upward_not_mem_split (h : Path.Component.parent ∉ p.components) :
    upward ∉ Path.split p.bytes := by
  intro hmem
  rw [Path.components_eq_split] at h
  exact h (List.mem_append_right _ (List.mem_filterMap.2 ⟨upward, hmem, rfl⟩))

/-- Without `..` nothing is where a file is written for the first time. -/
theorem node?_eq_none_of_written {above : Disk} {bytes : List UInt8} (hd : d.IsTree)
    (hp : Path.Component.parent ∉ p.components) (hpresent : d.present p = false)
    (houter : Extends p.outer d above) (hwrite : above.write p bytes = .ok d') :
    d.node? (d.location p) = none := by
  obtain ⟨m, s, hwritten, -⟩ := Disk.write_ok hwrite
  rw [← Disk.location_congr houter.current, hwritten.location_eq]
  cases hnode : d.node? (m ++ [s]) with
  | none => rfl
  | some n =>
    have hthere := hwritten.present houter.current hd (upward_not_mem_split hp) hnode
    exact absurd hthere (by simp [hpresent])

theorem Persisted.keeps {bytes : List UInt8} (h : Persisted policy d p text outcome d')
    (hpolicy : policy.overwrite = false) (hd : d.IsTree) (hp : Path.Component.parent ∉ p.components)
    (hl : d.node? l = some (.file bytes)) : d'.node? l = some (.file bytes) := by
  cases h with
  | noOutput => exact hl
  | «exists» text => exact hl
  | dryRun text => exact hl
  | written text hdry hfree houter hwrite =>
    have hnone := node?_eq_none_of_written hd hp (hfree hpolicy) houter hwrite
    rcases (touches_written houter hwrite text).1.nodes l with
      heq | ⟨-, hlocation, -⟩ | ⟨-, -, hl', -⟩
    · rw [heq, hl]
    · rw [hlocation, hl] at hnone
      exact absurd hnone (by simp)
    · exact absurd hl (by simp [hl'])

/-- What a path that is present leads to. -/
theorem node?_ne_none_of_present (h : d.present p) : d.node? (d.location p) ≠ none := by
  rw [Disk.present] at h
  cases hstat : d.stat p with
  | error e => rw [hstat] at h; exact absurd h (by simp [Except.toBool])
  | ok n =>
    rw [Disk.stat] at hstat
    obtain ⟨⟨⟩, -, hstat⟩ := Disk.bind_eq_ok.1 hstat
    obtain ⟨m, hwalk, hstat⟩ := Disk.bind_eq_ok.1 hstat
    have hlocation : d.location p = m := (Disk.walk_eq_foldl hwalk).symm
    intro hnone
    rw [hlocation] at hnone
    rw [hnone] at hstat
    exact absurd hstat (by simp)

/-- Where a file is, a call that would write finds it. -/
theorem Persisted.outcome_eq (h : Persisted policy d p text outcome d')
    (hpolicy : policy.overwrite = false) (hdry : policy.dryRun = false) (hd : d.IsTree)
    (hp : Path.Component.parent ∉ p.components) (htext : text.isSome)
    (hthere : d.node? (d.location p) ≠ none) : outcome = .exists := by
  cases h with
  | noOutput => exact absurd htext (by simp)
  | «exists» text => rfl
  | dryRun text hdry' => exact absurd hdry' (by simp [hdry])
  | written text _ hfree houter hwrite =>
    exact absurd (node?_eq_none_of_written hd hp (hfree hpolicy) houter hwrite) hthere

/-- A call that would write leaves something where it leads. -/
theorem Persisted.node?_ne_none (h : Persisted policy d p text outcome d')
    (hdry : policy.dryRun = false) (htext : text.isSome) : d'.node? (d.location p) ≠ none := by
  cases h with
  | noOutput => exact absurd htext (by simp)
  | «exists» text _ hpresent => exact node?_ne_none_of_present hpresent
  | dryRun text hdry' => exact absurd hdry' (by simp [hdry])
  | written text _ _ houter hwrite => rw [(touches_written houter hwrite text).2]; simp

theorem Persisted.eq_of_dryRun (h : Persisted policy d p text outcome d') (hdry : policy.dryRun) :
    d' = d := by
  cases h with
  | noOutput => rfl
  | «exists» text => rfl
  | dryRun text => rfl
  | written text hno => exact absurd hdry (by simp [hno])

theorem Persisted.writes {text : String} (h : Persisted policy d p (some text) outcome d')
    (hpolicy : policy.overwrite) (hdry : policy.dryRun = false) :
    d'.node? (d.location p) = some (.file (encode text)) := by
  cases h with
  | «exists» _ hoverwrite => exact absurd hpolicy (by simp [hoverwrite])
  | dryRun _ hdry' => exact absurd hdry' (by simp [hdry])
  | written _ _ _ houter hwrite => exact (touches_written houter hwrite text).2

theorem Persisted.exists_text {bytes : List UInt8} (h : Persisted policy d p text outcome d')
    (hnew : ∀ old, d.node? (d.location p) ≠ some (.file old))
    (hl : d'.node? (d.location p) = some (.file bytes)) :
    ∃ contents, text = some contents ∧ bytes = encode contents := by
  cases h with
  | noOutput => exact absurd hl (hnew bytes)
  | «exists» text => exact absurd hl (hnew bytes)
  | dryRun text => exact absurd hl (hnew bytes)
  | written text _ _ houter hwrite =>
    rw [(touches_written houter hwrite text).2] at hl
    exact ⟨text, rfl, by simpa using hl.symm⟩

/-! ## Runs -/

/-- A call and its result. -/
structure Attempt where
  path : Path
  text : Option String
  outcome : WriteOutcome

/-- Calls one after the other, all of them with a result. -/
inductive PersistRun (policy : WritePolicy) : Disk → List Attempt → Disk → Prop
  | nil (d : Disk) : PersistRun policy d [] d
  | cons {d d' d'' : Disk} {c : Attempt} {cs : List Attempt}
      (hcall : persist policy d c.path c.text = (.ok c.outcome, d'))
      (hrest : PersistRun policy d' cs d'') : PersistRun policy d (c :: cs) d''

/-- The call has contents for the location. -/
def Attempt.Names (d : Disk) (l : Location) (c : Attempt) : Prop :=
  c.text.isSome ∧ d.location c.path = l

variable {c : Attempt} {cs before after : List Attempt} {bytes : List UInt8}

theorem Attempt.names_congr (h : d'.current = d.current) : c.Names d' l ↔ c.Names d l := by
  rw [Names, Names, Disk.location_congr h]

namespace PersistRun

theorem touches (h : PersistRun policy d cs d') :
    d'.current = d.current ∧ (d.IsTree → d'.IsTree) ∧ ∀ l, d'.node? l = d.node? l ∨
      (∃ c ∈ cs, c.Names d l) ∧ d.node? l ≠ some .directory ∧
        (∃ bytes, d'.node? l = some (.file bytes)) ∨
      (∃ c ∈ cs, c.text.isSome ∧ ∃ q ∈ c.path.outer, d.location q = l) ∧ d.node? l = none ∧
        d'.node? l = some .directory := by
  induction h with
  | nil d => exact ⟨rfl, id, fun _ => Or.inl rfl⟩
  | @cons d d' d'' c cs hcall hrest ih =>
    obtain ⟨hcurrent, htree, hnodes⟩ := ih
    have hstep := (persisted_of_persist hcall).touches
    refine ⟨hcurrent.trans hstep.current, fun hd => htree (hstep.tree hd), fun l => ?_⟩
    -- what the later calls do to a location they do after what the first call did to it
    rcases hnodes l with
      heq | ⟨⟨b, hb, hnames⟩, hfree, hfile⟩ | ⟨⟨b, hb, htext, q, hq, hl⟩, hnone, hnew⟩
    · rw [heq]
      refine (hstep.nodes l).imp_right fun hl => ?_
      rcases hl with ⟨htext, hl, hfree, hfile⟩ | ⟨htext, ⟨q, hq, hl⟩, hnone, hnew⟩
      · exact Or.inl ⟨⟨c, List.mem_cons_self, htext, hl⟩, hfree, hfile⟩
      · exact Or.inr ⟨⟨c, List.mem_cons_self, htext, q, hq, hl⟩, hnone, hnew⟩
    · refine Or.inr (Or.inl
        ⟨⟨b, List.mem_cons_of_mem _ hb, (Attempt.names_congr hstep.current).1 hnames⟩,
        fun hdirectory => ?_, hfile⟩)
      rcases hstep.nodes l with heq | ⟨-, -, hno, -⟩ | ⟨-, -, hno, -⟩
      · exact hfree (heq.trans hdirectory)
      · exact hno hdirectory
      · exact absurd hdirectory (by simp [hno])
    · refine Or.inr (Or.inr ⟨⟨b, List.mem_cons_of_mem _ hb, htext, q, hq, ?_⟩, ?_, hnew⟩)
      · rw [← hl, Disk.location_congr hstep.current]
      · rcases hstep.nodes l with heq | ⟨-, -, -, bytes, hfile⟩ | ⟨-, -, hno, -⟩
        · rw [← heq, hnone]
        · exact absurd hnone (by simp [hfile])
        · exact hno

theorem eq_of_dryRun (h : PersistRun policy d cs d') (hdry : policy.dryRun) : d' = d := by
  induction h with
  | nil d => rfl
  | cons hcall hrest ih => rw [ih, (persisted_of_persist hcall).eq_of_dryRun hdry]

/-- Without overwriting, files that exist stay as they are. -/
theorem keeps (h : PersistRun policy d cs d') (hpolicy : policy.overwrite = false) (hd : d.IsTree)
    (hcs : ∀ c ∈ cs, Path.Component.parent ∉ c.path.components)
    (hl : d.node? l = some (.file bytes)) : d'.node? l = some (.file bytes) := by
  induction h with
  | nil d => exact hl
  | cons hcall hrest ih =>
    obtain ⟨hc, hcs⟩ := List.forall_mem_cons.1 hcs
    have hstep := persisted_of_persist hcall
    exact ih (hstep.touches.tree hd) hcs (hstep.keeps hpolicy hd hc hl)

theorem outcome_eq (h : PersistRun policy d cs d') (hpolicy : policy.overwrite = false)
    (hdry : policy.dryRun = false) (hd : d.IsTree)
    (hcs : ∀ c ∈ cs, Path.Component.parent ∉ c.path.components)
    (hl : d.node? l = some (.file bytes)) : ∀ c ∈ cs, c.Names d l → c.outcome = .exists := by
  induction h with
  | nil d => exact fun _ hc => absurd hc List.not_mem_nil
  | cons hcall hrest ih =>
    obtain ⟨hc, hcs⟩ := List.forall_mem_cons.1 hcs
    have hstep := persisted_of_persist hcall
    refine List.forall_mem_cons.2 ⟨fun ⟨htext, hlocation⟩ => ?_, fun b hb hnames => ?_⟩
    · exact hstep.outcome_eq hpolicy hdry hd hc htext (by rw [hlocation, hl]; simp)
    · exact ih (hstep.touches.tree hd) hcs (hstep.keeps hpolicy hd hc hl) b hb
        ((Attempt.names_congr hstep.touches.current).2 hnames)

/-- **The first call writes**: a new file holds what the first call that names it has for it, and
the calls after that find it. -/
theorem first (h : PersistRun policy d cs d') (hpolicy : policy.overwrite = false)
    (hdry : policy.dryRun = false) (hd : d.IsTree)
    (hcs : ∀ c ∈ cs, Path.Component.parent ∉ c.path.components)
    (hnew : ∀ old, d.node? l ≠ some (.file old)) (hl : d'.node? l = some (.file bytes)) :
    ∃ before c after text, cs = before ++ c :: after ∧ c.Names d l ∧ c.text = some text ∧
      bytes = encode text ∧ (∀ b ∈ before, ¬ b.Names d l) ∧
      ∀ a ∈ after, a.Names d l → a.outcome = .exists := by
  -- Induction on the calls, by whether the first of them has made the file.
  induction h with
  | nil d => exact absurd hl (hnew bytes)
  | @cons d d' d'' c cs hcall hrest ih =>
    obtain ⟨hc, hcs⟩ := List.forall_mem_cons.1 hcs
    have hstep := persisted_of_persist hcall
    have htouches := hstep.touches
    have hd' := htouches.tree hd
    by_cases hfile : ∃ bytes', d'.node? l = some (.file bytes')
    · -- this call has written it, and it stays
      obtain ⟨bytes', hfile⟩ := hfile
      obtain rfl : bytes' = bytes := by
        have hkept := hrest.keeps hpolicy hd' hcs hfile
        rw [hl] at hkept
        simpa using hkept.symm
      rcases htouches.nodes l with heq | ⟨htext, hlocation, -⟩ | ⟨-, -, -, hdirectory⟩
      · exact absurd (heq ▸ hfile) (hnew bytes')
      · subst hlocation
        obtain ⟨text, hcontents, hbytes⟩ := hstep.exists_text hnew hfile
        refine ⟨[], c, cs, text, rfl, ⟨htext, rfl⟩, hcontents, hbytes,
          fun _ hb => absurd hb List.not_mem_nil, fun a ha hnames => ?_⟩
        exact hrest.outcome_eq hpolicy hdry hd' hcs hfile a ha
          ((Attempt.names_congr htouches.current).2 hnames)
      · rw [hfile] at hdirectory
        exact absurd hdirectory (by simp)
    · -- nothing that later becomes a file is there, so this call does not name it
      obtain ⟨before, b, after, text, rfl, hnames, htext, rfl, hbefore, hafter⟩ :=
        ih hd' hcs (fun old hold => hfile ⟨old, hold⟩) hl
      have hcongr : ∀ c : Attempt, c.Names d' l ↔ c.Names d l := fun _ =>
        Attempt.names_congr htouches.current
      refine ⟨c :: before, b, after, text, rfl, (hcongr b).1 hnames, htext, rfl,
        List.forall_mem_cons.2 ⟨fun ⟨hsome, hlocation⟩ => ?_,
          fun b hb hb' => hbefore b hb ((hcongr b).2 hb')⟩,
        fun a ha ha' => hafter a ha ((hcongr a).2 ha')⟩
      have hthere := hstep.node?_ne_none hdry hsome
      rw [hlocation] at hthere
      obtain ⟨-, -, hnodes⟩ := hrest.touches
      rcases hnodes l with heq | ⟨-, hno, -⟩ | ⟨-, hno, -⟩
      · exact hfile ⟨_, heq ▸ hl⟩
      · cases hnode : d'.node? l with
        | none => exact hthere hnode
        | some n =>
          cases n with
          | directory => exact hno hnode
          | file old => exact hfile ⟨old, hnode⟩
      · exact hthere hno

/-- A run can be computed, call by call. -/
theorem of_toOption (hcall : (persist policy d c.path c.text).1.toOption = some c.outcome)
    (hrest : PersistRun policy (persist policy d c.path c.text).2 cs d') :
    PersistRun policy d (c :: cs) d' :=
  .cons (Prod.ext (eq_ok_of_toOption hcall) rfl) hrest

theorem of_append (h : PersistRun policy d (before ++ after) d'') :
    ∃ d', PersistRun policy d before d' ∧ PersistRun policy d' after d'' := by
  induction before generalizing d with
  | nil => exact ⟨d, .nil d, h⟩
  | cons c before ih =>
    cases h with
    | cons hcall hrest =>
      obtain ⟨d', hbefore, hafter⟩ := ih hrest
      exact ⟨d', .cons hcall hbefore, hafter⟩

/-- **The last call stays**: with overwriting, a destination holds what the last call that names it
has for it. -/
theorem last {text : String} (h : PersistRun policy d (before ++ c :: after) d')
    (hpolicy : policy.overwrite) (hdry : policy.dryRun = false) (htext : c.text = some text)
    (hafter : ∀ a ∈ after, ¬ a.Names d (d.location c.path)) :
    d'.node? (d.location c.path) = some (.file (encode text)) := by
  obtain ⟨above, hbefore, hrest⟩ := h.of_append
  cases hrest with
  | @cons _ below _ _ _ hcall hrest =>
    have hstep := persisted_of_persist hcall
    have hcurrent := hbefore.touches.1
    have hcurrent' := hstep.touches.current.trans hcurrent
    rw [htext] at hstep
    have hwritten := hstep.writes hpolicy hdry
    rw [Disk.location_congr hcurrent] at hwritten
    obtain ⟨-, -, hnodes⟩ := hrest.touches
    rcases hnodes (d.location c.path) with heq | ⟨⟨a, ha, hnames⟩, -⟩ | ⟨-, hnone, -⟩
    · rw [heq, hwritten]
    · exact absurd ((Attempt.names_congr hcurrent').1 hnames) (hafter a ha)
    · exact absurd hwritten (by simp [hnone])

end PersistRun

/-- **What a run of calls does to a disk**, as long as each of them has a result. A dry run leaves
the disk as it is. Without overwriting, and with no `..` in the destinations, files stay as they
are, and every new file holds what the first call for it had, the later ones finding it there. With
overwriting a destination holds what the last call for it had. Nothing is touched but destinations,
which become files, and the places of directories that destinations lie in, which become
directories. -/
theorem persistRun_effect (hd : d.IsTree) (h : PersistRun policy d cs d') :
    (policy.dryRun → d' = d) ∧
    (policy.overwrite = false → (∀ c ∈ cs, Path.Component.parent ∉ c.path.components) →
      (∀ l bytes, d.node? l = some (.file bytes) → d'.node? l = some (.file bytes)) ∧
      ∀ l bytes, (∀ old, d.node? l ≠ some (.file old)) → d'.node? l = some (.file bytes) →
        ∃ before c after text, cs = before ++ c :: after ∧ c.Names d l ∧ c.text = some text ∧
          bytes = encode text ∧ (∀ b ∈ before, ¬ b.Names d l) ∧
          ∀ a ∈ after, a.Names d l → a.outcome = .exists) ∧
    (policy.overwrite → policy.dryRun = false →
      ∀ before c after text, cs = before ++ c :: after → c.text = some text →
        (∀ a ∈ after, ¬ a.Names d (d.location c.path)) →
        d'.node? (d.location c.path) = some (.file (encode text))) ∧
    d'.current = d.current ∧
    ∀ l, d'.node? l = d.node? l ∨
      (∃ c ∈ cs, c.Names d l) ∧ d.node? l ≠ some .directory ∧
        (∃ bytes, d'.node? l = some (.file bytes)) ∨
      (∃ c ∈ cs, c.text.isSome ∧ ∃ q ∈ c.path.outer, d.location q = l) ∧ d.node? l = none ∧
        d'.node? l = some .directory := by
  obtain ⟨hcurrent, -, hnodes⟩ := h.touches
  refine ⟨h.eq_of_dryRun, fun hpolicy hcs => ⟨fun l bytes => h.keeps hpolicy hd hcs,
    fun l bytes hnew hl => ?_⟩, fun hpolicy hdry before c after text hsplit htext hafter => ?_,
    hcurrent, hnodes⟩
  · have hdry : policy.dryRun = false := by
      refine Bool.eq_false_iff.2 fun hdry => ?_
      rw [h.eq_of_dryRun hdry] at hl
      exact hnew bytes hl
    exact h.first hpolicy hdry hd hcs hnew hl
  · subst hsplit
    exact h.last hpolicy hdry htext hafter

/-- A disk with one file. -/
def oneFile : Disk := ⟨[([encode "f"], .file (encode "old"))], []⟩

theorem isTree_oneFile : oneFile.IsTree := Disk.isTree_of_nodes (by decide)

/-- Two spellings of one new file, and the file that is there. -/
def spelledTwice : List Attempt :=
  [⟨.ofString "/d/g", some "one", .written⟩, ⟨.ofString "f", some "new", .exists⟩,
    ⟨.ofString "d/.//g", some "two", .exists⟩, ⟨.ofString "/d/h", none, .noOutput⟩]

theorem persistRun_effect_spelledTwice :
    ∃ d', PersistRun ⟨false, false⟩ oneFile spelledTwice d' ∧
      d'.node? [encode "f"] = some (.file (encode "old")) ∧
      d'.node? [encode "d", encode "g"] = some (.file (encode "one")) := by
  have hrun : ∃ d', PersistRun ⟨false, false⟩ oneFile spelledTwice d' ∧
      d'.node? [encode "d", encode "g"] = some (.file (encode "one")) :=
    ⟨_, .of_toOption (by decide) (.of_toOption (by decide)
      (.of_toOption (by decide) (.of_toOption (by decide) (.nil _)))),
      by decide⟩
  obtain ⟨d', hrun, hnew⟩ := hrun
  have heffect := (persistRun_effect isTree_oneFile hrun).2.1 rfl (by decide)
  exact ⟨d', hrun, heffect.1 _ _ (by decide), hnew⟩

/-- **A `..` below a missing directory leads past the check.** The file is not found as long as the
directory is missing, which is then created. -/
theorem exists_persistRun_upward :
    ∃ d', oneFile.IsTree ∧
      PersistRun ⟨false, false⟩ oneFile [⟨.ofString "/x/../f", some "new", .written⟩] d' ∧
      oneFile.node? [encode "f"] = some (.file (encode "old")) ∧
      d'.node? [encode "f"] = some (.file (encode "new")) :=
  ⟨_, isTree_oneFile, .of_toOption (by decide) (.nil _), by decide, by decide⟩

/-! ## The command -/

/-- The part of the command changes the disk by calls alone. -/
def Step.Persists {α : Type} (policy : WritePolicy) (s : Step α) : Prop :=
  ∀ p a p', s p = (.ok a, p') → ∃ cs, PersistRun policy p.disk cs p'.disk

theorem PersistRun.append (h : PersistRun policy d before d')
    (h' : PersistRun policy d' after d'') :
    PersistRun policy d (before ++ after) d'' := by
  induction h with
  | nil d => exact h'
  | cons hcall hrest ih => exact .cons hcall (ih h')

namespace Step.Persists

variable {α β : Type} {s : Step α} {k : α → Step β}

/-- What leaves the disk alone. -/
theorem of_disk_eq (h : ∀ p, (s p).2.disk = p.disk) : s.Persists policy := by
  intro p a p' hs
  have hdisk := h p
  rw [hs] at hdisk
  exact ⟨[], hdisk ▸ .nil _⟩

theorem bind (hs : s.Persists policy) (hk : ∀ a, (k a).Persists policy) :
    (s >>= k).Persists policy := by
  intro p b p'' h
  have hbind : Step.bind s k p = (.ok b, p'') := h
  rw [Step.bind] at hbind
  split at hbind
  · next a p' hfirst =>
    obtain ⟨cs, hcs⟩ := hs p a p' hfirst
    obtain ⟨cs', hcs'⟩ := hk a p' b p'' hbind
    exact ⟨cs ++ cs', hcs.append hcs'⟩
  · exact absurd (Prod.mk.inj hbind).1 (by simp)

theorem pure (a : α) : (Pure.pure a : Step α).Persists policy := of_disk_eq fun _ => rfl

theorem print (line : String) : (Step.print line).Persists policy := of_disk_eq fun _ => rfl

theorem disk : Step.disk.Persists policy := of_disk_eq fun _ => rfl

theorem fail (e : Failure) : (Step.fail e : Step α).Persists policy := of_disk_eq fun _ => rfl

theorem ofExcept (r : Except Failure α) : (Step.ofExcept r).Persists policy :=
  of_disk_eq fun _ => rfl

theorem generated (g : Generation.Generated α) : (Cli.generated g).Persists policy :=
  of_disk_eq fun _ => rfl

theorem printFirst {c : Prop} [Decidable c] (line : String) {k : Unit → Step β}
    (hk : ∀ u, (k u).Persists policy) :
    (if c then Step.print line >>= k else k ()).Persists policy := by
  split
  · exact (print line).bind hk
  · exact hk ()

theorem prints (lines : List String) :
    (forIn lines PUnit.unit fun line _ => do
      Step.print line
      Pure.pure (.yield PUnit.unit) : Step PUnit).Persists policy := by
  induction lines with
  | nil => exact pure _
  | cons line lines ih =>
    rw [List.forIn_cons]
    refine ((print line).bind fun _ => pure _).bind fun step => ?_
    cases step with
    | done u => exact pure u
    | yield u => exact ih

theorem persistOne (source destination : Path) (text : Option String) :
    (Cli.persistOne policy source destination text).Persists policy := by
  intro p a p' h
  rw [Cli.persistOne] at h
  split at h
  · exact absurd (Prod.mk.inj h).1 (by simp)
  · next outcome disk hcall =>
    obtain ⟨-, rfl⟩ := Prod.mk.inj h
    exact ⟨[⟨destination, text, outcome⟩], .cons hcall (.nil _)⟩

theorem persistComponents (es : List Generation.Entry) :
    (Cli.persistComponents policy es).Persists policy := by
  induction es with
  | nil => exact pure ()
  | cons e es ih => exact (persistOne _ _ _).bind fun _ => ih

theorem persistScripts (ss : List (Path × Generation.ScriptDeclaration)) :
    (Cli.persistScripts policy ss).Persists policy := by
  induction ss with
  | nil => exact pure ()
  | cons s ss ih => exact (persistOne _ _ _).bind fun _ => ih

theorem runSource (a : Arguments) (o : CompilerOptions) (output dir : Path) :
    (Cli.runSource a policy o output dir).Persists policy := by
  refine disk.bind fun d => (generated _).bind fun table => (persistComponents _).bind fun _ => ?_
  split
  · exact disk.bind fun d => (generated _).bind fun scripts => persistScripts _
  · exact pure ()

theorem runSources (a : Arguments) (o : CompilerOptions) (output : Path) (dirs : List Path) :
    (Cli.runSources a policy o output dirs).Persists policy := by
  induction dirs with
  | nil => exact pure ()
  | cons dir dirs ih => exact (runSource a o output dir).bind fun _ => ih

/-- **The command changes the disk by calls alone**, all of them under one policy. -/
theorem run (a : Arguments) : (Cli.run a).Persists ⟨a.has .dryRun, a.overwrites⟩ := by
  have hrun : ∀ (line : String) (o : CompilerOptions) (output : Path) (dirs : List Path), (do
      Step.print line
      Step.print ""
      Cli.runSources a ⟨a.has .dryRun, a.overwrites⟩ o output dirs
      let summary ← (fun p => (.ok p.summary, p) : Step Summary)
      for line in summary.lines (a.has .dryRun) do Step.print line : Step Unit).Persists
        ⟨a.has .dryRun, a.overwrites⟩ := fun line o output dirs =>
    (print _).bind fun _ => (print _).bind fun _ => (runSources a o output dirs).bind fun _ =>
      (of_disk_eq fun _ => rfl).bind fun _ => (prints _).bind fun _ => pure _
  refine disk.bind fun d => printFirst _ fun _ => (ofExcept _).bind fun project => ?_
  dsimp only
  split
  · refine (print _).bind fun _ => ?_
    split
    · exact fail _
    · split
      · exact fail _
      · exact hrun _ _ _ _
  · split
    · exact fail _
    · split
      · exact fail _
      · exact hrun _ _ _ _

end Step.Persists

end SvelteTypings.Cli

import SvelteTypings.FileSystem.Memory
import SvelteTypings.Generation.Components
import SvelteTypings.Proofs.Generation.Overlay

/-!
# The passes of a run cover its table

Every key of a table is a root of one pass, or is left over when no pass is left. The argument has
two halves. In one pass the table grows, and the marks of its entries tell exactly which keys are
new (`Grown`): the marks are reset when a pass begins, and an entry is only ever added under a key
that the table did not know. Over the passes, the keys that were roots and the worklist of the next
pass are always all keys of the table, each once (`Covers.perm`).
-/

namespace SvelteTypings.Generation

/-! ## One pass -/

/-- The keys that a table has gained, in key order. -/
def gained (before after : Table) : List Path := after.keys.filter fun k => !before.contains k

/-- The table has all keys of an earlier one, and marks those that it has gained since. -/
structure Grown (before t : Table) : Prop where
  keeps : ∀ k ∈ before.keys, k ∈ t.keys
  marked : ∀ k e, t.Holds k e → (e.discovered = true ↔ ¬ before.contains k)

variable {before t : Table}

theorem grown_clearDiscovered (t : Table) : Grown t t.clearDiscovered where
  keeps k hk := by
    rw [Table.keys_clearDiscovered]
    exact hk
  marked k x hx := by
    obtain ⟨e, he, rfl⟩ := Table.holds_clearDiscovered_iff.1 hx
    simp [Table.contains_of_mem_keys he.mem_keys]

theorem Grown.insertDiscovered {e : Entry} (h : Grown before t)
    (hnew : ¬ t.contains (Table.keyFor e.component)) : Grown before (t.insertDiscovered e) where
  keeps k hk := (Table.mem_keys_insertDiscovered_iff hnew).2 (Or.inr (h.keeps k hk))
  marked k x hx := by
    rcases (Table.holds_insertDiscovered_iff hnew).1 hx with ⟨rfl, rfl⟩ | hx
    · -- an earlier key would still be known
      have hbefore : ¬ before.contains (Table.keyFor e.component) := by
        intro hc
        obtain ⟨k, hk, hsame⟩ := Table.contains_iff.1 hc
        exact hnew (Table.contains_iff.2 ⟨k, h.keeps k hk, hsame⟩)
      simp [hbefore]
    · exact h.marked k x hx

theorem Grown.capture (h : Grown before t) (p : Path) (text : String) :
    Grown before (t.capture p text) where
  keeps k hk := by
    rw [Table.keys_capture]
    exact h.keeps k hk
  marked k x hx := by
    obtain ⟨e, he, rfl⟩ := Table.holds_capture_iff.1 hx
    rw [← h.marked k e he]
    split <;> rfl

theorem Grown.discoveredKeys_eq (h : Grown before t) : t.discoveredKeys = gained before t := by
  show (t.entries.toList.filter fun x => x.2.discovered).map Prod.fst =
    (t.entries.toList.map Prod.fst).filter fun k => !before.contains k
  rw [List.filter_map]
  congr 1
  refine List.filter_congr fun x hx => ?_
  have hmarked := h.marked x.1 x.2 hx
  rw [Bool.not_eq_true] at hmarked
  show x.2.discovered = !before.contains x.1
  cases hb : before.contains x.1 <;> simp_all

/-- The keys of a table that has grown are the earlier keys and those gained. -/
theorem Grown.keys_perm (h : Grown before t) : t.keys.Perm (before.keys ++ gained before t) := by
  have hgained : ∀ k, k ∈ gained before t ↔ k ∈ t.keys ∧ ¬ before.contains k := by
    intro k
    simp [gained]
  -- both sides hold no key twice, so it is enough that they hold the same keys
  refine (List.perm_ext_iff_of_nodup t.nodup_keys ?_).2 fun k => ?_
  · refine List.nodup_append.2 ⟨before.nodup_keys, t.nodup_keys.filter _, ?_⟩
    rintro k hk k' hk' rfl
    exact ((hgained k).1 hk').2 (Table.contains_of_mem_keys hk)
  · rw [List.mem_append, hgained]
    refine ⟨?_, ?_⟩
    · intro hk
      by_cases hb : before.contains k
      · -- an earlier key keeps its spelling
        obtain ⟨k', hk', hsame⟩ := Table.contains_iff.1 hb
        obtain ⟨e', he'⟩ := Table.mem_keys_iff.1 (h.keeps k' hk')
        obtain ⟨e, he⟩ := Table.mem_keys_iff.1 hk
        exact Or.inl ((he'.eq_of_same he hsame).1 ▸ hk')
      · exact Or.inr ⟨hk, hb⟩
    · rintro (hk | ⟨hk, -⟩)
      · exact h.keeps k hk
      · exact hk

/-- In a pass the table grows, whatever the compiler asks and writes, and however it ends. -/
theorem grown_compile {s : Setting} (hd : s.discovery.Keyed) (roots : List Path) (t : Table) :
    Grown t (s.compile roots t).state := by
  refine Session.keeps_run (overlay_keeps ?_ ?_) _ _ (grown_clearDiscovered t)
  · intro t' p e ht' hnew hfound
    exact ht'.insertDiscovered (by rw [hd p e hfound]; exact hnew)
  · exact fun t' p text ht' => ht'.capture p text

/-! ## Passes one after the other -/

/-- The table after some passes, each of which goes on with what the one before has left. -/
def Setting.tableAfter (s : Setting) : Table → List Pass → Table
  | t, [] => t
  | t, pass :: passes => s.tableAfter (s.compile pass.roots t).state passes

/-- The passes begin with a worklist, go on with the keys gained in the pass before, and leave some
keys over. -/
inductive Setting.Covers (s : Setting) : Table → List Path → List Pass → List Path → Prop where
  | stop (t : Table) (worklist : List Path) : s.Covers t worklist [] worklist
  | pass {t : Table} {pending : List Path} (pass : Pass) {passes : List Pass}
      (h : s.Covers (s.compile pass.roots t).state
        (gained t (s.compile pass.roots t).state) passes pending) :
      s.Covers t pass.roots (pass :: passes) pending

variable {s : Setting} {worklist pending : List Path} {passes : List Pass}

/-- What has been a root and what is left over are the keys of the last table. -/
theorem Setting.Covers.perm (h : s.Covers t worklist passes pending) (hd : s.discovery.Keyed)
    {done : List Path} (ht : t.keys.Perm (done ++ worklist)) :
    (s.tableAfter t passes).keys.Perm (done ++ (passes.flatMap Pass.roots ++ pending)) := by
  induction h generalizing done with
  | stop t worklist => exact ht
  | @pass t pending pass passes _ ih =>
    -- the roots of this pass are done now, and the worklist is what it has gained
    have hgrown := grown_compile hd pass.roots t
    have hkeys := hgrown.keys_perm.trans (ht.append_right _)
    have hrest := ih hkeys
    rw [List.flatMap_cons]
    simpa only [Setting.tableAfter, List.append_assoc] using hrest

theorem Setting.Covers.roots_head (h : s.Covers t worklist passes pending) {pass : Pass}
    (hpass : passes[0]? = some pass) : pass.roots = worklist := by
  cases h with
  | stop => exact absurd hpass (by simp)
  | pass pass' h =>
    rw [List.getElem?_cons_zero, Option.some.injEq] at hpass
    rw [hpass]

theorem Setting.Covers.roots_next (h : s.Covers t worklist passes pending) {n : Nat} {pass : Pass}
    (hpass : passes[n + 1]? = some pass) :
    pass.roots = gained (s.tableAfter t (passes.take n)) (s.tableAfter t (passes.take (n + 1))) := by
  induction h generalizing n with
  | stop => exact absurd hpass (by simp)
  | @pass t pending pass' passes hrest ih =>
    rw [List.getElem?_cons_succ] at hpass
    cases n with
    | zero => exact hrest.roots_head hpass
    | succ n => exact ih hpass

/-! ## The schedule -/

/-- The schedule has begun, and `n` passes are left. It stops when there is nothing to do or no pass
is left. -/
structure Schedule.Due (schedule : Schedule) (n : Nat) : Prop where
  left : n + schedule.pass = schedule.maxPasses + 1
  begun : 0 < schedule.pass
  running : schedule.stage = .running → n ≠ 0
  settled : schedule.stage ≠ .running → schedule.worklist = [] ∨ n = 0

theorem Schedule.due_start (maxPasses : Nat) (known : List Path) :
    ((Schedule.new maxPasses).start known).Due maxPasses := by
  constructor
  · rfl
  · exact Nat.one_pos
  · intro h hzero
    simp [start, new, hzero] at h
  · intro h
    by_cases hzero : maxPasses = 0
    · exact Or.inr hzero
    · left
      simpa [start, new, hzero] using h

theorem Schedule.Due.complete {schedule : Schedule} {n : Nat} (h : schedule.Due (n + 1))
    (hrunning : schedule.stage = .running) (added : List Path) :
    (schedule.complete added).Due n := by
  have hleft := h.left
  constructor
  · show n + (schedule.pass + 1) = schedule.maxPasses + 1
    omega
  · exact Nat.succ_pos _
  · intro hstage hzero
    have hlast : schedule.maxPasses < schedule.pass + 1 := by omega
    simp [Schedule.complete, hlast] at hstage
  · intro hstage
    by_cases hlast : schedule.maxPasses < schedule.pass + 1
    · right
      omega
    · left
      simpa [Schedule.complete, hlast, hrunning] using hstage

/-- What a schedule reports that has nothing more to run. -/
theorem Schedule.Due.report {schedule : Schedule} {n : Nat} (h : schedule.Due n)
    (hstage : schedule.stage ≠ .running) :
    schedule.report.passes + 1 = schedule.pass ∧ schedule.report.passes ≤ schedule.maxPasses ∧
      schedule.report.reason.pending = schedule.worklist ∧
      (schedule.report.reason = .fixedPoint ↔ schedule.worklist = []) ∧
      (schedule.worklist ≠ [] → schedule.report.passes = schedule.maxPasses) := by
  have hleft := h.left
  have hbegun := h.begun
  have hpasses : schedule.report.passes = schedule.pass - 1 := rfl
  refine ⟨by omega, by omega, ?_, ?_, ?_⟩
  · cases hw : schedule.worklist <;> simp [Schedule.report, hw, Reason.pending]
  · cases hw : schedule.worklist <;> simp [Schedule.report, hw]
  · intro hne
    rcases h.settled hstage with hw | rfl
    · exact absurd hw hne
    · omega

/-! ## Runs -/

/-- The ways in which a run with a pass to spare goes on: it stops, its pass fails, or it goes on
with what its pass has added. -/
inductive Setting.Proceeds (s : Setting) (n : Nat) (schedule : Schedule) (t : Table) : Run → Prop where
  | finish (hstage : schedule.stage ≠ .running) : s.Proceeds n schedule t (s.finish schedule t)
  | fail (hrunning : schedule.stage = .running) (e : Failure) (log : Log)
      (hcompile : (s.compile schedule.worklist t).result = .error e) :
      s.Proceeds n schedule t ⟨.error e, (s.compile schedule.worklist t).state,
        [⟨schedule.pass, schedule.worklist, .error e⟩], log⟩
  | pass (hrunning : schedule.stage = .running) (output : EmitOutput) (log : Log)
      (hcompile : (s.compile schedule.worklist t).result = .ok output) :
      s.Proceeds n schedule t
        ((s.runPasses n (schedule.complete (s.compile schedule.worklist t).state.discoveredKeys)
          (s.compile schedule.worklist t).state).after
          ⟨schedule.pass, schedule.worklist, .ok output⟩ log)

theorem proceeds_runPasses (s : Setting) (n : Nat) (schedule : Schedule) (t : Table) :
    s.Proceeds n schedule t (s.runPasses (n + 1) schedule t) := by
  rw [Setting.runPasses]
  by_cases hrunning : schedule.stage = .running
  · rw [Schedule.next?, if_pos hrunning]
    cases hcompile : (s.compile schedule.worklist t).result with
    | error e =>
      simp only [hcompile]
      exact .fail hrunning e _ hcompile
    | ok output =>
      simp only [hcompile]
      exact .pass hrunning output _ hcompile
  · rw [Schedule.next?, if_neg hrunning]
    exact .finish hrunning

/-- The ways in which a run that is left a pass starts: there is nothing to do, the pass over all
keys fails, or the run goes on with what that pass has added. -/
inductive Setting.Opens (s : Setting) (n : Nat) (t : Table) : Run → Prop where
  | idle (hempty : t.keys = []) (log : Log) : s.Opens n t ⟨.ok ⟨0, .fixedPoint⟩, t, [], log⟩
  | fail (hne : t.keys ≠ []) (e : Failure) (log : Log)
      (hcompile : (s.compile t.keys t).result = .error e) :
      s.Opens n t ⟨.error e, (s.compile t.keys t).state, [⟨1, t.keys, .error e⟩], log⟩
  | pass (hne : t.keys ≠ []) (output : EmitOutput) (schedule : Schedule) (log : Log)
      (hcompile : (s.compile t.keys t).result = .ok output) (hdue : schedule.Due n)
      (hworklist : schedule.worklist = (s.compile t.keys t).state.discoveredKeys) :
      s.Opens n t ((s.runPasses n schedule (s.compile t.keys t).state).after
        ⟨1, t.keys, .ok output⟩ log)

theorem Schedule.stage_start_eq_running_iff {n : Nat} {known : List Path} :
    ((Schedule.new (n + 1)).start known).stage = .running ↔ known ≠ [] := by
  cases known <;> simp [start, new]

theorem opens_run (s : Setting) (n : Nat) (t : Table) : s.Opens n t (s.run (n + 1) t) := by
  have hdue := Schedule.due_start (n + 1) t.keys
  have hproceeds := proceeds_runPasses s n ((Schedule.new (n + 1)).start t.keys) t
  rw [Setting.run]
  generalize s.runPasses (n + 1) ((Schedule.new (n + 1)).start t.keys) t = run at hproceeds ⊢
  cases hproceeds with
  | finish hstage =>
    have hempty : t.keys = [] := by
      simpa [Schedule.stage_start_eq_running_iff] using hstage
    have hreport : ((Schedule.new (n + 1)).start t.keys).report = ⟨0, .fixedPoint⟩ := by
      rw [hempty]
      rfl
    rw [Setting.finish, hreport]
    exact .idle hempty _
  | fail hrunning e log hcompile =>
    exact .fail (Schedule.stage_start_eq_running_iff.1 hrunning) e log hcompile
  | pass hrunning output log hcompile =>
    exact .pass (Schedule.stage_start_eq_running_iff.1 hrunning) output _ log hcompile
      (hdue.complete hrunning _) rfl

/-- What is reported of a run that goes well: its passes in order, and what they leave over. -/
structure Setting.Reported (s : Setting) (schedule : Schedule) (t : Table) (run : Run)
    (report : Report) : Prop where
  covers : s.Covers t schedule.worklist run.passes report.reason.pending
  table : run.table = s.tableAfter t run.passes
  numbers : run.passes.map Pass.number = List.range' schedule.pass run.passes.length
  passes : report.passes + 1 = schedule.pass + run.passes.length
  bounded : report.passes ≤ schedule.maxPasses
  fixedPoint : report.reason = .fixedPoint ↔ report.reason.pending = []
  capped : report.reason ≠ .fixedPoint → report.passes = schedule.maxPasses

/-- A run that stops reports what its schedule says. -/
theorem reported_finish {n : Nat} {schedule : Schedule} {report : Report} (hdue : schedule.Due n)
    (hstage : schedule.stage ≠ .running) (hresult : (s.finish schedule t).result = .ok report) :
    s.Reported schedule t (s.finish schedule t) report := by
  have hreport : schedule.report = report := Except.ok.inj hresult
  obtain ⟨hpasses, hbounded, hpending, hfixed, hcapped⟩ := hdue.report hstage
  rw [← hreport]
  refine ⟨?_, rfl, rfl, hpasses, hbounded, ?_, ?_⟩
  · rw [hpending]
    exact .stop t schedule.worklist
  · rw [hpending]
    exact hfixed
  · intro hne
    exact hcapped (mt hfixed.2 hne)

/-- A pass in front of a run is reported with it. -/
theorem Setting.Reported.after {schedule : Schedule} {run : Run} {report : Report} {output : EmitOutput}
    (hd : s.discovery.Keyed) (log : Log)
    (h : s.Reported (schedule.complete (s.compile schedule.worklist t).state.discoveredKeys)
      (s.compile schedule.worklist t).state run report) :
    s.Reported schedule t (run.after ⟨schedule.pass, schedule.worklist, .ok output⟩ log) report := by
  -- the marks that the schedule goes by are the keys that the pass has gained
  have hcovers := h.covers
  have hworklist : (schedule.complete (s.compile schedule.worklist t).state.discoveredKeys).worklist =
      gained t (s.compile schedule.worklist t).state :=
    (grown_compile hd schedule.worklist t).discoveredKeys_eq
  rw [hworklist] at hcovers
  refine ⟨.pass ⟨schedule.pass, schedule.worklist, .ok output⟩ hcovers, h.table, ?_, ?_, h.bounded,
    h.fixedPoint, h.capped⟩
  · show schedule.pass :: _ = List.range' schedule.pass (_ + 1)
    rw [List.range'_succ]
    exact congrArg _ h.numbers
  · have hpasses := h.passes
    show _ = schedule.pass + (_ + 1)
    rw [hpasses]
    show schedule.pass + 1 + _ = _
    omega

theorem runPasses_reported (hd : s.discovery.Keyed) {n : Nat} {schedule : Schedule} {t : Table}
    {report : Report} (hdue : schedule.Due n)
    (hresult : (s.runPasses n schedule t).result = .ok report) :
    s.Reported schedule t (s.runPasses n schedule t) report := by
  induction n generalizing schedule t with
  | zero => exact reported_finish hdue (fun hrunning => hdue.running hrunning rfl) hresult
  | succ n ih =>
    have hproceeds := proceeds_runPasses s n schedule t
    generalize s.runPasses (n + 1) schedule t = run at hproceeds hresult ⊢
    cases hproceeds with
    | finish hstage => exact reported_finish hdue hstage hresult
    | fail hrunning e log hcompile => exact absurd hresult (by simp)
    | pass hrunning output log hcompile =>
      exact (ih (hdue.complete hrunning _) hresult).after hd log

/-! ## Every key once -/

/-- A key that is in none of the root lists is a root of no pass. -/
theorem countP_eq_zero {k : Path} (h : k ∉ passes.flatMap Pass.roots) :
    passes.countP (k ∈ ·.roots) = 0 := by
  rw [List.countP_eq_zero]
  intro pass hpass hk
  exact h (List.mem_flatMap.2 ⟨pass, hpass, of_decide_eq_true hk⟩)

/-- When the root lists hold no key twice, a key in one of them is a root of exactly one pass. -/
theorem countP_eq_one {k : Path} (hnodup : (passes.flatMap Pass.roots).Nodup)
    (h : k ∈ passes.flatMap Pass.roots) : passes.countP (k ∈ ·.roots) = 1 := by
  induction passes with
  | nil => exact absurd h List.not_mem_nil
  | cons pass passes ih =>
    rw [List.flatMap_cons] at h hnodup
    obtain ⟨-, hrest, hdisjoint⟩ := List.nodup_append.1 hnodup
    by_cases hk : k ∈ pass.roots
    · have hnot : k ∉ passes.flatMap Pass.roots := fun hmem => hdisjoint k hk k hmem rfl
      rw [List.countP_cons_of_pos (by simpa using hk), countP_eq_zero hnot]
    · rw [List.countP_cons_of_neg (by simpa using hk)]
      exact ih hrest ((List.mem_append.1 h).resolve_left hk)

/-- What a run of at most `maxPasses` passes over a table amounts to when it goes well. -/
structure Setting.Accounts (s : Setting) (maxPasses : Nat) (t : Table) (run : Run)
    (report : Report) : Prop where
  /-- The passes are numbered from one to the reported number. -/
  numbers : run.passes.map Pass.number = List.range' 1 report.passes
  bounded : report.passes ≤ maxPasses
  /-- The table is what the passes leave, each called on what the one before has left. -/
  table : run.table = s.tableAfter t run.passes
  first : ∀ pass, run.passes[0]? = some pass → pass.roots = t.keys
  /-- Each later pass has the keys as roots that the pass before has added, in key order. -/
  next : ∀ n pass, run.passes[n + 1]? = some pass →
    pass.roots =
      gained (s.tableAfter t (run.passes.take n)) (s.tableAfter t (run.passes.take (n + 1)))
  /-- A key is a root of exactly one pass, or it is pending and a root of none. -/
  once : ∀ k ∈ run.table.keys,
    run.passes.countP (k ∈ ·.roots) = if k ∈ report.reason.pending then 0 else 1
  /-- Only keys are roots or pending. -/
  known : ∀ k, (k ∈ report.reason.pending ∨ ∃ pass ∈ run.passes, k ∈ pass.roots) →
    k ∈ run.table.keys
  fixedPoint : report.reason = .fixedPoint ↔
    ∀ k ∈ run.table.keys, ∃ pass ∈ run.passes, k ∈ pass.roots
  /-- Nothing is left over as long as a pass is left. -/
  capped : report.reason ≠ .fixedPoint → report.passes = maxPasses

/-- **The passes account for every key.** Whatever table a run starts from, whatever is discovered
in it and whatever the compiler asks and writes, its passes take the initial keys first, then what
each pass has added, until nothing is added or no pass is left. -/
theorem run_accounts (s : Setting) (maxPasses : Nat) (t : Table) (report : Report)
    (hd : s.discovery = noDiscovery ∨
      ∃ c fs transformer, s.discovery = discoverComponent c fs transformer)
    (hresult : (s.run maxPasses t).result = .ok report) :
    s.Accounts maxPasses t (s.run maxPasses t) report := by
  have hkeyed : s.discovery.Keyed := by
    rcases hd with hd | ⟨c, fs, transformer, hd⟩
    · rw [hd]
      exact keyed_noDiscovery
    · rw [hd]
      exact keyed_discoverComponent c fs transformer
  have hdue := Schedule.due_start maxPasses t.keys
  have hrun : s.Reported ((Schedule.new maxPasses).start t.keys) t (s.run maxPasses t) report :=
    runPasses_reported hkeyed hdue hresult
  have hpasses : report.passes = (s.run maxPasses t).passes.length := by
    have hcount : report.passes + 1 = 1 + _ := hrun.passes
    omega
  have hstart : t.keys.Perm ([] ++ t.keys) := List.Perm.refl _
  -- nothing is done at first, so at the end the roots and what is pending are all keys
  have hperm : (s.run maxPasses t).table.keys.Perm
      ((s.run maxPasses t).passes.flatMap Pass.roots ++ report.reason.pending) := by
    rw [hrun.table]
    exact hrun.covers.perm hkeyed hstart
  obtain ⟨hroots, -, hdisjoint⟩ :=
    List.nodup_append.1 (hperm.nodup (Table.nodup_keys _))
  refine ⟨?_, hrun.bounded, hrun.table, fun _ => hrun.covers.roots_head,
    fun _ _ => hrun.covers.roots_next, ?_, ?_, ?_, hrun.capped⟩
  · rw [hpasses]
    exact hrun.numbers
  · intro k hk
    by_cases hpending : k ∈ report.reason.pending
    · rw [if_pos hpending]
      exact countP_eq_zero fun hmem => hdisjoint k hmem k hpending rfl
    · rw [if_neg hpending]
      exact countP_eq_one hroots
        ((List.mem_append.1 (hperm.mem_iff.1 hk)).resolve_right hpending)
  · intro k hk
    rw [hperm.mem_iff, List.mem_append, List.mem_flatMap]
    exact hk.symm
  · rw [hrun.fixedPoint]
    refine ⟨?_, ?_⟩
    · intro hnone k hk
      have hmem := hperm.mem_iff.1 hk
      rw [hnone, List.append_nil] at hmem
      exact List.mem_flatMap.1 hmem
    · -- a pending key would be a root as well, and no key is both
      intro hall
      refine List.eq_nil_iff_forall_not_mem.2 fun k hk => ?_
      have hkey : k ∈ (s.run maxPasses t).table.keys :=
        hperm.mem_iff.2 (List.mem_append_right _ hk)
      exact hdisjoint k (List.mem_flatMap.2 (hall k hkey)) k hk rfl

/-- A compiler that asks, for every root, for the file whose name is longer by one letter. -/
def askLonger : Compiler := fun roots _ =>
  (roots.filterMap (·.stripSuffix? Path.intermediateSuffix)).foldr
    (fun p rest => do
      let _ ← Session.exists? (p.appendSuffix ("x" ++ Path.intermediateSuffix))
      rest)
    (pure ⟨[], []⟩)

/-- Three components in a row, each found by the question for the one before. -/
def longerFiles : FileSystem :=
  (MemoryFiles.ofList (["/s/x", "/s/xx", "/s/xxx"].map fun p => (.ofString p, ""))).fileSystem

def longerConfig : Config where
  components := [.ofString "/s/x"]
  source := .ofString "/s"
  output := .ofString "/o"
  isComponent := fun _ => true

def longerSetting : Setting :=
  longerConfig.setting (fun text _ => .ok text) askLonger longerFiles .root

def longerTable : Table :=
  Table.empty.insert { component := .ofString "/s/x", source := "", destination := .ofString "/o/x" }

/-- With two passes for three components, the last one is left over. -/
theorem run_accounts_longer :
    (longerSetting.run 2 longerTable).result =
        .ok ⟨2, .outOfPasses [.ofString "/s/xxx.tsx"]⟩ ∧
      longerSetting.Accounts 2 longerTable (longerSetting.run 2 longerTable)
        ⟨2, .outOfPasses [.ofString "/s/xxx.tsx"]⟩ := by
  have hresult : (longerSetting.run 2 longerTable).result =
      .ok ⟨2, .outOfPasses [.ofString "/s/xxx.tsx"]⟩ := eq_ok_of_toOption (by decide)
  exact ⟨hresult, run_accounts _ _ _ _ (Or.inr ⟨_, _, _, rfl⟩) hresult⟩

end SvelteTypings.Generation

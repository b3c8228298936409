import SvelteTypings.Proofs.Compiler.Moments
import SvelteTypings.Proofs.Generation.Passes

/-!
# The history of a run

All that happens to a table while passes run over it: a pass begins, the compiler asks for a file,
the compiler writes one. The history is complete: it leads from the first table of a run to the last
one, also when the run fails (`linked_history`), and every event has the one effect that
`Setting.after` gives it.
-/

namespace SvelteTypings.Generation

/-- What may change the table of a run. -/
inductive Event where
  | passBegins
  | called (call : Call)
deriving DecidableEq

/-- The table that an event leaves. -/
def Setting.after (s : Setting) (t : Table) : Event → Table
  | .passBegins => t.clearDiscovered
  | .called call => (overlay s.discovery s.fs s.cwd).after t call

/-- What happens to a table in one pass. -/
def Setting.historyOf (s : Setting) (roots : List Path) (t : Table) : List (Moment Event Table) :=
  ⟨t, .passBegins, t.clearDiscovered⟩ ::
    ((s.compiler roots s.options).moments (overlay s.discovery s.fs s.cwd) t.clearDiscovered).map
      (·.relabel .called)

/-- What happens to a table in some passes, in order. -/
def Setting.history (s : Setting) : Table → List Pass → List (Moment Event Table)
  | _, [] => []
  | t, pass :: passes =>
    s.historyOf pass.roots t ++ s.history (s.compile pass.roots t).state passes

variable {s : Setting} {t : Table} {passes : List Pass}

theorem linked_historyOf (roots : List Path) (t : Table) :
    Linked t (s.historyOf roots t) (s.compile roots t).state :=
  ⟨rfl, (Session.linked_moments _ _).relabel Event.called⟩

theorem linked_history_tableAfter (passes : List Pass) (t : Table) :
    Linked t (s.history t passes) (s.tableAfter t passes) := by
  induction passes generalizing t with
  | nil => rfl
  | cons pass passes ih => exact (linked_historyOf pass.roots t).append (ih _)

theorem after_of_mem_historyOf (roots : List Path) (t : Table) :
    ∀ m ∈ s.historyOf roots t, m.after = s.after m.before m.event := by
  intro m hm
  rcases List.mem_cons.1 hm with rfl | hm
  · rfl
  · obtain ⟨m', hm', rfl⟩ := List.mem_map.1 hm
    exact Session.after_of_mem_moments _ _ m' hm'

/-- Each moment of a history leaves what its event leaves. -/
theorem after_of_mem_history (passes : List Pass) (t : Table) :
    ∀ m ∈ s.history t passes, m.after = s.after m.before m.event := by
  induction passes generalizing t with
  | nil => exact fun m hm => absurd hm List.not_mem_nil
  | cons pass passes ih =>
    intro m hm
    rcases List.mem_append.1 hm with hm | hm
    · exact after_of_mem_historyOf pass.roots t m hm
    · exact ih _ m hm

/-- A run leaves the table that its passes leave, the failing one included. -/
theorem table_runPasses (s : Setting) (n : Nat) (schedule : Schedule) (t : Table) :
    (s.runPasses n schedule t).table = s.tableAfter t (s.runPasses n schedule t).passes := by
  induction n generalizing schedule t with
  | zero => rfl
  | succ n ih =>
    have hproceeds := proceeds_runPasses s n schedule t
    generalize s.runPasses (n + 1) schedule t = run at hproceeds ⊢
    cases hproceeds with
    | finish hstage => rfl
    | fail hrunning e log hcompile => rfl
    | pass hrunning output log hcompile => exact ih _ _

/-- **The history of a run is complete.** It leads from the first table to the last. -/
theorem linked_history (s : Setting) (maxPasses : Nat) (t : Table) :
    Linked t (s.history t (s.run maxPasses t).passes) (s.run maxPasses t).table := by
  rw [Setting.run, table_runPasses]
  exact linked_history_tableAfter _ t

end SvelteTypings.Generation

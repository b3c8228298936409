import SvelteTypings.Generation.Overlay
import SvelteTypings.Generation.Schedule
import SvelteTypings.Path.Relative
import SvelteTypings.Text.Quoted

/-!
# Runs

A run compiles the table pass after pass until the schedule settles. A failure of the compiler or
the overlay ends it at once; what the table holds by then stays.
-/

namespace SvelteTypings.Generation

/-- One call of the compiler. Passes are numbered from one. -/
structure Pass where
  number : Nat
  roots : List Path
  outcome : Except Failure EmitOutput

/-- What a run works with and does not change. -/
structure Setting where
  compiler : Compiler
  options : CompilerOptions
  discovery : Discovery
  fs : FileSystem
  cwd : Path

/-- How a run went. `passes` are the calls of the compiler in order. -/
structure Run where
  result : Except Failure Report
  table : Table
  passes : List Pass
  log : Log

/-! ## Messages -/

def Setting.opening (s : Setting) (pass : Nat) (roots : List Path) : Log :=
  if pass = 1 then [info "--- Running declarations (attempt: 1) ---"]
  else
    [info ("--- Re-Running declarations (attempt: " ++ toString pass ++ ") ---"),
      info ("Covering missed files " ++ Text.shownList (roots.map fun p => p.relativeTo s.cwd))]

def Setting.closing (s : Setting) (report : Report) (t : Table) : Log :=
  (match report.reason with
    | .outOfPasses _ =>
      [warn "stopped after the pass limit with components still pending"]
    | .fixedPoint => []) ++
  t.incomplete.map fun e =>
    warn ("No declarations were emitted for " ++ e.component.relativeTo s.cwd)

/-! ## Passes -/

/-- Calls the compiler for some roots, with nothing discovered so far. -/
def Setting.compile (s : Setting) (roots : List Path) (t : Table) : Ending Table EmitOutput :=
  (s.compiler roots s.options).run (overlay s.discovery s.fs s.cwd) t.clearDiscovered

/-- Puts a pass and its messages in front of a run. -/
def Run.after (pass : Pass) (log : Log) (r : Run) : Run :=
  { r with passes := pass :: r.passes, log := log ++ r.log }

def Setting.finish (s : Setting) (schedule : Schedule) (t : Table) : Run :=
  ⟨.ok schedule.report, t, [], s.closing schedule.report t⟩

/-- Runs passes until the schedule settles. It does so after as many passes as it allows at most,
which is the bound given. -/
def Setting.runPasses (s : Setting) : Nat → Schedule → Table → Run
  | 0, schedule, t => s.finish schedule t
  | n + 1, schedule, t =>
    match schedule.next? with
    | none => s.finish schedule t
    | some ((pass, roots), schedule) =>
      let ending := s.compile roots t
      let log := s.opening pass roots ++ ending.log
      match ending.result with
      | .error e => ⟨.error e, ending.state, [⟨pass, roots, .error e⟩], log⟩
      | .ok output =>
        let remarks := output.diagnostics.map fun d => warn d.text
        (s.runPasses n (schedule.complete ending.state.discoveredKeys) ending.state).after
          ⟨pass, roots, .ok output⟩ (log ++ remarks)

/-- Compiles a table in at most the given number of passes. -/
def Setting.run (s : Setting) (maxPasses : Nat) (t : Table) : Run :=
  s.runPasses maxPasses ((Schedule.new maxPasses).start t.keys) t

end SvelteTypings.Generation

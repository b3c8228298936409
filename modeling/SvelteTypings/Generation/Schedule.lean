import SvelteTypings.Path.Basic

/-!
# The schedule of passes

The first pass compiles every intermediate file that is known. Each later pass compiles those that
the pass before has added, until none is added or no pass is left.
-/

namespace SvelteTypings.Generation

inductive Stage where
  | initial
  | running
  | settled
deriving DecidableEq

structure Schedule where
  maxPasses : Nat
  /-- The number of the pass that is next or under way. -/
  pass : Nat
  /-- What the next pass has to compile. -/
  worklist : List Path
  stage : Stage
deriving DecidableEq

/-- Why a run has ended. -/
inductive Reason where
  | fixedPoint
  | outOfPasses (pending : List Path)
deriving DecidableEq

/-- The files that no pass was left for. -/
def Reason.pending : Reason → List Path
  | .fixedPoint => []
  | .outOfPasses pending => pending

structure Report where
  passes : Nat
  reason : Reason
deriving DecidableEq

namespace Schedule

def new (maxPasses : Nat) : Schedule := ⟨maxPasses, 0, [], .initial⟩

/-- Begins with what is known. -/
def start (s : Schedule) (known : List Path) : Schedule :=
  { s with
    pass := 1
    worklist := known
    stage := if known.isEmpty || s.maxPasses = 0 then .settled else .running }

/-- The number and the roots of the next pass, and the schedule while it runs. -/
def next? (s : Schedule) : Option ((Nat × List Path) × Schedule) :=
  if s.stage = .running then some ((s.pass, s.worklist), { s with worklist := [] }) else none

/-- Ends a pass that has added the given files. -/
def complete (s : Schedule) (added : List Path) : Schedule :=
  { s with
    pass := s.pass + 1
    worklist := added
    stage := if added.isEmpty || s.maxPasses < s.pass + 1 then .settled else s.stage }

def passesRun (s : Schedule) : Nat := s.pass - 1

def report (s : Schedule) : Report :=
  ⟨s.passesRun, if s.worklist.isEmpty then .fixedPoint else .outOfPasses s.worklist⟩

end Schedule

end SvelteTypings.Generation

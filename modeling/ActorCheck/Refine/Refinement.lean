import ActorCheck.Config
import ActorCheck.Refine.Restart
import ActorCheck.Solver.Basic
import ActorCheck.Term.Script

/-!
# Refinement of Abstractions

An abstract counterexample may be an artefact of the abstraction. Checking it
aligns the blocks on the way to the target and asks the solver whether they
can hold together. If they can, the counterexample is real. If not, the
interpolants at the cuts between the blocks say what the abstraction failed to
see; they are kept, in a single slot, until refinement adds them to the
precision and sends the exploration back to its initial states.

The slot belongs to one target and to the very next call. A further check
drops it, a refinement uses it up, and in either case the references that it
holds are given back, whether the call succeeds or not.

Solvers count references, so every call takes and returns them in pairs. When
a reference cannot be taken, those taken before it are returned and the
failure is reported; when one cannot be returned, the others still are.

## Main definitions

* `Solution`: The interpolants of an infeasible trace.
* `Refinement`: The state of refinement over a solver.
* `Refinement.traceTo`: The aligned blocks on the way to a target.
* `Refinement.checkFeasible`: Is a counterexample real?
* `Refinement.refine`: Learn from one that is not.
-/

namespace ActorCheck

/-- The interpolants of an infeasible trace to a target. -/
structure Solution where
  target : StateId
  interpolants : List Term
  deriving DecidableEq

/-- Files for diagnosis, by name, oldest first. -/
structure Diagnostics where
  /-- The directory for them exists or can be created. -/
  writable : Bool
  files : List (String × String)

/-- The state of refinement over a solver in state `σ`. -/
structure Refinement (σ : Type) where
  solver : σ
  config : RefinerConfig
  precision : Precision
  /-- What the last check learned, until somebody uses it. -/
  solution : Option Solution
  /-- Checks that were begun so far. -/
  checks : Nat
  diagnostics : Diagnostics
  exploration : Exploration

namespace Refinement

/-- A step of refinement: it yields a result or an error, and the state
    afterwards in either case. -/
abbrev Step (σ α : Type) : Type := ExceptT AnalysisError (StateM (Refinement σ)) α

/-- Nothing learned and nothing explored yet. -/
def initial {σ : Type} (solver : σ) (config : RefinerConfig) (writable : Bool) : Refinement σ where
  solver := solver
  config := config
  precision := Precision.bottom
  solution := none
  checks := 0
  diagnostics := ⟨writable, []⟩
  exploration := ⟨StateSet.empty, StateSet.empty⟩

/-- The precision for abstracting a state: what was learned, then what the
    blocks around the state bring along. -/
def precisionAt {σ : Type} (r : Refinement σ) (s : StateRecord) : Precision :=
  s.precisions.foldl Precision.join r.precision

/-- The state that holds the block of a state. -/
def blockOf (a : Accessibility) (s : StateId) : Except AnalysisError StateRecord := do
  let known ← a.state s
  match known.wideningOf with
  | some source => a.state source
  | none => return known

/-- The aligned formulas of the blocks on the way to a target. -/
def traceTo (a : Accessibility) (target : StateId) : Except AnalysisError (List Term) := do
  let sequence ← a.wideningPath target
  let blocks ← sequence.mapM (blockOf a)
  (align (blocks.map StateRecord.formula) (blocks.map StateRecord.instances)).mapError
    .alignment

/-- The file for diagnosis of a check. -/
def dumpName (check : Nat) : String := "refinement-" ++ toString check ++ "-path.smt"

section Steps

variable {σ ε : Type} [Solver σ ε]

/-- A call on the solver. -/
def onSolver {α : Type} (x : SolverCall σ ε α) : Step σ α := do
  let r ← get
  let (outcome, solver) := x.run r.solver
  set { r with solver := solver }
  match outcome with
  | .ok a => return a
  | .error e => throw (.solver (Solver.message σ e))

/-- The outcome of a step, without ending the present one. -/
def attempt {α : Type} (x : Step σ α) : Step σ (Except AnalysisError α) :=
  ExceptT.lift x.run

/-- Return a reference to each of the terms. The first failure is reported
    after all of them have been tried. -/
def releaseAll : List Term → Step σ Unit
  | [] => return
  | t :: ts => do
    let first ← attempt (onSolver (Solver.release t))
    let later ← attempt (releaseAll ts)
    let _ ← first
    let _ ← later

/-- Return references whose taking has to be undone. Failures are ignored, as
    another one is about to be reported. -/
def giveBack : List Term → Step σ Unit
  | [] => return
  | t :: ts => do
    let _ ← attempt (onSolver (Solver.release t))
    giveBack ts

/-- Take a reference to each of the terms, or to none of them. -/
def retainAll (taken : List Term) : List Term → Step σ Unit
  | [] => return
  | t :: ts => do
    match ← attempt (onSolver (Solver.retain t)) with
    | .ok () => retainAll (taken ++ [t]) ts
    | .error e => do
      giveBack taken
      throw e

/-- Write a trace to its file, if the configuration asks for it. -/
def dump (trace : List Term) : Step σ Unit := do
  let r ← get
  if r.config.dumpPathFormula then
    if r.diagnostics.writable then
      let file := (dumpName r.checks, Term.script trace)
      set { r with diagnostics := { r.diagnostics with files := r.diagnostics.files ++ [file] } }
    else throw .io

/-- Assert formulas, in order. -/
def assertAll : List Term → Step σ Unit
  | [] => return
  | t :: ts => do
    onSolver (Solver.assert t)
    assertAll ts

/-- Assert a trace in the open scope and check it. The result is `none` if the
    trace is feasible and its interpolants if it is not. -/
def judge (trace : List Term) : Step σ (Option (List Term)) := do
  assertAll trace
  match ← onSolver Solver.check with
  | .sat => return none
  | .unsat => return some (← onSolver Solver.interpolants)
  | .unknown reason => throw (.unknownVerdict reason)

/-- Check a trace in a scope of its own, which is closed in any case. -/
def solve (trace : List Term) : Step σ (Option (List Term)) := do
  onSolver Solver.push
  let outcome ← attempt (judge trace)
  let closed ← attempt (onSolver Solver.pop)
  let found ← outcome
  let _ ← closed
  return found

/-- Drop what the last check learned and return its references. -/
def dropSolution : Step σ Unit := do
  let r ← get
  match r.solution with
  | none => return
  | some stale => do
    set { r with solution := none }
    releaseAll stale.interpolants

/-- Keep the interpolants of an infeasible trace. -/
def keepSolution (target : StateId) (interpolants : List Term) : Step σ Unit := do
  if interpolants.isEmpty then throw (.contract (.noInterpolants target))
  retainAll [] interpolants
  modify fun r => { r with solution := some ⟨target, interpolants⟩ }

/-- Decide whether the trace to a target is feasible. If it is not, its
    interpolants are kept for refinement. -/
def checkFeasible (a : Accessibility) (target : StateId) : Step σ Bool := do
  dropSolution
  modify fun r => { r with checks := r.checks + 1 }
  let trace ← traceTo a target
  dump trace
  retainAll [] trace
  let outcome ← attempt (solve trace)
  let released ← attempt (releaseAll trace)
  let found ← outcome
  let _ ← released
  match found with
  | none => return true
  | some interpolants => do
    keepSolution target interpolants
    return false

/-- Add the interpolants to the precision and restart the exploration, if they
    belong to the target. -/
def learn (a : Accessibility) (solution : Solution) (target : StateId) : Step σ Unit := do
  if solution.target ≠ target then
    throw (.contract (.mismatchedTarget solution.target target))
  let r ← get
  if r.config.useLazyAbstraction then throw (.unsupported .lazyAbstraction)
  let learned := Precision.ofTerms solution.interpolants .intermediate
  set { r with
    precision := r.precision.join learned
    exploration := restart a r.exploration }

/-- Learn from the infeasible trace that was checked last. What the check kept
    is used up whether this succeeds or not. -/
def refine (a : Accessibility) (target : StateId) : Step σ Unit := do
  let r ← get
  match r.solution with
  | none => throw (.contract .missingInterpolationSolution)
  | some solution => do
    set { r with solution := none }
    let applied ← attempt (learn a solution target)
    let released ← attempt (releaseAll solution.interpolants)
    let _ ← applied
    released

end Steps

end Refinement

end ActorCheck

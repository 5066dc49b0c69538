import ActorCheck.Solver.Basic
import ActorCheck.Solver.Constraints

/-!
# The Interval Solver

An interpolating solver for the fragment of bound literals. Its state is the
list of assertions together with the marks where the open scopes begin.

Since variables are constrained independently, the interpolant for a cut is
the strongest consequence of everything before the cut on the variables that
also occur after it. What precedes the innermost scope counts as before the
cut, what follows the cut ends with the innermost scope. A prefix that is
already contradictory has the interpolant `false`.

A verdict is remembered only until the assertions change, so interpolants are
never drawn from a stale proof. References do not influence verdicts, hence
taking or returning one keeps the memory. Every failing call leaves the state
as it was.

## Main definitions

* `IntervalSolver`: The state of the solver.
* `IntervalSolver.verdict`: The verdict on the current assertions.
* `IntervalSolver.cutInterpolant`: The interpolant for one cut.
* `IntervalSolver.reset`: Back to the start.
-/

namespace ActorCheck

/-- The state of the interval solver. -/
structure IntervalSolver where
  /-- All asserted formulas, oldest first. -/
  assertions : List Term
  /-- The number of assertions at the opening of each open scope, innermost
      scope first. -/
  scopes : List Nat
  /-- The outstanding references, one entry for each. -/
  references : List Term
  /-- The last verdict, if the assertions have not changed since. -/
  lastCheck : Option Verdict
  deriving DecidableEq

namespace IntervalSolver

/-- A call on the interval solver. -/
abbrev Call (α : Type) : Type := SolverCall IntervalSolver IntervalError α

/-- The solver without assertions, scopes and references. -/
def initial : IntervalSolver := ⟨[], [], [], none⟩

/-- The number of open scopes. -/
def depth (s : IntervalSolver) : Nat := s.scopes.length

/-- The number of outstanding references. -/
def referenceCount (s : IntervalSolver) : Nat := s.references.length

/-- The verdict on the current assertions. -/
def verdict (s : IntervalSolver) : Except IntervalError Verdict := do
  let constraints ← Constraints.ofTerms s.assertions
  return if constraints.isSat then .sat else .unsat

/-- The interpolant between the formulas before and after a cut. -/
def cutInterpolant (before after : List Term) : Except IntervalError Term := do
  let known ← Constraints.ofTerms before
  if known.isSat then
    let wanted ← Constraints.ofTerms after
    return known.project (known.vars ∩ wanted.vars)
  else
    return .bool false

/-- The interpolants for all cuts of a list of formulas that follow `before`. -/
def cutInterpolants (before : List Term) : List Term → Except IntervalError (List Term)
  | [] => .ok []
  | [_] => .ok []
  | first :: rest => do
    let before := before ++ [first]
    return (← cutInterpolant before rest) :: (← cutInterpolants before rest)

/-- The interpolants for the cuts of the innermost scope. -/
def scopeInterpolants (s : IntervalSolver) : Except IntervalError (List Term) :=
  let start := s.scopes.head?.getD 0
  cutInterpolants (s.assertions.take start) (s.assertions.drop start)

/-- Open a scope. -/
def push : Call Unit :=
  modify fun s => { s with scopes := s.assertions.length :: s.scopes, lastCheck := none }

/-- Close the innermost scope and drop its assertions. -/
def pop : Call Unit := do
  let s ← get
  match s.scopes with
  | [] => throw .scopeUnderflow
  | start :: scopes =>
    set { s with assertions := s.assertions.take start, scopes := scopes, lastCheck := none }

/-- Assert a formula of the fragment. -/
def assert (t : Term) : Call Unit := do
  let _ ← literalsOf true t
  modify fun s => { s with assertions := s.assertions ++ [t], lastCheck := none }

/-- Take a reference to a formula. -/
def retain (t : Term) : Call Unit :=
  modify fun s => { s with references := t :: s.references }

/-- Give a reference to a formula back. -/
def release (t : Term) : Call Unit := do
  let s ← get
  if t ∈ s.references then set { s with references := s.references.erase t }
  else throw (.refCountUnderflow t)

/-- Check the current assertions and remember the verdict. -/
def check : Call Verdict := do
  let verdict ← (← get).verdict
  modify fun s => { s with lastCheck := some verdict }
  return verdict

/-- The interpolants for the innermost scope, right after a check that found a
    contradiction. -/
def interpolants : Call (List Term) := do
  let s ← get
  if s.lastCheck = some .unsat then s.scopeInterpolants
  else throw .noUnsatProof

/-- Forget everything. -/
def reset : Call Unit := set initial

instance : Solver IntervalSolver IntervalError where
  push := push
  pop := pop
  assert := assert
  retain := retain
  release := release
  check := check
  interpolants := interpolants
  message := IntervalError.message

end IntervalSolver

end ActorCheck

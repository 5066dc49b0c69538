import ActorCheck.Term.Basic

/-!
# Interpolating Solvers

What the refinement of abstractions asks of a solver: a stack of assertion
scopes, references to formulas that outlive a call, a verdict, and
interpolants for the cuts between the formulas of the innermost scope.

A call can fail, and a failing call may still have changed the solver, so a
call is a state transition that yields a result or an error. The interface
does not promise that a failing call changes nothing; a solver for which this
matters says so.

## Main definitions

* `Verdict`: The answer of a satisfiability check.
* `SolverCall`: A call on a solver's state.
* `Solver`: The calls of a solver.
* `Solver.isUnsat`: A check that only asks for a proof of unsatisfiability.
-/

namespace ActorCheck

/-- The answer of a satisfiability check. -/
inductive Verdict where
  | sat
  | unsat
  | unknown (reason : String)
  deriving DecidableEq

/-- A call on a solver in state `σ`: it yields a result or an error, and the
    state afterwards in either case. -/
abbrev SolverCall (σ ε α : Type) : Type := ExceptT ε (StateM σ) α

/-- A solver with states `σ` and errors `ε`. -/
class Solver (σ : Type) (ε : outParam Type) where
  /-- Open an assertion scope. -/
  push : SolverCall σ ε Unit
  /-- Close the innermost assertion scope. -/
  pop : SolverCall σ ε Unit
  /-- Assert a formula in the innermost scope. -/
  assert (t : Term) : SolverCall σ ε Unit
  /-- Take a reference to a formula. -/
  retain (t : Term) : SolverCall σ ε Unit
  /-- Give a reference to a formula back. -/
  release (t : Term) : SolverCall σ ε Unit
  /-- Check whether all asserted formulas can hold together. -/
  check : SolverCall σ ε Verdict
  /-- One interpolant for every cut between the formulas of the innermost
      scope, after a check that found them contradictory. -/
  interpolants : SolverCall σ ε (List Term)
  /-- The text of an error. -/
  message (e : ε) : String

namespace Solver

/-- Check for a proof of unsatisfiability. An unknown verdict is none. -/
def isUnsat {σ ε : Type} [Solver σ ε] : SolverCall σ ε Bool := do
  let verdict ← check
  return verdict == .unsat

end Solver

end ActorCheck

import ActorCheck.AnalysisError
import ActorCheck.Program.Actor

/-!
# Data Analyses

The scheduler knows nothing about data. What a statement does to it is the
business of a data analysis, which may be concrete or abstract, precise or
not. All that is asked of it is a list of successors for a state and an
operation, which is empty if the operation cannot be taken, and a test whether
a state stands for anything at all.

Operations come with all variables in their places. Statements that only
concern threads are not passed on; the operation that does nothing may be, and
a sequence skips it.

## Main definitions

* `DataAnalysis`: A data analysis.
* `DataAnalysis.run`: The states after a sequence of operations.
-/

namespace ActorCheck

/-- A data analysis over states `σ`. -/
structure DataAnalysis (σ : Type) where
  /-- The states after an operation that a concern performs. -/
  successors : σ → Operation → Concern → Except AnalysisError (List σ)
  /-- The state stands for something. -/
  isFeasible : σ → Bool

namespace DataAnalysis

variable {σ : Type}

/-- The states after one operation from each of some states, in order. -/
def runAll (d : DataAnalysis σ) (op : Operation) (concern : Concern) (states : List σ) :
    Except AnalysisError (List σ) := do
  let found ← states.mapM fun s => d.successors s op concern
  return found.flatten

/-- The states after a sequence of operations, from each of some states. -/
def runFrom (d : DataAnalysis σ) (concern : Concern) :
    List σ → List Operation → Except AnalysisError (List σ)
  | states, [] => .ok states
  | states, op :: ops => do
    if op.isEpsilon then runFrom d concern states ops
    else runFrom d concern (← d.runAll op concern states) ops

/-- The states after a sequence of operations. -/
def run (d : DataAnalysis σ) (s : σ) (ops : List Operation) (concern : Concern) :
    Except AnalysisError (List σ) :=
  d.runFrom concern [s] ops

end DataAnalysis

end ActorCheck

import ActorCheck.Data.Analysis
import ActorCheck.Data.Eval

/-!
# The Explicit Value Analysis

The data analysis that runs a program on concrete values. Its states are
stores. Every statement has one successor, except that a condition which does
not hold has none.

A value is computed before anything is written, so an assignment reads the old
store. Declaring a variable gives it the default of its type again. Of the
built-in methods this analysis provides the one that reads the clock;
other calls and timed waits are beyond it.

## Main definitions

* `Explicit.successors`: The stores after a statement.
* `DataAnalysis.explicit`: The analysis.
-/

namespace ActorCheck

namespace Explicit

/-- The store after a call of the clock. -/
def readClock (s : Store) (result : Option Variable) : Store :=
  match result with
  | some v => s.write v (.int s.time)
  | none => s

/-- The store after a declaration. -/
def declare (s : Store) (v : Variable) : Store :=
  match Value.default? v.type with
  | some value => s.write v value
  | none => s

/-- The stores after a statement. -/
def successors (s : Store) : Statement → Except AnalysisError (List Store)
  | .epsilon => .ok [s]
  | .beginAtomic => .ok [s]
  | .endAtomic => .ok [s]
  | .signal _ => .ok [s]
  | .broadcast _ => .ok [s]
  | .broadcastAndWait _ => .ok [s]
  | .ret _ => .ok [s]
  | .assume e => do
    if ← (← eval s e).asBool e then return [s] else return []
  | .declare v => .ok [declare s v]
  | .store v e => do return [s.write v (← eval s e)]
  | .evaluate e => do
    let _ ← eval s e
    return [s]
  | .call method args result =>
    if method = Builtin.micros ∧ args = [] then .ok [readClock s result]
    else .error (.unsupported (.methodCall method))
  | .waitUntil e => .error (.unsupported (.statement (.waitUntil e)))
  | .waitSecs e => .error (.unsupported (.statement (.waitSecs e)))

end Explicit

/-- The data analysis on concrete values. -/
def DataAnalysis.explicit : DataAnalysis Store where
  successors s op _ := Explicit.successors s op.statement
  isFeasible _ := true

end ActorCheck

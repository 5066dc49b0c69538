import ActorCheck.Data.Explicit

/-!
# Stubs for the Explicit Analysis

A program can be explored without knowing everything it depends on. A stub
replaces part of the explicit analysis by a free choice: a method may return
any of some values, a condition may be left open, and stores that are out of
the question may be excluded.

A stubbed method does not look at its arguments, and a condition that is left
open is not evaluated, so neither can fail.

## Main definitions

* `Stub`: The choices.
* `DataAnalysis.stubbed`: The explicit analysis with a stub.
-/

namespace ActorCheck

/-- The parts of the explicit analysis that are replaced by choices. -/
structure Stub where
  /-- The values that methods may return. -/
  havoc : List (String × List Value)
  /-- The number of copies of the store after any condition. -/
  blur : Option Nat
  /-- A cell and the value that rules a store out. -/
  infeasible : Option (String × Value)

namespace Stub

/-- The stores after a call that returns one of some values. -/
def chosen (s : Store) (values : List Value) (result : Option Variable) : List Store :=
  values.map fun value =>
    match result with
    | some v => s.write v value
    | none => s

/-- The stores after a statement. -/
def successors (stub : Stub) (s : Store) (statement : Statement) :
    Except AnalysisError (List Store) :=
  match statement with
  | .call method _ result =>
    match stub.havoc.find? fun entry => entry.1 == method with
    | some (_, values) => .ok (chosen s values result)
    | none => Explicit.successors s statement
  | .assume _ =>
    match stub.blur with
    | some n => .ok (List.replicate n s)
    | none => Explicit.successors s statement
  | _ => Explicit.successors s statement

/-- The store is not ruled out. -/
def isFeasible (stub : Stub) (s : Store) : Bool :=
  match stub.infeasible with
  | some (name, value) => s[name]? != some value
  | none => true

end Stub

/-- The explicit analysis with a stub. -/
def DataAnalysis.stubbed (stub : Stub) : DataAnalysis Store where
  successors s op _ := stub.successors s op.statement
  isFeasible := stub.isFeasible

end ActorCheck

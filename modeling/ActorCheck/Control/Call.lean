import ActorCheck.Control.Leaving
import ActorCheck.Control.Scheduler

/-!
# Calls and Returns

A call moves a thread into the relation of a method and puts a frame on its
stack; a return takes the frame off and continues where it says. Neither
touches data by itself. What has to be done to data is left to the data
analysis, as operations that it performs instead of the statement.

For a call these are a declaration and an assignment per parameter, in order:
the arguments are the caller's, the parameters live in the scope of the
method. A method with several entries is entered at each of them.

For a return it is the assignment of the result, if the method has one and the
call asked for it. Where the result goes is read off the relation of the
caller: the edge along which the call was made has to carry a single call.

## Main definitions

* `ControlState.Outcome`: A state with a mark whether the data are settled.
* `App.passing`: The statements that pass arguments.
* `enterMethod`: The states after a call.
* `App.callTargets`: Where the calls along an edge put their results.
* `leaveMethod`: The states after a return.
-/

namespace ActorCheck

/-- A state after a statement was interpreted, with a mark whether the data
    analysis has nothing more to do. -/
abbrev ControlState.Outcome (σ : Type) : Type := ControlState σ × Bool

namespace Scheduler

/-- The statements that pass arguments: a declaration and an assignment for
    each parameter. -/
def passing (scoping : Scoping) (parameters : List Variable) (args : List Expr) :
    List Statement :=
  (parameters.zip args).flatMap fun (p, arg) =>
    [.declare (scoping.target p), .store (scoping.target p) arg]

/-- The states after a thread has called a method of its actor. -/
def enterMethod {σ : Type} (s : ControlState σ) (index : Nat) (t : Thread) (actor : Actor)
    (name : String) (args : List Expr) (source target : Place) :
    Scheduling (List (ControlState.Outcome σ)) := do
  let app ← program
  let method ← ofModel (actor.method name)
  if method.parameters.length ≠ args.length then
    throw (.argument (.arity name method.parameters.length args.length))
  let callee ← app.relationOf method.relation
  let scope ← app.localScope source
  let scoping := { Scoping.new actor scope with writeScope := [actor.name, callee.name] }
  let ops ← (passing scoping method.parameters args).mapM fun statement =>
    freshOperation statement
  let caller := { t with calls := ⟨source, target⟩ :: t.calls, operations := ops }
  return callee.entries.toList.map fun entry =>
    (s.setThread index { caller with place := ⟨actor.name, callee.id, entry⟩ }, ops.isEmpty)

/-- The variables to which the calls along an edge assign their results. -/
def callTargets (app : App) (r : Relation) (source target : LocationId) :
    Except AnalysisError (List (Option Variable)) := do
  let along := (r.edgesFrom source).filter fun (_, l) => l == target
  let found ← along.mapM fun (id, _) => app.operationOf id
  return found.filterMap fun op =>
    match op.statement with
    | .call _ _ result => some result
    | _ => none

/-- The assignment of the result of a method to the variable of the call. -/
def passingBack (scoping : Scoping) (assignTo result : Option Variable) : List Statement :=
  match assignTo, result with
  | some v, some r => [.store (scoping.target v) (.var r)]
  | _, _ => []

/-- The states after a thread has returned from a method. -/
def leaveMethod {σ : Type} (s : ControlState σ) (index : Nat) (t : Thread) (actor : Actor)
    (result : Option Variable) : Scheduling (List (ControlState.Outcome σ)) := do
  let app ← program
  match t.calls with
  | [] => throw (.contract (.emptyCallStack t.id))
  | frame :: calls => do
    let caller ← app.relationOf frame.callFrom.relation
    match ← callTargets app caller frame.callFrom.location frame.returnTo.location with
    | [assignTo] => do
      let scope ← app.localScope frame.callFrom
      let ops ← (passingBack (Scoping.new actor scope) assignTo result).mapM fun statement =>
        freshOperation statement
      let returned := { t with calls := calls, place := frame.returnTo, operations := ops }
      return [(s.setThread index returned, ops.isEmpty)]
    | _ => throw (.contract (.malformedCallSite frame.callFrom.location))

end Scheduler

end ActorCheck

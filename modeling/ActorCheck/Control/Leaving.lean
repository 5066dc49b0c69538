import ActorCheck.AnalysisError
import ActorCheck.Control.State
import ActorCheck.Flow.Loops

/-!
# What a Thread Can Do Next

Look-up around the place of a thread: the scope its local variables live in,
the operations that leave its place, and the entry to which it goes back when
it is restarted.

A local variable belongs to the actor and to the relation it occurs in, so the
scope of a place consists of these two names. Variables of actor type are
resolved by what the control state records about them.

## Main definitions

* `ControlState.thread`: The thread at an index.
* `App.localScope`: The scope of a place.
* `App.hasLeaving`: Something leaves the place of a thread.
* `App.leaving`: The operations that leave the place of a thread.
* `App.restart`: The thread back at the entry of its script.
-/

namespace ActorCheck

/-- The thread at an index. -/
def ControlState.thread {σ : Type} (s : ControlState σ) (index : Nat) :
    Except AnalysisError Thread :=
  match s.threads[index]? with
  | some t => .ok t
  | none => .error (.contract (.unknownThread index))

namespace App

/-- The actor with a name, as a step of the analysis. -/
def actorNamed (app : App) (name : ActorName) : Except AnalysisError Actor :=
  ofModel (app.actor name)

/-- The relation with a number, as a step of the analysis. -/
def relationOf (app : App) (id : RelationId) : Except AnalysisError Relation :=
  ofModel (app.relation id)

/-- The operation with a number, as a step of the analysis. -/
def operationOf (app : App) (id : OperationId) : Except AnalysisError Operation :=
  ofModel (app.operation id)

/-- The script of a thread. -/
def scriptOf (app : App) (t : Thread) : Except AnalysisError Script :=
  ofModel (app.script t.actor t.script)

/-- The scope of a place: its actor and the name of its relation. -/
def localScope (app : App) (p : Place) : Except AnalysisError (List String) := do
  let r ← app.relationOf p.relation
  return [p.actor, r.name]

/-- Some operation leaves the place of a thread. -/
def hasLeaving (app : App) (t : Thread) : Except AnalysisError Bool := do
  let r ← app.relationOf t.place.relation
  return r.hasEdgesFrom t.place.location

/-- The operations that leave the place of a thread, with all variables in
    their places, and where they lead. -/
def leaving {σ : Type} (app : App) (s : ControlState σ) (t : Thread) :
    Except AnalysisError (List (Operation × Place)) := do
  let r ← app.relationOf t.place.relation
  let actor ← app.actorNamed t.actor
  let scope ← app.localScope t.place
  let scoping := { Scoping.new actor scope with resolve := fun v => s.actorScopes[v]? }
  (r.edgesFrom t.place.location).mapM fun (id, target) => do
    let op ← app.operationOf id
    return (← ofScope (scoping.operation op), { t.place with location := target })

/-- The entry of the script of a thread. -/
def entryPlace (app : App) (t : Thread) : Except AnalysisError Place := do
  let script ← app.scriptOf t
  let r ← app.relationOf script.relation
  let entry ← ofModel r.soleEntry
  return ⟨t.actor, r.id, entry⟩

/-- The thread back at the entry of its script. -/
def restart (app : App) (t : Thread) : Except AnalysisError Thread := do
  return t.atStart (← app.entryPlace t)

end App

end ActorCheck

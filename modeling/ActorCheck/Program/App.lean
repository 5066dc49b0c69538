import ActorCheck.Program.Actor
import ActorCheck.Relation.Basic

/-!
# Programs

A program consists of its actors and of the relations and operations that
their scripts and methods refer to by number. It also holds the supply of
numbers, because whatever is added draws its own.

An analysis adds to a program while it runs: relations it composes, and
scripts that evaluate a condition somebody waits for. Such a script is made
once for an actor and a condition and then used again, so that a program which
waits for the same condition for ever does not grow for ever.

Nothing that was added is taken back when a later step fails; a computation on
a program yields a result or an error, and the program it leaves behind in
either case.

## Main definitions

* `App`: A program.
* `Modelling`: A computation on a program.
* `App.relation`, `App.operation`, `App.actor`, `App.script`: Look-up.
* `App.newOperation`, `App.addRelation`, `App.addActor`: Additions.
* `App.conditionScript`: The script that evaluates a condition.
-/

namespace ActorCheck

/-- The operations of a program by number. -/
abbrev OperationTable : Type := Std.ExtTreeMap OperationId Statement

/-- A script that evaluates a condition on behalf of an actor. -/
structure ConditionScript where
  owner : ActorName
  condition : Expr
  script : Script
  deriving DecidableEq

/-- A program. -/
structure App where
  name : String
  supply : IdSupply
  actors : List Actor
  relations : Std.ExtTreeMap RelationId Relation
  operations : OperationTable
  conditionScripts : List ConditionScript
  deriving DecidableEq

/-- A computation on a program that may find it at fault. -/
abbrev Modelling (α : Type) : Type := ExceptT ModelError (StateM App) α

namespace App

/-- The program without actors. It knows the operation that does nothing. -/
def new (name : String) : App :=
  ⟨name, IdSupply.initial, [], ∅, Std.ExtTreeMap.ofList [(epsilonId, Statement.epsilon)], []⟩

/-- Run a computation on the supply of numbers. -/
def drawing {α : Type} (x : StateM IdSupply α) : StateM App α :=
  modifyGet fun app =>
    let (a, supply) := x.run app.supply
    (a, { app with supply := supply })

/-- Draw a number. -/
def fresh : StateM App Nat := drawing freshId

/-- Run a computation that draws numbers and may fail. -/
def building {α : Type} (x : Drawing α) : Modelling α := ExceptT.mk (drawing x.run)

/-- The actor with a name. -/
def actor (app : App) (name : ActorName) : Except ModelError Actor :=
  match app.actors.find? fun a => a.name == name with
  | some a => .ok a
  | none => .error (.unknownActor name)

/-- The operation with a number. -/
def operation (app : App) (id : OperationId) : Except ModelError Operation :=
  match app.operations[id]? with
  | some statement => .ok ⟨id, statement⟩
  | none => .error (.unknownOperation id)

/-- The relation with a number. -/
def relation (app : App) (id : RelationId) : Except ModelError Relation :=
  match app.relations[id]? with
  | some r => .ok r
  | none => .error (.unknownRelation id)

/-- The script of an actor, which it declares or which was made for it. -/
def script (app : App) (owner : ActorName) (id : ScriptId) : Except ModelError Script := do
  let a ← app.actor owner
  let made := app.conditionScripts.find? fun c => c.owner == owner && c.script.id == id
  match (a.script? id).or (made.map ConditionScript.script) with
  | some s => return s
  | none => throw (.unknownScript owner id)

/-- Add an actor, whose name has to be new. -/
def addActor (a : Actor) : Modelling Unit := do
  let app ← get
  if app.actors.any fun known => known.name == a.name then throw (.duplicateActor a.name)
  else set { app with actors := app.actors ++ [a] }

/-- Give a statement an identity. -/
def newOperation (s : Statement) : StateM App Operation := do
  let id ← fresh
  modify fun app => { app with operations := app.operations.insert id s }
  return ⟨id, s⟩

/-- Make a relation known. -/
def addRelation (r : Relation) : StateM App Unit :=
  modify fun app => { app with relations := app.relations.insert r.id r }

/-- A new script. -/
def newScript (event : Event) (relation : RelationId) : StateM App Script := do
  return ⟨← fresh, event, relation⟩

/-- The flow that evaluates a condition: from the entry, one operation leads to
    the exit and one to a dead end. -/
def conditionFlow (entry exit reject : LocationId) (holds fails : OperationId) : Flow :=
  ((((Flow.empty.addEntry entry).addExit exit).addLocation reject).addEdge entry holds exit).addEdge
    entry fails reject

/-- Make the script that evaluates a condition: it reaches its exit if the
    condition holds and a dead end if its negation does. -/
def makeConditionScript (owner : ActorName) (condition : Expr) : Modelling Script := do
  let holds ← newOperation (.assume condition)
  let fails ← newOperation (.assume (.not condition))
  let entry ← fresh
  let exit ← fresh
  let reject ← fresh
  let r ← building (Relation.make none (conditionFlow entry exit reject holds.id fails.id))
  addRelation r
  let s ← newScript .conditionCheck r.id
  modify fun app =>
    { app with conditionScripts := app.conditionScripts ++ [⟨owner, condition, s⟩] }
  return s

/-- The script that evaluates a condition on behalf of an actor. It is made at
    the first request. -/
def conditionScript (owner : ActorName) (condition : Expr) : Modelling Script := do
  let app ← get
  let _ ← app.actor owner
  match app.conditionScripts.find? fun c => c.owner == owner && c.condition == condition with
  | some known => return known.script
  | none => makeConditionScript owner condition

end App

end ActorCheck

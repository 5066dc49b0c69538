import ActorCheck.Flow.Compose
import ActorCheck.Flow.Epsilon
import ActorCheck.Flow.Loops
import ActorCheck.ModelError

/-!
# Transition Relations

A transition relation is a well-formed flow with an identity and a name. The
identity is drawn when the relation is made, before its flow is checked, so a
flow that is refused uses up a number as well. Without a name of its own a
relation is named by its number.

The combinators compose the flows of relations, in the order in which they
draw numbers: locations they need come first, the number of the result last.
Only giving a relation a location that is not new can fail; the composed flow
of well-formed flows is well formed again.

## Main definitions

* `Relation`: A flow with identity and name.
* `Relation.make`: Check a flow and give it an identity.
* `Relation.soleEntry`: The entry of a relation that has exactly one.
* `Relation.reverse`: The relation with every edge turned round.
* `Relation.concat`, `append`, `prepend`, `branch`, `sequence`,
  `removeEpsilons`: The combinators.
-/

namespace ActorCheck

/-- A flow with identity and name. -/
structure Relation extends Flow where
  id : RelationId
  name : String
  deriving DecidableEq

/-- A computation that draws numbers and may find the model at fault. -/
abbrev Drawing (α : Type) : Type := ExceptT ModelError (StateM IdSupply) α

namespace Relation

/-- Give a flow an identity, and a name if it has none. -/
def identify (name : Option String) (g : Flow) : StateM IdSupply Relation := do
  let id ← freshId
  return { toFlow := g, id := id, name := name.getD (relationText id) }

/-- Give a flow an identity and check that it is well formed. -/
def make (name : Option String) (g : Flow) : Drawing Relation := do
  let r ← identify name g
  match g.dangling? with
  | some l => throw (.unregisteredLocation r.name l)
  | none => return r

/-- The same relation under another name. -/
def rename (r : Relation) (name : String) : Relation := { r with name := name }

/-- The relation with every edge turned round, under a marked name. -/
def reverse (r : Relation) : Relation :=
  { toFlow := r.toFlow.reverse, id := r.id, name := r.name ++ "~" }

/-- The entry of a relation that has exactly one. -/
def soleEntry (r : Relation) : Except ModelError LocationId :=
  match r.entries.toList with
  | [l] => .ok l
  | entries => .error (.entryLocationCount r.name entries.length)

/-- The text of a relation: its transitions, one on a line. -/
def render (r : Relation) : String :=
  "\n".intercalate (r.locations.toList.flatMap fun l =>
    (r.edgesFrom l).map fun (op, target) =>
      locationText l ++ " " ++ operationText op ++ " " ++ locationText target)

/-- A location that is entry and exit, without transitions. -/
def singleton (l : LocationId) : StateM IdSupply Relation :=
  identify none (Flow.singleton l)

/-- A new location that is entry and exit. -/
def epsilon : StateM IdSupply Relation := do
  singleton (← freshId)

/-- One transition between two locations. -/
def single (source target : LocationId) (op : OperationId) : Drawing Relation :=
  make none (((Flow.empty.addEntry source).addExit target).addEdge source op target)

/-- First `a`, then `b`. -/
def concat (a b : Relation) : Drawing Relation :=
  make none (a.toFlow.concat b.toFlow)

/-- First `r`, then an operation on the way to the new location `goto`. -/
def append (r : Relation) (op : OperationId) (goto : LocationId) : Drawing Relation :=
  if goto ∈ r.locations then throw (.circularCombinator goto)
  else make none (r.toFlow.append op goto)

/-- First an operation on the way from the new location `start`, then `r`. -/
def prepend (start : LocationId) (op : OperationId) (r : Relation) : Drawing Relation :=
  if start ∈ r.locations then throw (.circularCombinator start)
  else make none (Flow.prepend start op r.toFlow)

/-- Either `a` or `b`, joined at the new location `exit`. -/
def branch (a b : Relation) (exit : LocationId) : Drawing Relation :=
  if exit ∈ a.locations ∨ exit ∈ b.locations then throw (.circularCombinator exit)
  else do
    let entry ← freshId
    make none (a.toFlow.branch b.toFlow entry exit)

/-- Append operations one by one, each on the way to a new location. -/
def appendAll (r : Relation) : List OperationId → Drawing Relation
  | [] => return r
  | op :: ops => do
    let goto ← freshId
    appendAll (← r.append op goto) ops

/-- A straight line of new locations that carries the operations in order. -/
def sequence (ops : List OperationId) : Drawing Relation := do
  appendAll (← epsilon) ops

/-- Giving a relation new locations is refused. -/
def relabel (r : Relation) : Drawing Relation := throw (.relabel r.name)

/-- An equivalent relation of the same name without transitions that do
    nothing. -/
def removeEpsilons (r : Relation) : Drawing Relation :=
  make (some r.name) r.toFlow.removeEpsilons

end Relation

end ActorCheck

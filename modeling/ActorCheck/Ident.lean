/-!
# Identifiers

Locations, relations, operations, threads and scripts are told apart by
numbers, actors by their names. All numbers come from one supply, so no two
things of any kind share a number that was drawn, and a drawn number says how
much was created before it.

Zero is never drawn. It is the operation that does nothing.

## Main definitions

* `IdSupply`: The next number to be drawn.
* `freshId`: Draw a number.
* `epsilonId`: The operation that does nothing.
* `locationText`, `relationText`, `operationText`, `threadText`, `scriptText`:
  Numbers as texts that name their kind.
-/

namespace ActorCheck

/-- A control location of a relation. -/
abbrev LocationId : Type := Nat

/-- A transition relation. -/
abbrev RelationId : Type := Nat

/-- An operation that labels transitions. -/
abbrev OperationId : Type := Nat

/-- A thread of a running program. -/
abbrev ThreadId : Type := Nat

/-- A script of an actor. -/
abbrev ScriptId : Type := Nat

/-- Actors are identified by name. -/
abbrev ActorName : Type := String

/-- The operation that does nothing. -/
def epsilonId : OperationId := 0

/-- The text of a location. -/
def locationText (l : LocationId) : String := "L" ++ toString l

/-- The text of a relation. -/
def relationText (r : RelationId) : String := "R" ++ toString r

/-- The text of an operation. -/
def operationText (o : OperationId) : String := "op" ++ toString o

/-- The text of a thread. -/
def threadText (t : ThreadId) : String := "T" ++ toString t

/-- The text of a script. -/
def scriptText (s : ScriptId) : String := "S" ++ toString s

/-- The source of all numbers: the next one to be drawn. -/
structure IdSupply where
  next : Nat
  deriving DecidableEq

/-- The supply from which nothing has been drawn. -/
def IdSupply.initial : IdSupply := ⟨1⟩

/-- Draw a number. -/
def freshId : StateM IdSupply Nat :=
  modifyGet fun s => (s.next, ⟨s.next + 1⟩)

end ActorCheck

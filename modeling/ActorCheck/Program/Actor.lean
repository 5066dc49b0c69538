import ActorCheck.ModelError
import ActorCheck.Statement

/-!
# Actors

An actor owns scripts, which react to events, methods, which its scripts call,
and the names of its variables. It belongs either to the program under test or
to its specification.

Observers run before everybody else. Actors of the specification are observers
unless they are told otherwise.

## Main definitions

* `Concern`: Program or specification.
* `Event`: What starts a script.
* `Script`, `Method`: What an actor can run.
* `Actor`: An actor with its declarations.
* `Actor.addMethod`: Declare a method of a new name.
-/

namespace ActorCheck

/-- The two sides of a model: what is tested and what tests it. -/
inductive Concern where
  | program
  | specification
  deriving DecidableEq

namespace Concern

/-- The concerns, in ascending priority. -/
def all : List Concern := [.program, .specification]

/-- The name of a concern. -/
def name : Concern → String
  | .program => "Program"
  | .specification => "Specification"

/-- The concern that takes precedence over all others. -/
def highest : Concern := .specification

/-- The priority of a concern. -/
def priority : Concern → Nat
  | .program => 0
  | .specification => 1

end Concern

/-- What starts a script. -/
inductive Event where
  | bootstrap
  | afterBootstrap
  | startup
  | messageReceived (message space : String)
  /-- Every statement of the program, once bootstrapping is over. -/
  | afterStatement
  /-- The evaluation of a condition that a thread waits for. -/
  | conditionCheck
  | never
  deriving DecidableEq

/-- The text of an event. -/
def Event.render : Event → String
  | .bootstrap => "bootstrap"
  | .afterBootstrap => "after bootstrap"
  | .startup => "startup"
  | .messageReceived message space => "message " ++ space ++ "/" ++ message ++ " received"
  | .afterStatement => "after statement"
  | .conditionCheck => "condition check"
  | .never => "never"

/-- A relation that runs on an event. -/
structure Script where
  id : ScriptId
  event : Event
  relation : RelationId
  deriving DecidableEq

/-- A relation that runs when it is called. -/
structure Method where
  name : String
  parameters : List Variable
  /-- The variable that holds the result, if there is one. -/
  result : Option Variable
  relation : RelationId
  deriving DecidableEq

/-- An actor with its declarations. -/
structure Actor where
  name : ActorName
  concern : Concern
  isObserver : Bool
  scripts : List Script
  methods : List Method
  /-- The names of methods that the system provides. -/
  externals : Std.ExtTreeSet String
  /-- The names of the actor's own variables. -/
  ownVariables : Std.ExtTreeSet String
  deriving DecidableEq

namespace Actor

/-- An actor without declarations. -/
def new (name : ActorName) (concern : Concern) : Actor :=
  ⟨name, concern, concern == .specification, [], [], ∅, ∅⟩

/-- Declare a script. -/
def addScript (a : Actor) (s : Script) : Actor := { a with scripts := a.scripts ++ [s] }

/-- Declare a method, whose name has to be new. -/
def addMethod (a : Actor) (m : Method) : Except ModelError Actor :=
  if a.methods.any fun known => known.name == m.name then
    .error (.ambiguousMethod a.name m.name)
  else .ok { a with methods := a.methods ++ [m] }

/-- Declare a method that the system provides. -/
def addExternal (a : Actor) (name : String) : Actor :=
  { a with externals := a.externals.insert name }

/-- Declare a variable of the actor. -/
def addVariable (a : Actor) (name : String) : Actor :=
  { a with ownVariables := a.ownVariables.insert name }

/-- The script with an identity. -/
def script? (a : Actor) (id : ScriptId) : Option Script :=
  a.scripts.find? fun s => s.id == id

/-- The method with a name. -/
def method (a : Actor) (name : String) : Except ModelError Method :=
  match a.methods.find? fun m => m.name == name with
  | some m => .ok m
  | none => .error (.unknownMethod a.name name)

/-- The system provides the method. -/
def isExternal (a : Actor) (name : String) : Bool := a.externals.contains name

/-- The actor itself owns the variable. -/
def owns (a : Actor) (name : String) : Bool := a.ownVariables.contains name

end Actor

end ActorCheck

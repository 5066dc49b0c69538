import ActorCheck.Builtin
import Std.Data.ExtTreeSet

/-!
# Statements

What the transitions of a relation do. Most statements act on data and are the
business of a data analysis; calls of user methods, atomic sections, messages,
signals and waits act on the threads and are the scheduler's.

An operation is a statement with an identity. Scoping a statement or adapting
it otherwise keeps the identity, so it can still be traced to the transition
it came from.

## Main definitions

* `Message`: What a broadcast sends.
* `Statement`: The statements.
* `Operation`: A statement with identity.
* `Statement.render`: The text of a statement.
-/

namespace ActorCheck

/-- What a broadcast sends: a name within a namespace. -/
structure Message where
  space : Expr
  id : Expr
  deriving DecidableEq

namespace Message

/-- A message of the application. -/
def app (id : String) : Message := ⟨.str Builtin.appNamespace, .str id⟩

/-- The system's message that bootstrapping is over. -/
def bootstrapOver : Message :=
  ⟨.str Builtin.systemNamespace, .str Builtin.bootstrapOver⟩

/-- The text of a message. -/
def render (m : Message) : String := m.space.render ++ "/" ++ m.id.render

end Message

/-- The statements that label transitions. -/
inductive Statement where
  | epsilon
  | assume (condition : Expr)
  | declare (target : Variable)
  | store (target : Variable) (value : Expr)
  | call (method : String) (args : List Expr) (result : Option Variable)
  | ret (result : Option Variable)
  | beginAtomic
  | endAtomic
  /-- The named properties are violated. -/
  | signal (properties : Std.ExtTreeSet String)
  | broadcast (message : Message)
  | broadcastAndWait (message : Message)
  | waitUntil (condition : Expr)
  | waitSecs (seconds : Expr)
  | evaluate (expr : Expr)
  deriving DecidableEq

namespace Statement

/-- The text of a call without its target. -/
def renderCall (method : String) (args : List Expr) : String :=
  method ++ "(" ++ ", ".intercalate (args.map Expr.render) ++ ")"

/-- The text of a statement. -/
def render : Statement → String
  | .epsilon => "ε"
  | .assume e => "assume " ++ e.render
  | .declare v => "declare " ++ v.cellName
  | .store v e => v.cellName ++ " := " ++ e.render
  | .call method args none => renderCall method args
  | .call method args (some v) => v.cellName ++ " := " ++ renderCall method args
  | .ret none => "return"
  | .ret (some v) => "return " ++ v.cellName
  | .beginAtomic => "begin atomic"
  | .endAtomic => "end atomic"
  | .signal properties =>
    "signal target reached \x7b" ++ ", ".intercalate properties.toList ++ "\x7d"
  | .broadcast m => "broadcast " ++ m.render
  | .broadcastAndWait m => "broadcast " ++ m.render ++ " and wait"
  | .waitUntil e => "wait until " ++ e.render
  | .waitSecs e => "wait " ++ e.render ++ " seconds"
  | .evaluate e => e.render

end Statement

/-- A statement with identity. -/
structure Operation where
  id : OperationId
  statement : Statement
  deriving DecidableEq

/-- The operation that does nothing. -/
def Operation.epsilon : Operation := ⟨epsilonId, .epsilon⟩

/-- The operation is the one that does nothing, whatever its statement. -/
def Operation.isEpsilon (o : Operation) : Bool := o.id == epsilonId

end ActorCheck

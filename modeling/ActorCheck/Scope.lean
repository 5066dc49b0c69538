import ActorCheck.Program.Actor

/-!
# Scoping

Scripts name variables without saying where they live. Scoping decides it: a
variable that the actor declares lives with the actor, every other one in the
scope of the script or method that runs. A call evaluates its arguments in the
scope of the caller and stores them in that of the method, so reading and
writing may have different scopes.

An attribute of an actor is that actor's own variable. Which actor is meant is
known for the usher, for an actor located by a literal name, and for a
variable of actor type if somebody keeps track of those; any other expression
cannot be resolved before the program runs and is refused.

What scoping yields contains neither unqualified variables nor attributes, so
a second scoping has nothing left to do.

## Main definitions

* `ScopeError`: Why an actor cannot be resolved.
* `Scoping`: An actor, the scopes it reads and writes, and what is known about
  variables of actor type.
* `Scoping.expr`, `Scoping.statement`, `Scoping.operation`: The scoped forms.
-/

namespace ActorCheck

/-- Why the actor in an expression cannot be resolved. -/
inductive ScopeError where
  /-- Nobody knows which actor the variable refers to. -/
  | unresolvedActor (cell : String)
  /-- The expression does not determine an actor. -/
  | unsupportedActorExpr (expr : Expr)
  deriving DecidableEq

/-- A word for the cause of an error of scoping. -/
def ScopeError.kind : ScopeError → String
  | .unresolvedActor _ => "UnresolvedActor"
  | .unsupportedActorExpr _ => "UnsupportedActorExpr"

/-- The text of an error of scoping. -/
def ScopeError.message : ScopeError → String
  | .unresolvedActor cell => "cannot resolve the actor referenced by '" ++ cell ++ "'"
  | .unsupportedActorExpr expr => "unsupported actor expression '" ++ expr.render ++ "'"

/-- What decides where variables live. -/
structure Scoping where
  actor : Actor
  readScope : List String
  writeScope : List String
  /-- The actor that a variable of actor type refers to, as far as known. -/
  resolve : Variable → Option ActorName

namespace Scoping

/-- Reading and writing in one scope, without knowledge about actors. -/
def new (actor : Actor) (scope : List String) : Scoping :=
  ⟨actor, scope, scope, fun _ => none⟩

/-- The variable in the place where it lives: with the actor if the actor
    declares it, else in the given scope. -/
def place (s : Scoping) (scope : List String) (v : Variable) : Variable :=
  if v.isUnqualified then
    .within v.ident v.type (if s.actor.owns v.ident then [s.actor.name] else scope)
  else v

/-- A variable that is written. -/
def target (s : Scoping) (v : Variable) : Variable := s.place s.writeScope v

/-- A variable that is read. -/
def read (s : Scoping) (v : Variable) : Variable := s.place s.readScope v

/-- The actor that an expression denotes. -/
def actorOf (s : Scoping) (e : Expr) : Except ScopeError ActorName :=
  match e with
  | .usher => .ok s.actor.name
  | .locateActor (.str name) => .ok name
  | .var v =>
    if v.type = .actor then
      match s.resolve (s.read v) with
      | some name => .ok name
      | none => .error (.unresolvedActor (s.read v).cellName)
    else .error (.unsupportedActorExpr e)
  | _ => .error (.unsupportedActorExpr e)

/-- The scoped form of a variable or an attribute. Other expressions have none
    of their own. -/
def replacement (s : Scoping) : Expr → Except ScopeError (Option Expr)
  | .var v => .ok (some (.var (s.read v)))
  | .attributeOf a field type => do
    let owner ← s.actorOf a
    return some (.var (.within field type [owner]))
  | _ => .ok none

/-- An expression with every variable in its place. -/
def expr (s : Scoping) (e : Expr) : Except ScopeError Expr := e.replace s.replacement

/-- A message with every variable in its place. -/
def message (s : Scoping) (m : Message) : Except ScopeError Message := do
  return ⟨← s.expr m.space, ← s.expr m.id⟩

/-- A statement with every variable in its place. What a statement assigns to
    is written, what it returns is read. -/
def statement (s : Scoping) : Statement → Except ScopeError Statement
  | .epsilon => .ok .epsilon
  | .assume e => do return .assume (← s.expr e)
  | .declare v => .ok (.declare (s.target v))
  | .store v e => do return .store (s.target v) (← s.expr e)
  | .call method args result => do
    return .call method (← args.mapM s.expr) (result.map s.target)
  | .ret result => .ok (.ret (result.map s.read))
  | .beginAtomic => .ok .beginAtomic
  | .endAtomic => .ok .endAtomic
  | .signal properties => .ok (.signal properties)
  | .broadcast m => do return .broadcast (← s.message m)
  | .broadcastAndWait m => do return .broadcastAndWait (← s.message m)
  | .waitUntil e => do return .waitUntil (← s.expr e)
  | .waitSecs e => do return .waitSecs (← s.expr e)
  | .evaluate e => do return .evaluate (← s.expr e)

/-- An operation with every variable in its place, under the same identity. -/
def operation (s : Scoping) (o : Operation) : Except ScopeError Operation := do
  return ⟨o.id, ← s.statement o.statement⟩

end Scoping

end ActorCheck

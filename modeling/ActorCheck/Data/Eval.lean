import ActorCheck.AnalysisError
import ActorCheck.Data.Value

/-!
# Evaluation

The value of an expression in a store. Operands are evaluated from left to
right, and the type of an operand is checked before the next one is looked at.
A connective whose left side decides does not evaluate its right side.

Arithmetic happens on unbounded integers and is refused when its result does
not fit, so a value that is returned is the exact one. Equality accepts values
of any type; values of different types are different.

Expressions about actors have no value.

## Main definitions

* `Store.read`: The value of a variable.
* `Value.asInt`, `Value.asBool`: Values of a required type.
* `eval`: The value of an expression.
-/

namespace ActorCheck

/-- The value of a variable: what its cell holds, or the default of its
    type. -/
def Store.read (s : Store) (v : Variable) : Except AnalysisError Value :=
  match s[v.cellName]?.or (Value.default? v.type) with
  | some value => .ok value
  | none => .error (.unsupported (.actorVariable v))

/-- The integer that an expression evaluated to. -/
def Value.asInt (source : Expr) : Value → Except AnalysisError Int64
  | .int n => .ok n
  | _ => .error (.unsupported (.illTyped source))

/-- The truth value that an expression evaluated to. -/
def Value.asBool (source : Expr) : Value → Except AnalysisError Bool
  | .bool b => .ok b
  | _ => .error (.unsupported (.illTyped source))

/-- The result of an arithmetic expression, if it fits. -/
def arithResult (source : Expr) (op : ArithOp) (m n : Int64) : Except AnalysisError Value :=
  match toInt64? (op.apply m.toInt n.toInt) with
  | some r => .ok (.int r)
  | none => .error (.unsupported (.overflow source))

/-- The value of an expression in a store. -/
def eval (s : Store) (e : Expr) : Except AnalysisError Value :=
  match e with
  | .num n => .ok (.int n)
  | .bool b => .ok (.bool b)
  | .str t => .ok (.str t)
  | .var v => s.read v
  | .arith op a b => do
    let m ← (← eval s a).asInt a
    let n ← (← eval s b).asInt b
    arithResult e op m n
  | .cmp .eq a b => do
    let x ← eval s a
    let y ← eval s b
    return .bool (x == y)
  | .cmp op a b => do
    let m ← (← eval s a).asInt a
    let n ← (← eval s b).asInt b
    return .bool (op.holds m.toInt n.toInt)
  | .and a b => do
    if ← (← eval s a).asBool a then return .bool (← (← eval s b).asBool b)
    else return .bool false
  | .or a b => do
    if ← (← eval s a).asBool a then return .bool true
    else return .bool (← (← eval s b).asBool b)
  | .not a => do return .bool (!(← (← eval s a).asBool a))
  | .attributeOf _ _ _ => .error (.unsupported (.actorExpr e))
  | .locateActor _ => .error (.unsupported (.actorExpr e))
  | .startClone _ => .error (.unsupported (.actorExpr e))
  | .usher => .error (.unsupported (.actorExpr e))

end ActorCheck

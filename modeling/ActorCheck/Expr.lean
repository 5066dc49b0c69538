import ActorCheck.Ident
import ActorCheck.Operator
import ActorCheck.Text.Quoted
import Std.Data.ExtTreeMap

/-!
# Variables and Expressions

The expressions that scripts compute with. A variable is a name together with
the place it lives in. As written in a script it is unqualified; scoping turns
it into one that belongs to a stack of scopes, outermost first, or to the
whole program.

The name under which a variable is stored is its place followed by its own
name. Two variables share a cell exactly when these texts agree.

Actors occur in expressions only to be asked for an attribute, to be located by
name or to be cloned. The actor that runs a script calls itself the usher.

## Main definitions

* `DataType`: The types of data.
* `Variable`: A typed data location.
* `Variable.cellName`: The name under which a variable is stored.
* `Expr`: Expressions.
* `Expr.replace`: Replace subexpressions from the outside in, in a monad.
* `Expr.mapVariables`: Replace every variable.
* `Expr.render`: The text of an expression.
-/

namespace ActorCheck

/-- The types of data. -/
inductive DataType where
  | number
  | boolean
  | string
  | actor
  deriving DecidableEq

/-- All types. -/
def DataType.all : List DataType := [.number, .boolean, .string, .actor]

/-- The name of a type. -/
def DataType.name : DataType → String
  | .number => "Number"
  | .boolean => "Boolean"
  | .string => "String"
  | .actor => "Actor"

/-- The place of a type in the order of types. -/
def DataType.rank : DataType → Nat
  | .number => 0
  | .boolean => 1
  | .string => 2
  | .actor => 3

/-- Where a variable lives. -/
inductive Qualifier where
  /-- Not yet resolved against an actor and a script. -/
  | unqualified
  /-- Shared by all actors. -/
  | global
  /-- In a stack of scopes, outermost first. -/
  | within (scopes : List String)
  deriving DecidableEq

/-- A qualifier as a value of ordered types: first by kind, then by scopes. -/
def Qualifier.orderKey : Qualifier → Nat × List String
  | .unqualified => (0, [])
  | .global => (1, [])
  | .within scopes => (2, scopes)

/-- A typed data location. -/
structure Variable where
  ident : String
  type : DataType
  qualifier : Qualifier
  deriving DecidableEq

namespace Variable

/-- The variable is not resolved yet. -/
def isUnqualified (v : Variable) : Bool := v.qualifier == .unqualified

/-- A variable in a stack of scopes. -/
def within (ident : String) (type : DataType) (scopes : List String) : Variable :=
  ⟨ident, type, .within scopes⟩

/-- A variable shared by all actors. -/
def global (ident : String) (type : DataType) : Variable :=
  ⟨ident, type, .global⟩

/-- The name under which a variable is stored, for instance
    `Sprite1::main::x`. -/
def cellName (v : Variable) : String :=
  match v.qualifier with
  | .unqualified => v.ident
  | .global => v.ident
  | .within scopes => "::".intercalate scopes ++ "::" ++ v.ident

/-- Variables are ordered by name, then type, then place. -/
def order (v w : Variable) : Ordering :=
  compareLex (compareOn ident)
    (compareLex (compareOn fun v => v.type.rank)
      (compareLex (compareOn fun v => v.qualifier.orderKey.1)
        (compareOn fun v => v.qualifier.orderKey.2))) v w

instance : Ord Variable := ⟨order⟩

instance : Std.TransOrd Variable :=
  inferInstanceAs (Std.TransCmp (compareLex (compareOn ident)
    (compareLex (compareOn fun v : Variable => v.type.rank)
      (compareLex (compareOn fun v : Variable => v.qualifier.orderKey.1)
        (compareOn fun v : Variable => v.qualifier.orderKey.2)))))

/-- Types of equal rank are equal. -/
theorem eq_of_rank_eq (s t : DataType) (h : s.rank = t.rank) : s = t := by
  cases s <;> cases t <;> first | rfl | exact absurd h (by decide)

/-- Qualifiers of equal kind and scopes are equal. -/
theorem eq_of_orderKey_eq (p q : Qualifier) (h1 : p.orderKey.1 = q.orderKey.1)
    (h2 : p.orderKey.2 = q.orderKey.2) : p = q := by
  cases p <;> cases q <;> simp_all [Qualifier.orderKey]

instance : Std.LawfulEqOrd Variable where
  eq_of_compare := by
    intro v w h
    change order v w = .eq at h
    simp only [order, compareLex_eq_eq, compareOn, Std.LawfulEqCmp.compare_eq_iff_eq] at h
    obtain ⟨hi, ht, hk, hs⟩ := h
    cases v
    cases w
    simp only [Variable.mk.injEq]
    exact ⟨hi, eq_of_rank_eq _ _ ht, eq_of_orderKey_eq _ _ hk hs⟩

end Variable

/-- Expressions of scripts. -/
inductive Expr where
  | num (value : Int64)
  | bool (value : Bool)
  | str (value : String)
  | var (v : Variable)
  | arith (op : ArithOp) (left right : Expr)
  | cmp (op : Comparison) (left right : Expr)
  | and (left right : Expr)
  | or (left right : Expr)
  | not (operand : Expr)
  /-- An attribute of the actor that an expression denotes. -/
  | attributeOf (actor : Expr) (field : String) (type : DataType)
  /-- The actor with a name. -/
  | locateActor (name : Expr)
  /-- A new clone of an actor. -/
  | startClone (actor : Expr)
  /-- The actor that runs the script. -/
  | usher
  deriving DecidableEq, Inhabited

namespace Expr

/-- The text of a literal string. -/
def asString? : Expr → Option String
  | .str s => some s
  | _ => none

section Replace

variable {m : Type → Type} [Monad m]

/-- Replace from the outside in. What `f` gives a replacement for is not entered;
    elsewhere the parts of the expression are treated from left to right. -/
def replace (f : Expr → m (Option Expr)) (e : Expr) : m Expr := do
  match ← f e with
  | some replacement => return replacement
  | none =>
    match e with
    | .num n => return .num n
    | .bool b => return .bool b
    | .str s => return .str s
    | .var v => return .var v
    | .arith o a b => return .arith o (← replace f a) (← replace f b)
    | .cmp o a b => return .cmp o (← replace f a) (← replace f b)
    | .and a b => return .and (← replace f a) (← replace f b)
    | .or a b => return .or (← replace f a) (← replace f b)
    | .not a => return .not (← replace f a)
    | .attributeOf a field type => return .attributeOf (← replace f a) field type
    | .locateActor a => return .locateActor (← replace f a)
    | .startClone a => return .startClone (← replace f a)
    | .usher => return .usher

/-- Replace every variable by an expression. -/
def mapVariables (f : Variable → m Expr) (e : Expr) : m Expr :=
  e.replace fun e =>
    match e with
    | .var v => do return some (← f v)
    | _ => return none

end Replace

/-- A binary expression between parentheses. -/
def renderBinary (left operator right : String) : String :=
  "(" ++ left ++ " " ++ operator ++ " " ++ right ++ ")"

/-- The text of an expression. -/
def render : Expr → String
  | .num n => toString n.toInt
  | .bool b => if b then "true" else "false"
  | .str s => quote s
  | .var v => v.cellName
  | .arith o a b => renderBinary a.render o.symbol b.render
  | .cmp o a b => renderBinary a.render o.symbol b.render
  | .and a b => renderBinary a.render "and" b.render
  | .or a b => renderBinary a.render "or" b.render
  | .not a => "(not " ++ a.render ++ ")"
  | .attributeOf a field _ => "attribute " ++ field ++ " of " ++ a.render
  | .locateActor a => "locate actor " ++ a.render
  | .startClone a => "start clone of " ++ a.render
  | .usher => "usher"

end Expr

end ActorCheck

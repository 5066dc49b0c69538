import ActorCheck.Operator
import Std.Data.ExtTreeSet

/-!
# First-Order Terms

The formulas that describe traces: integer arithmetic over 64-bit literals,
comparisons, and boolean structure. A term carries no sorts. Whether a
variable is an integer or a truth value follows from where it stands, which
is `Term.Sort`'s business.

Literals are 64-bit because every literal comes from a program whose integers
are. Their meaning is the unbounded integer they denote, so a sum of two
literals never wraps here; it is a term, not a machine addition.

Conjunction and disjunction take any number of operands, so the type is
nested through `List` and each function on it comes with a companion on lists.
That is also why equality is decided by hand: `beq` compares the two trees
structurally and `beq_iff` says that this is equality.

`traverse` is the one way to change variables. It visits them from left to
right in an arbitrary monad, so a renaming that can fail stops at the first
variable it refuses.

## Main definitions

* `Term`: Formulas and integer expressions.
* `vars`: The names of all variables in a term.
* `traverse`: Replace every variable, left to right, in a monad.
* `rename`: Replace every variable by a function.

## Theorems

* `beq_iff`: Structural comparison decides equality.
-/

namespace ActorCheck

/-- First-order terms over integers and truth values. -/
inductive Term where
  | var (name : String)
  | int (value : Int64)
  | bool (value : Bool)
  | arith (op : ArithOp) (left right : Term)
  | cmp (op : Comparison) (left right : Term)
  | conj (operands : List Term)
  | disj (operands : List Term)
  | not (operand : Term)
  | implies (left right : Term)
  | ite (condition thenTerm elseTerm : Term)
  deriving Inhabited

namespace Term

mutual

/-- Structural comparison of two terms. -/
def beq : Term → Term → Bool
  | .var x, .var y => x == y
  | .int m, .int n => m == n
  | .bool b, .bool c => b == c
  | .arith o a b, .arith o' a' b' => o == o' && a.beq a' && b.beq b'
  | .cmp o a b, .cmp o' a' b' => o == o' && a.beq a' && b.beq b'
  | .conj ts, .conj us => beqAll ts us
  | .disj ts, .disj us => beqAll ts us
  | .not a, .not a' => a.beq a'
  | .implies a b, .implies a' b' => a.beq a' && b.beq b'
  | .ite a b c, .ite a' b' c' => a.beq a' && b.beq b' && c.beq c'
  | _, _ => false

/-- Structural comparison of two lists of terms. -/
def beqAll : List Term → List Term → Bool
  | [], [] => true
  | t :: ts, u :: us => t.beq u && beqAll ts us
  | _, _ => false

end

mutual

/-- Structural comparison decides equality. -/
theorem beq_iff (a b : Term) : a.beq b = true ↔ a = b := by
  cases a <;> cases b <;>
    simp [beq, beq_iff, beqAll_iff, and_assoc]

/-- Structural comparison decides equality of lists. -/
theorem beqAll_iff (as bs : List Term) : beqAll as bs = true ↔ as = bs := by
  cases as <;> cases bs <;> simp [beqAll, beq_iff, beqAll_iff]

end

instance : DecidableEq Term := fun a b => decidable_of_iff (a.beq b = true) (beq_iff a b)

/-- The term is the literal `true`. -/
def isTrue (t : Term) : Bool := t == .bool true

/-- The term is the literal `false`. -/
def isFalse (t : Term) : Bool := t == .bool false

mutual

/-- The names of all variables that occur in a term. -/
def vars : Term → Std.ExtTreeSet String
  | .var x => {x}
  | .int _ => ∅
  | .bool _ => ∅
  | .arith _ a b => a.vars ∪ b.vars
  | .cmp _ a b => a.vars ∪ b.vars
  | .conj ts => varsAll ts
  | .disj ts => varsAll ts
  | .not a => a.vars
  | .implies a b => a.vars ∪ b.vars
  | .ite a b c => a.vars ∪ b.vars ∪ c.vars

/-- The names of all variables that occur in a list of terms. -/
def varsAll : List Term → Std.ExtTreeSet String
  | [] => ∅
  | t :: ts => t.vars ∪ varsAll ts

end

section Traverse

variable {m : Type → Type} [Monad m]

mutual

/-- Replace every variable name by `f`, from left to right. In a monad with
    failure the first failing name decides, and no later name is visited. -/
def traverse (f : String → m String) : Term → m Term
  | .var x => do return .var (← f x)
  | .int n => pure (.int n)
  | .bool b => pure (.bool b)
  | .arith o a b => do return .arith o (← a.traverse f) (← b.traverse f)
  | .cmp o a b => do return .cmp o (← a.traverse f) (← b.traverse f)
  | .conj ts => do return .conj (← traverseAll f ts)
  | .disj ts => do return .disj (← traverseAll f ts)
  | .not a => do return .not (← a.traverse f)
  | .implies a b => do return .implies (← a.traverse f) (← b.traverse f)
  | .ite a b c => do return .ite (← a.traverse f) (← b.traverse f) (← c.traverse f)

/-- Replace the variables of a list of terms, from left to right. -/
def traverseAll (f : String → m String) : List Term → m (List Term)
  | [] => pure []
  | t :: ts => do return (← t.traverse f) :: (← traverseAll f ts)

end

end Traverse

/-- Replace every variable name by `f`. -/
def rename (f : String → String) (t : Term) : Term :=
  Id.run (t.traverse f)

end Term

end ActorCheck

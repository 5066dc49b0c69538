import ActorCheck.Solver.Bounds
import ActorCheck.Term.Conjunction
import Std.Data.ExtTreeMap

/-!
# Constraints on Independent Variables

Within the fragment of bound literals no literal relates two variables, so a
conjunction splits into one constraint per variable: bounds for the variables
that are compared, a truth value for those used as formulas. It holds for some
assignment exactly when no constraint is empty and no contradiction was met on
the way.

For the same reason the strongest consequence on a set of variables is the
conjunction of their constraints. `project` writes it as one formula.

A variable used both as a formula and in a comparison has no sort, so it is an
error rather than a contradiction.

## Main definitions

* `Constraints`: The constraint of every variable of a conjunction.
* `Constraints.add`: Intersect with one literal.
* `Constraints.ofTerms`: The constraints of a list of formulas.
* `Constraints.isSat`: Some assignment satisfies them.
* `Constraints.project`: The constraints on some of the variables as a formula.
-/

namespace ActorCheck

/-- The constraint of every variable of a conjunction of literals. -/
structure Constraints where
  bounds : Std.ExtTreeMap String Bounds
  truths : Std.ExtTreeMap String Bool
  /-- A contradiction that is not visible in the constraint of one variable. -/
  conflict : Bool

namespace Constraints

/-- The constraints of the empty conjunction. -/
def empty : Constraints := ⟨∅, ∅, false⟩

/-- Intersect with a comparison. -/
def addBound (c : Constraints) (var : String) (rel : BoundRel) (value : Int64) :
    Except IntervalError Constraints :=
  if var ∈ c.truths then .error (.sortMismatch var)
  else
    let narrowed := (c.bounds.getD var Bounds.full).restrict rel value.toInt
    .ok { c with bounds := c.bounds.insert var narrowed }

/-- Intersect with a variable used as a formula. The first truth value of a
    variable stays; a different one is a contradiction. -/
def addTruth (c : Constraints) (var : String) (value : Bool) :
    Except IntervalError Constraints :=
  if var ∈ c.bounds then .error (.sortMismatch var)
  else
    match c.truths[var]? with
    | some known => .ok (if known = value then c else { c with conflict := true })
    | none => .ok { c with truths := c.truths.insert var value }

/-- Intersect with one literal. -/
def add (c : Constraints) : Literal → Except IntervalError Constraints
  | .const true => .ok c
  | .const false => .ok { c with conflict := true }
  | .bound var rel value => c.addBound var rel value
  | .truth var value => c.addTruth var value

/-- Intersect with a list of literals, in order. -/
def addAll : Constraints → List Literal → Except IntervalError Constraints
  | c, [] => .ok c
  | c, literal :: rest => do addAll (← c.add literal) rest

/-- Intersect with a list of formulas, in order. -/
def addTerms : Constraints → List Term → Except IntervalError Constraints
  | c, [] => .ok c
  | c, t :: ts => do addTerms (← c.addAll (← literalsOf true t)) ts

/-- Some assignment satisfies the constraints. -/
def isSat (c : Constraints) : Bool :=
  !c.conflict && c.bounds.toList.all fun (_, b) => b.tighten.isSome

/-- The variables that occur in the constraints. -/
def vars (c : Constraints) : Std.ExtTreeSet String :=
  Std.ExtTreeSet.ofList (c.bounds.keys ++ c.truths.keys)

/-- The formula that a variable has a truth value. -/
def truthLiteral (var : String) (value : Bool) : Term :=
  if value then .var var else .not (.var var)

/-- The bounds of the shared variables as formulas, or `none` if one of them
    has no value left. -/
def sharedBounds (shared : Std.ExtTreeSet String) :
    List (String × Bounds) → Option (List Term)
  | [] => some []
  | (var, b) :: rest =>
    if var ∈ shared then do return (← b.literals var) ++ (← sharedBounds shared rest)
    else sharedBounds shared rest

/-- The conjunction of the constraints on shared variables, in the order of
    names, bounds before truth values. -/
def project (c : Constraints) (shared : Std.ExtTreeSet String) : Term :=
  match sharedBounds shared c.bounds.toList with
  | none => .bool false
  | some bounds =>
    let truths := c.truths.toList.filter fun (var, _) => shared.contains var
    Term.conjOf (bounds ++ truths.map fun (var, value) => truthLiteral var value)

end Constraints

/-- The constraints of a list of formulas. -/
def Constraints.ofTerms (terms : List Term) : Except IntervalError Constraints :=
  Constraints.empty.addTerms terms

end ActorCheck

import ActorCheck.Term.Printer

/-!
# Bound Literals

The fragment that interval reasoning decides: conjunctions, nested at will, of
comparisons between a variable and a literal, of variables used as formulas,
of constants, and of negations of all these. `literalsOf` turns such a formula
into a list of literals that holds exactly when the formula does.

A polarity travels down instead of negations travelling up. Under a negation a
disjunction is a conjunction of negations, so it is accepted there and refused
elsewhere, and a conjunction the other way round. Either connective with fewer
than two operands is no choice at all and is accepted in both polarities.

## Main definitions

* `BoundRel`: The relations of a variable to a literal.
* `Literal`: The literals of the fragment.
* `literalsOf`: The literals of a formula, if it is in the fragment.
-/

namespace ActorCheck

/-- Why interval reasoning refuses a call. -/
inductive IntervalError where
  /-- A formula outside the fragment; the part that is to blame. -/
  | unsupportedTerm (term : Term)
  /-- No scope is open. -/
  | scopeUnderflow
  /-- A reference is given back that nobody holds. -/
  | refCountUnderflow (term : Term)
  /-- The last check found no contradiction, or something has changed since. -/
  | noUnsatProof
  /-- A variable is used as a formula and as an integer. -/
  | sortMismatch (var : String)
  deriving DecidableEq

/-- A word for the cause of an error of interval reasoning. -/
def IntervalError.kind : IntervalError → String
  | .unsupportedTerm _ => "UnsupportedTerm"
  | .scopeUnderflow => "ScopeUnderflow"
  | .refCountUnderflow _ => "RefCountUnderflow"
  | .noUnsatProof => "NoUnsatProof"
  | .sortMismatch _ => "SortMismatch"

/-- The text of an error of interval reasoning. -/
def IntervalError.message : IntervalError → String
  | .unsupportedTerm term => "term outside the bound-literal fragment: " ++ term.render
  | .scopeUnderflow => "pop without a matching push"
  | .refCountUnderflow term => "reference count of " ++ term.render ++ " dropped below zero"
  | .noUnsatProof => "interpolants requested without a preceding unsat check"
  | .sortMismatch var => "variable '" ++ var ++ "' is used both as Bool and as Int"

/-- The relations of a variable to a literal. -/
inductive BoundRel where
  | eq
  | ne
  | lt
  | le
  | gt
  | ge
  deriving DecidableEq

namespace BoundRel

/-- The relation that a comparison asserts. -/
def ofComparison : Comparison → BoundRel
  | .eq => .eq
  | .lt => .lt
  | .le => .le
  | .gt => .gt
  | .ge => .ge

/-- The complement of a relation. -/
def negate : BoundRel → BoundRel
  | .eq => .ne
  | .ne => .eq
  | .lt => .ge
  | .le => .gt
  | .gt => .le
  | .ge => .lt

/-- The converse of a relation: how the right side relates to the left. -/
def converse : BoundRel → BoundRel
  | .eq => .eq
  | .ne => .ne
  | .lt => .gt
  | .le => .ge
  | .gt => .lt
  | .ge => .le

end BoundRel

/-- The literals of the fragment. -/
inductive Literal where
  | bound (var : String) (rel : BoundRel) (value : Int64)
  | truth (var : String) (value : Bool)
  | const (value : Bool)
  deriving DecidableEq

/-- The literal of a comparison between two terms under a polarity, if one
    side is a variable and the other a literal. -/
def Literal.ofComparison? (positive : Bool) (op : Comparison) (left right : Term) :
    Option Literal :=
  let oriented (rel : BoundRel) := if positive then rel else rel.negate
  match left, right with
  | .var x, .int n => some (.bound x (oriented (.ofComparison op)) n)
  | .int n, .var x => some (.bound x (oriented (BoundRel.ofComparison op).converse) n)
  | _, _ => none

mutual

/-- The literals of a formula under a polarity. The error names the first part
    that is outside the fragment. -/
def literalsOf (positive : Bool) (t : Term) : Except IntervalError (List Literal) :=
  match t with
  | .bool b => .ok [.const (b == positive)]
  | .var x => .ok [.truth x positive]
  | .not a => literalsOf (!positive) a
  | .conj ts =>
    match positive, ts with
    | true, ts => literalsOfAll true ts
    | false, [] => .ok [.const false]
    | false, [a] => literalsOf false a
    | false, _ => .error (.unsupportedTerm t)
  | .disj ts =>
    match positive, ts with
    | false, ts => literalsOfAll false ts
    | true, [] => .ok [.const false]
    | true, [a] => literalsOf true a
    | true, _ => .error (.unsupportedTerm t)
  | .cmp op a b =>
    match Literal.ofComparison? positive op a b with
    | some literal => .ok [literal]
    | none => .error (.unsupportedTerm t)
  | .int _ => .error (.unsupportedTerm t)
  | .arith _ _ _ => .error (.unsupportedTerm t)
  | .implies _ _ => .error (.unsupportedTerm t)
  | .ite _ _ _ => .error (.unsupportedTerm t)

/-- The literals of a list of formulas under one polarity, in order. -/
def literalsOfAll (positive : Bool) : List Term → Except IntervalError (List Literal)
  | [] => .ok []
  | t :: ts => do return (← literalsOf positive t) ++ (← literalsOfAll positive ts)

end

end ActorCheck

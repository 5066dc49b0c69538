import ActorCheck.Term.Basic
import Std.Data.ExtTreeMap

/-!
# Sorts of Variables

A term does not say which of its variables are integers and which are truth
values; a script that declares them has to. The sort follows from position:
an operand of arithmetic or of an order comparison is an integer, an operand
of a connective or a whole formula is a truth value. Only equality and the
branches of a conditional leave it open, and there the sort of one side is
the sort of the other.

Inference is one walk that fills a table. The first sort found for a variable
stays. A walk visits the formulas in order, so an equality between two
variables that is met before either is known teaches nothing; a second walk
settles those whose sides became known later in the first. What is still open
after two walks is an integer.

## Main definitions

* `TermSort`: The two sorts.
* `Sorts`: The sorts found so far.
* `sort?`: The sort of a term, as far as its shape and a table tell.
* `Sorts.visit`: Record what one term in one position tells.
* `sortsOf`: The sort of every variable of a list of formulas.
-/

namespace ActorCheck

/-- The sorts of terms. -/
inductive TermSort where
  | bool
  | int
  deriving DecidableEq

/-- The name of a sort. -/
def TermSort.render : TermSort → String
  | .bool => "Bool"
  | .int => "Int"

/-- The sorts of variables found so far. -/
abbrev Sorts : Type := Std.ExtTreeMap String TermSort

namespace Term

/-- The sort of a term as far as its shape and the table tell. A conditional
    has the sort of its first branch that has one. -/
def sort? (sorts : Sorts) : Term → Option TermSort
  | .var x => sorts[x]?
  | .int _ => some .int
  | .bool _ => some .bool
  | .arith _ _ _ => some .int
  | .cmp _ _ _ => some .bool
  | .conj _ => some .bool
  | .disj _ => some .bool
  | .not _ => some .bool
  | .implies _ _ => some .bool
  | .ite _ a b => (sort? sorts a).or (sort? sorts b)

end Term

namespace Sorts

mutual

/-- Record the sorts of the variables of a term that stands where `expected`
    is expected. A variable that already has a sort keeps it. -/
def visit : Term → Option TermSort → Sorts → Sorts
  | .var x, expected, sorts =>
    match expected with
    | some sort => sorts.insertIfNew x sort
    | none => sorts
  | .int _, _, sorts => sorts
  | .bool _, _, sorts => sorts
  | .arith _ a b, _, sorts => visit b (some .int) (visit a (some .int) sorts)
  | .cmp .eq a b, _, sorts =>
    -- One side tells the sort of both, as known before either is visited.
    let side := (a.sort? sorts).or (b.sort? sorts)
    visit b side (visit a side sorts)
  | .cmp _ a b, _, sorts => visit b (some .int) (visit a (some .int) sorts)
  | .conj ts, _, sorts => visitAll ts sorts
  | .disj ts, _, sorts => visitAll ts sorts
  | .not a, _, sorts => visit a (some .bool) sorts
  | .implies a b, _, sorts => visit b (some .bool) (visit a (some .bool) sorts)
  | .ite a b c, expected, sorts =>
    let sorts := visit a (some .bool) sorts
    let branch := expected.or ((b.sort? sorts).or (c.sort? sorts))
    visit c branch (visit b branch sorts)

/-- Record the sorts of the variables of formulas, in order. -/
def visitAll : List Term → Sorts → Sorts
  | [], sorts => sorts
  | t :: ts, sorts => visitAll ts (visit t (some .bool) sorts)

end

/-- Give every variable of the terms that has no sort yet the sort `int`. -/
def complete (terms : List Term) (sorts : Sorts) : Sorts :=
  (Term.varsAll terms).foldl (fun known x => known.insertIfNew x .int) sorts

end Sorts

/-- The sort of every variable of a list of formulas: two walks over all of
    them, then integers for what stayed open. -/
def sortsOf (blocks : List Term) : Sorts :=
  Sorts.complete blocks (Sorts.visitAll blocks (Sorts.visitAll blocks ∅))

end ActorCheck

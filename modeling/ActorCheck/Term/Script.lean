import ActorCheck.Term.Printer
import ActorCheck.Term.Sort

/-!
# Solver Scripts

A list of formulas as a complete input for a solver: a declaration for every
variable in the order of names, an assertion for every formula in the order
given, and the request to check. Every line ends in a line feed.

## Main definitions

* `declaration`: The line that declares a variable.
* `assertion`: The line that asserts a formula.
* `script`: The whole text.
-/

namespace ActorCheck

namespace Term

/-- The line that declares a variable of a sort. -/
def declaration (name : String) (sort : TermSort) : String :=
  application "declare-const" [symbol name, sort.render] ++ "\n"

/-- The line that asserts a formula. -/
def assertion (t : Term) : String :=
  application "assert" [t.render] ++ "\n"

/-- The script that asserts all formulas and asks whether they can hold
    together. -/
def script (blocks : List Term) : String :=
  String.join ((sortsOf blocks).toList.map fun (name, sort) => declaration name sort)
    ++ String.join (blocks.map assertion)
    ++ "(check-sat)\n"

end Term

end ActorCheck

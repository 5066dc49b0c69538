import ActorCheck.Term.Basic

/-!
# Simplifying Conjunction

The conjunction of formulas as traces build it: operands that are `true`
disappear, an operand that is `false` decides, and a conjunction among the
operands contributes its own operands instead of itself. Only one level is
opened; what lies deeper stays as it is.

## Main definitions

* `conjuncts`: What one operand contributes.
* `Term.conjOf`: A list of conjuncts as one term.
* `Term.and`: The simplifying conjunction.
-/

namespace ActorCheck

namespace Term

/-- The conjuncts that an operand contributes before `true` is dropped. -/
def conjuncts : Term → List Term
  | .conj ts => ts
  | t => [t]

/-- A list of conjuncts as one term: `true` if there is none, the conjunct
    itself if there is one. -/
def conjOf : List Term → Term
  | [] => .bool true
  | [t] => t
  | ts => .conj ts

/-- The conjunction of formulas, without units and opened by one level. -/
def and (formulas : List Term) : Term :=
  let parts := formulas.flatMap conjuncts
  if parts.any isFalse then .bool false else conjOf (parts.filter fun t => !t.isTrue)

end Term

end ActorCheck

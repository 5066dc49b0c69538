import ActorCheck.Term.Printer

/-!
# Precision

The predicates that abstraction keeps track of. A precision is a set, ordered
by inclusion, and joining two of them is their union. Yet the members keep the
order in which they were learned, so that abstraction does the same work in
every run; joining appends what is new and leaves the rest where it is.

## Main definitions

* `Role`: Where a predicate is tracked.
* `Precision`: Predicates in the order of learning.
* `Precision.join`: Union.
* `Precision.le`: Inclusion.
-/

namespace ActorCheck

/-- Where a predicate is meant to be tracked. -/
inductive Role where
  | everywhere
  /-- Learned at a cut of an infeasible trace. -/
  | intermediate
  | locally
  deriving DecidableEq

/-- All roles. -/
def Role.all : List Role := [.everywhere, .intermediate, .locally]

/-- The name of a role. -/
def Role.render : Role → String
  | .everywhere => "Global"
  | .intermediate => "Intermediate"
  | .locally => "Local"

/-- A predicate together with its role. -/
abbrev Predicate : Type := Term × Role

/-- A set of predicates in the order in which they were learned. -/
structure Precision where
  predicates : List Predicate
  deriving DecidableEq

namespace Precision

/-- The precision without predicates. -/
def bottom : Precision := ⟨[]⟩

/-- A predicate is tracked. -/
def contains (p : Precision) (predicate : Predicate) : Bool := p.predicates.contains predicate

/-- Learn a predicate, unless it is known. -/
def learn (p : Precision) (predicate : Predicate) : Precision :=
  if p.contains predicate then p else ⟨p.predicates ++ [predicate]⟩

/-- Learn predicates one by one. -/
def learnAll (p : Precision) (predicates : List Predicate) : Precision :=
  predicates.foldl learn p

/-- The precision of a list of terms in one role. -/
def ofTerms (terms : List Term) (role : Role) : Precision :=
  bottom.learnAll (terms.map fun t => (t, role))

/-- The union of two precisions. What both have stays where the first has
    it. -/
def join (p q : Precision) : Precision := p.learnAll q.predicates

/-- Every predicate of `p` is one of `q`. -/
def le (p q : Precision) : Bool := p.predicates.all q.contains

/-- Two precisions track the same predicates, in whatever order. -/
def equal (p q : Precision) : Bool := p.le q && q.le p

/-- The text of a precision. -/
def render (p : Precision) : String :=
  "\x7b" ++ ", ".intercalate (p.predicates.map fun (t, role) =>
    t.render ++ " [" ++ role.render ++ "]") ++ "\x7d"

end Precision

end ActorCheck

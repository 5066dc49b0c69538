import ActorCheck.AnalysisError

/-!
# Sets of Explored States

A set of states that remembers in which order they were inserted. The oldest
one is taken out first, so used as a frontier it explores breadth first.

## Main definitions

* `StateSet`: A set in the order of insertion.
* `StateSet.insert`, `StateSet.remove`, `StateSet.pop`: Its operations.
-/

namespace ActorCheck

/-- A set of states in the order of insertion. -/
structure StateSet where
  states : List StateId
  distinct : states.Nodup
  deriving DecidableEq

namespace StateSet

/-- The empty set. -/
def empty : StateSet := ⟨[], .nil⟩

/-- A state is a member. -/
def contains (s : StateSet) (x : StateId) : Bool := s.states.contains x

/-- Insert a state behind the others, unless it is a member. -/
def insert (s : StateSet) (x : StateId) : StateSet :=
  if h : x ∈ s.states then s
  else ⟨s.states ++ [x], List.nodup_append.mpr ⟨s.distinct, List.pairwise_singleton _ x,
    fun _ hy _ hx heq => h (List.mem_singleton.mp hx ▸ heq ▸ hy)⟩⟩

/-- The set of a list of states, in their order. -/
def ofList (xs : List StateId) : StateSet := xs.foldl insert empty

/-- Remove a state. -/
def remove (s : StateSet) (x : StateId) : StateSet := ⟨s.states.erase x, s.distinct.erase x⟩

/-- The oldest state and the set without it. -/
def pop? (s : StateSet) : Option (StateId × StateSet) :=
  match s with
  | ⟨[], _⟩ => none
  | ⟨x :: xs, distinct⟩ => some (x, ⟨xs, distinct.tail⟩)

end StateSet

end ActorCheck

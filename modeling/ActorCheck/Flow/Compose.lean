import ActorCheck.Flow.Basic

/-!
# Composition of Flows

Flows are put together by sharing locations, never by renaming them. Whoever
composes two flows sees to it that their locations are disjoint and that a
location given as new is new; the flows that result are then the sequence, the
choice and the extensions of their arguments.

The joints do nothing. They are edges labelled with the empty operation, which
`Flow.removeEpsilons` removes when they are in the way.

## Main definitions

* `Flow.concat`: One flow after the other.
* `Flow.append`: An operation after a flow.
* `Flow.prepend`: An operation before a flow.
* `Flow.branch`: A choice between two flows.
-/

namespace ActorCheck

namespace Flow

/-- The edges with one operation from every source to every target. -/
def joints (sources targets : LocationSet) (op : OperationId) : List Edge :=
  sources.toList.flatMap fun s => targets.toList.map fun t => ⟨s, t, op⟩

/-- A set of edges and a list of further ones. -/
def withEdges (edges : EdgeSet) (more : List Edge) : EdgeSet :=
  edges ∪ Std.ExtTreeSet.ofList more

/-- First `a`, then `b`. -/
def concat (a b : Flow) : Flow where
  locations := a.locations ∪ b.locations
  entries := a.entries
  exits := b.exits
  edges := withEdges (a.edges ∪ b.edges) (joints a.exits b.entries epsilonId)

/-- First `g`, then an operation on the way to the new location `goto`. A flow
    without exits keeps none, since nothing leads to `goto`. -/
def append (g : Flow) (op : OperationId) (goto : LocationId) : Flow where
  locations := g.locations.insert goto
  entries := g.entries
  exits := if g.exits.isEmpty then ∅ else {goto}
  edges := withEdges g.edges (joints g.exits {goto} op)

/-- First an operation on the way from the new location `start`, then `g`. -/
def prepend (start : LocationId) (op : OperationId) (g : Flow) : Flow where
  locations := g.locations.insert start
  entries := {start}
  exits := g.exits
  edges := withEdges g.edges (joints {start} g.entries op)

/-- Either `a` or `b`, between the new locations `entry` and `exit`. -/
def branch (a b : Flow) (entry exit : LocationId) : Flow where
  locations := ((a.locations ∪ b.locations).insert entry).insert exit
  entries := {entry}
  exits := {exit}
  edges :=
    withEdges (a.edges ∪ b.edges)
      (joints {entry} (a.entries ∪ b.entries) epsilonId
        ++ joints (a.exits ∪ b.exits) {exit} epsilonId)

end Flow

end ActorCheck

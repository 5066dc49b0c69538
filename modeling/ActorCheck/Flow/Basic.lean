import ActorCheck.Ident
import Std.Data.ExtTreeSet

/-!
# Control Flow

A flow is a finite graph of control locations. Its edges carry operations, and
some of its locations are entries and some exits. Between two locations there
can be several edges with different operations, but an edge is determined by
its ends and its operation, so the edges form a set.

Everything here is a set, and sets are kept in ascending order. The order in
which edges leave a location is therefore fixed, by target first and operation
second, and two flows with the same locations, entries, exits and edges are
equal.

Building a flow never fails. Naming an entry or an exit makes it a location,
adding an edge does not, so an edge can be left dangling; `dangling?` finds
the first location that is mentioned without being one.

## Main definitions

* `Edge`: A labelled edge.
* `Flow`: A graph with entries and exits.
* `Flow.edgesFrom`: What leaves a location.
* `Flow.bundles`: The edges, those with the same ends together.
* `Flow.reverse`: The flow with every edge turned round.
* `Flow.dangling?`: A location that is mentioned but missing.

## Theorems

* `Edge.lawfulEqOrd`: The order of edges tells different edges apart.
-/

namespace ActorCheck

/-- An edge between two locations, labelled with an operation. -/
structure Edge where
  source : LocationId
  target : LocationId
  op : OperationId
  deriving DecidableEq

namespace Edge

/-- Edges are ordered by source, then target, then operation. -/
def order (a b : Edge) : Ordering :=
  compareLex (compareOn source) (compareLex (compareOn target) (compareOn op)) a b

instance : Ord Edge := ⟨order⟩

instance : Std.TransOrd Edge :=
  inferInstanceAs (Std.TransCmp
    (compareLex (compareOn source) (compareLex (compareOn target) (compareOn op))))

instance lawfulEqOrd : Std.LawfulEqOrd Edge where
  eq_of_compare := by
    intro a b h
    change order a b = .eq at h
    simp only [order, compareLex_eq_eq, compareOn, Std.LawfulEqCmp.compare_eq_iff_eq] at h
    cases a
    cases b
    simp only [Edge.mk.injEq]
    exact h

/-- The edge with its ends exchanged. -/
def flip (e : Edge) : Edge := ⟨e.target, e.source, e.op⟩

end Edge

/-- All edges between two locations, with their operations in ascending
    order. -/
structure Bundle where
  source : LocationId
  ops : List OperationId
  target : LocationId

/-- A finite set of locations. -/
abbrev LocationSet : Type := Std.ExtTreeSet LocationId

/-- A finite set of edges. -/
abbrev EdgeSet : Type := Std.ExtTreeSet Edge

/-- A finite graph of control locations with entries and exits. -/
structure Flow where
  locations : LocationSet
  entries : LocationSet
  exits : LocationSet
  edges : EdgeSet
  deriving DecidableEq

namespace Flow

/-- The flow without locations. -/
def empty : Flow := ⟨∅, ∅, ∅, ∅⟩

/-- A single location that is both entry and exit. -/
def singleton (l : LocationId) : Flow := ⟨{l}, {l}, {l}, ∅⟩

/-- Add a location. -/
def addLocation (g : Flow) (l : LocationId) : Flow :=
  { g with locations := g.locations.insert l }

/-- Add an entry, which is a location. -/
def addEntry (g : Flow) (l : LocationId) : Flow :=
  { g with locations := g.locations.insert l, entries := g.entries.insert l }

/-- Add an exit, which is a location. -/
def addExit (g : Flow) (l : LocationId) : Flow :=
  { g with locations := g.locations.insert l, exits := g.exits.insert l }

/-- Add an edge. Its ends do not become locations. -/
def addEdge (g : Flow) (source : LocationId) (op : OperationId) (target : LocationId) : Flow :=
  { g with edges := g.edges.insert ⟨source, target, op⟩ }

/-- The operations and targets of the edges that leave a location, by target
    and then by operation. -/
def edgesFrom (g : Flow) (l : LocationId) : List (OperationId × LocationId) :=
  (g.edges.toList.filter fun e => e.source == l).map fun e => (e.op, e.target)

/-- Put an edge before bundles that begin with no earlier one. -/
def bundle (e : Edge) : List Bundle → List Bundle
  | [] => [⟨e.source, [e.op], e.target⟩]
  | b :: rest =>
    if e.source = b.source ∧ e.target = b.target then
      ⟨b.source, e.op :: b.ops, b.target⟩ :: rest
    else ⟨e.source, [e.op], e.target⟩ :: b :: rest

/-- The edges in bundles, by source and then by target. -/
def bundles (g : Flow) : List Bundle := g.edges.toList.foldr bundle []

/-- Some edge leaves a location. -/
def hasEdgesFrom (g : Flow) (l : LocationId) : Bool :=
  g.edges.toList.any fun e => e.source == l

/-- The flow with every edge turned round. Entries and exits change roles. -/
def reverse (g : Flow) : Flow :=
  ⟨g.locations, g.exits, g.entries, Std.ExtTreeSet.ofList (g.edges.toList.map Edge.flip)⟩

/-- The operations and sources of the edges that reach a location, by source
    and then by operation. -/
def edgesTo (g : Flow) (l : LocationId) : List (OperationId × LocationId) :=
  g.reverse.edgesFrom l

/-- The locations that edges, entries and exits mention, in that order. -/
def mentioned (g : Flow) : List LocationId :=
  g.edges.toList.flatMap (fun e => [e.source, e.target])
    ++ g.entries.toList ++ g.exits.toList

/-- The first location that is mentioned without belonging to the flow. -/
def dangling? (g : Flow) : Option LocationId :=
  g.mentioned.find? fun l => !g.locations.contains l

/-- Every location that is mentioned belongs to the flow. -/
def WellFormed (g : Flow) : Prop := ∀ l ∈ g.mentioned, l ∈ g.locations

end Flow

end ActorCheck

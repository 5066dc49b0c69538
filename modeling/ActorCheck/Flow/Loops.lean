import ActorCheck.Flow.Reachable

/-!
# Natural Loops

A location dominates another when every way from an entry to the other leads
through it. That is the case exactly when the other cannot be reached once the
first has been taken out of the flow, so dominance is decided by one closure.

An edge back to a dominator closes a natural loop. Its target is the head of
the loop, its source a latch. The body consists of the head and of everything
reachable that leads to a latch without passing through the head. As the head
dominates its latches, the body can only be entered through the head.

Several edges back to the same head make one loop. Locations that no entry
leads to belong to no loop.

## Main definitions

* `Flow.reachableAvoiding`: What can be reached without a location.
* `Flow.dominates`: Every way from an entry leads through a location.
* `Flow.latches`: The sources of the edges back to a head.
* `Flow.isLoopHead`, `Flow.loopHeads`, `Flow.hasLoops`: The heads of loops.
* `Flow.loopBody?`: The body of a loop.
* `Flow.innermostHead?`: The head of the smallest loop around a location.
-/

namespace ActorCheck

namespace Flow

/-- The locations that can be reached from an entry without passing through
    `h`. -/
def reachableAvoiding (g : Flow) (h : LocationId) : LocationSet :=
  closure (g.arrows.filter fun a => a.1 != h && a.2 != h) (g.entries.erase h)

/-- Some entry leads to `l`, and none without passing through `h`. -/
def dominates (g : Flow) (h l : LocationId) : Bool :=
  g.reachable.contains l && !(g.reachableAvoiding h).contains l

/-- The sources of the edges to `h` that `h` dominates. -/
def latches (g : Flow) (h : LocationId) : List LocationId :=
  (g.arrows.filter fun a => a.2 == h && g.dominates h a.1).map Prod.fst

/-- Some edge to `h` comes from a location that `h` dominates. -/
def isLoopHead (g : Flow) (h : LocationId) : Bool := !(g.latches h).isEmpty

/-- The heads of all loops, ascending. -/
def loopHeads (g : Flow) : List LocationId := g.reachable.toList.filter g.isLoopHead

/-- Some loop can be reached from an entry. -/
def hasLoops (g : Flow) : Bool := !g.loopHeads.isEmpty

/-- The arrows against the edges between reachable locations, except those
    that lead away from `h`. -/
def arrowsBackTo (g : Flow) (h : LocationId) : List Arrow :=
  (g.arrows.filter fun a => g.reachable.contains a.1 && a.2 != h).map Prod.swap

/-- The body of the loop with head `h`, head included. -/
def loopBody (g : Flow) (h : LocationId) : LocationSet :=
  closure (g.arrowsBackTo h) (Std.ExtTreeSet.ofList (h :: g.latches h))

/-- The body of the loop with head `h`, if there is such a loop. -/
def loopBody? (g : Flow) (h : LocationId) : Option LocationSet :=
  if g.isLoopHead h then some (g.loopBody h) else none

/-- The first of the heads with the fewest locations in its loop. -/
def smallestLoop (g : Flow) : List LocationId → Option LocationId
  | [] => none
  | h :: hs =>
    match g.smallestLoop hs with
    | none => some h
    | some k => if (g.loopBody k).size < (g.loopBody h).size then some k else some h

/-- The head of the smallest loop around a location. -/
def innermostHead? (g : Flow) (l : LocationId) : Option LocationId :=
  g.smallestLoop (g.loopHeads.filter fun h => (g.loopBody h).contains l)

end Flow

end ActorCheck

import ActorCheck.Closure
import ActorCheck.Flow.Basic

/-!
# Elimination of Empty Operations

A flow that accepts the same words without edges that do nothing. A location
takes over the edges of every location it reaches by doing nothing, and it is
an exit if it reaches one that way. What no entry leads to afterwards is
dropped, edges included; the entries stay even if nothing leaves them.

## Main definitions

* `Flow.silentClosure`: What a location reaches by doing nothing.
* `Flow.shortcuts`: The edges that a location takes over.
* `Flow.removeEpsilons`: The equivalent flow.
-/

namespace ActorCheck

namespace Flow

/-- The arrows of the edges that do nothing. -/
def silentArrows (g : Flow) : List Arrow :=
  (g.edges.toList.filter fun e => e.op == epsilonId).map fun e => (e.source, e.target)

/-- The locations that `l` reaches by doing nothing, itself included. -/
def silentClosure (g : Flow) (l : LocationId) : LocationSet :=
  closure g.silentArrows {l}

/-- The edges that do something and leave a location that `l` reaches by doing
    nothing, as edges of `l`. -/
def shortcuts (g : Flow) (l : LocationId) : List Edge :=
  let closed := g.silentClosure l
  (g.edges.toList.filter fun e => e.op != epsilonId && closed.contains e.source).map
    fun e => ⟨l, e.target, e.op⟩

/-- The location reaches an exit by doing nothing. -/
def silentlyExits (g : Flow) (l : LocationId) : Bool :=
  (g.silentClosure l).toList.any g.exits.contains

/-- An equivalent flow without edges that do nothing, restricted to what an
    entry leads to. -/
def removeEpsilons (g : Flow) : Flow :=
  let edges := g.locations.toList.flatMap g.shortcuts
  let kept := closure (edges.map fun e => (e.source, e.target)) g.entries
  { locations := kept
    entries := g.entries
    exits := Std.ExtTreeSet.ofList (g.locations.toList.filter fun l =>
      g.silentlyExits l && kept.contains l)
    edges := Std.ExtTreeSet.ofList (edges.filter fun e => kept.contains e.source) }

end Flow

end ActorCheck

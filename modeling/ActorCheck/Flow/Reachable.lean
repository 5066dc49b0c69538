import ActorCheck.Closure
import ActorCheck.Flow.Basic

/-!
# Reachable Locations

The locations of a flow that some entry leads to, whatever the operations on
the way.

## Main definitions

* `Flow.arrows`: The edges of a flow without their operations.
* `Flow.reachable`: The locations that can be reached from an entry.
-/

namespace ActorCheck

namespace Flow

/-- The edges of a flow without their operations. -/
def arrows (g : Flow) : List Arrow :=
  g.edges.toList.map fun e => (e.source, e.target)

/-- The locations that can be reached from an entry. -/
def reachable (g : Flow) : LocationSet := closure g.arrows g.entries

end Flow

end ActorCheck

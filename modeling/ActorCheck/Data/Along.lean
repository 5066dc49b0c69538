import ActorCheck.Data.Analysis
import ActorCheck.Program.App

/-!
# Runs Along a Relation

A relation without loops can be run to its end at once. From a location and a
state the run takes every edge with every feasible state after it, and it
finishes wherever the location is an exit or has no further edges. What counts
is the states at which it finishes, each with a mark that tells exits from
dead ends.

A run finishes at a location before it goes on from there. The alternatives at
a location are all worked out before any of them is followed, and the last one
is followed first. So the order of the results is that of a search in depth,
from the last alternative to the first, and the error that is reported is the
first one that this search meets.

Without loops the search is no deeper than there are locations. A relation
whose loops no entry leads to, or that can be entered in the middle of a loop,
is not refused; there the data has to bring the run to its end, and a bound on
the depth stands in for patience.

## Main definitions

* `Flow.finishesAt`: A run finishes at a location.
* `Runner`: What a run depends on besides the relation.
* `Runner.alternatives`: The ways to go on from a location.
* `Runner.runFrom`: The run from a location, in bounded depth.
* `Runner.runAlong`: The run of a relation without loops.
* `App.runner`: What runs depend on in a program.
-/

namespace ActorCheck

/-- A run finishes at a location: it is an exit or nothing leaves it. -/
def Flow.finishesAt (g : Flow) (l : LocationId) : Bool :=
  g.exits.contains l || (g.edgesFrom l).isEmpty

/-- What a run depends on besides the relation. -/
structure Runner (σ : Type) where
  analysis : DataAnalysis σ
  concern : Concern
  /-- The operation with a number. -/
  lookUp : OperationId → Except AnalysisError Operation
  /-- An operation with all variables in their places. -/
  scope : Operation → Except AnalysisError Operation

namespace Runner

variable {σ : Type}

/-- The states after an edge with an operation. Doing nothing keeps the state;
    any other operation leads to its feasible successors. -/
def after (r : Runner σ) (s : σ) (id : OperationId) : Except AnalysisError (List σ) := do
  let op ← r.lookUp id
  if op.isEpsilon then return [s]
  else
    let placed ← r.scope op
    let found ← r.analysis.successors s placed r.concern
    return found.filter r.analysis.isFeasible

/-- The ways to go on from a location and a state, in the order of edges. -/
def alternatives (r : Runner σ) (g : Flow) (l : LocationId) (s : σ) :
    Except AnalysisError (List (LocationId × σ)) := do
  let found ← (g.edgesFrom l).mapM fun (id, target) => do
    return (← r.after s id).map fun next => (target, next)
  return found.flatten

/-- What a run finishes with right at a location. -/
def finished (g : Flow) (l : LocationId) (s : σ) : List (σ × Bool) :=
  if g.finishesAt l then [(s, g.exits.contains l)] else []

/-- The states at which a run from a location finishes, each with the mark
    whether the place is an exit. -/
def runFrom (r : Runner σ) (g : Relation) :
    Nat → LocationId → σ → Except AnalysisError (List (σ × Bool))
  | 0, _, _ => .error (.endlessRun g.name)
  | depth + 1, l, s => do
    let next ← r.alternatives g.toFlow l s
    let later ← next.reverse.mapM fun (target, t) => runFrom r g depth target t
    return finished g.toFlow l s ++ later.flatten

/-- The depth that is granted to runs which are not bounded by the number of
    locations. -/
def patience : Nat := 1000000

/-- The run of a relation without loops from a location. -/
def runAlong (r : Runner σ) (g : Relation) (start : LocationId) (s : σ) :
    Except AnalysisError (List (σ × Bool)) :=
  if g.hasLoops then .error (.unsupported (.loopingRelation g.name))
  else r.runFrom g (g.locations.size + patience) start s

end Runner

/-- What a run of a relation depends on in a program. Variables live with the
    owner of the run and in the scope of the relation; without an owner they
    stay as they are. -/
def App.runner {σ : Type} (app : App) (analysis : DataAnalysis σ) (concern : Concern)
    (g : Relation) (owner : Option ActorName) : Except ModelError (Runner σ) := do
  let scope ← match owner with
    | none => pure .ok
    | some name => do
      let actor ← app.actor name
      let scoping := Scoping.new actor [actor.name, g.name]
      pure fun op => ofScope (scoping.operation op)
  return ⟨analysis, concern, fun id => ofModel (app.operation id), scope⟩

end ActorCheck

import ActorCheck.Control.Interpret
import ActorCheck.Control.Turn
import ActorCheck.Control.Wake

/-!
# Steps of a Program

A step takes the running thread along one of the edges that leave its place.
The statement on the edge is interpreted, the data analysis does its part, the
threads that can go on do so, and the next thread is chosen. Each of these may
split the state, so a state has a list of successors.

A state in which a property is violated has none, and neither has one in which
nobody runs. A running thread that has nothing to do cannot come about, since
every choice of the next thread makes sure of it.

At the start there is one thread for every script. Those of bootstrap scripts
can run, monitors wait to be enabled, and all others are done until a message
starts them.

## Main definitions

* `Scheduler.startState`: The state in which a program starts.
* `Scheduler.successors`: The states after one step.
-/

namespace ActorCheck

namespace Scheduler

variable {σ : Type}

/-- The status in which a thread starts. -/
def initialStatus (event : Event) (hasMore : Bool) : ThreadStatus :=
  match event with
  | .bootstrap => if hasMore then .yield else .done
  | .afterStatement => .disabled
  | _ => .done

/-- The thread of a script. -/
def initialThread (actor : Actor) (script : Script) : Scheduling Thread := do
  let app ← program
  let r ← app.relationOf script.relation
  let entry ← ofModel r.soleEntry
  return Thread.new (← fresh) actor.name script.id ⟨actor.name, r.id, entry⟩
    (initialStatus script.event (r.hasEdgesFrom entry))

/-- The threads of all scripts, actor by actor. -/
def initialThreads : Scheduling (List Thread) := do
  let app ← program
  let found ← app.actors.mapM fun actor => actor.scripts.mapM (initialThread actor)
  return found.flatten

/-- The state in which a program starts. -/
def startState (data : σ) : Scheduling (ControlState σ) := do
  let threads ← initialThreads
  let app ← program
  let s ← app.grantTurn (ControlState.new threads data) (threads.length - 1)
  app.checkTurn s
  return s

/-- The operations that the data analysis performs for a step of a thread: those
    that the thread brings along, or else the one on the edge. -/
def dataOperations (t : Thread) (op : Operation) : List Operation :=
  if t.operations.isEmpty then [op] else t.operations

/-- The states of the data after the statement of a step was interpreted. -/
def dataAfter (c : Control σ) (s : ControlState σ) (settled : Bool) (t : Thread)
    (op : Operation) (concern : Concern) : Except AnalysisError (List σ) := do
  let found ← if settled then pure [s.data] else c.analysis.run s.data (dataOperations t op) concern
  return found.filter c.analysis.isFeasible

/-- The states after the data analysis has brought the data of a step to
    `data`. -/
def complete [DecidableEq σ] (c : Control σ) (s : ControlState σ) (index : Nat) (t : Thread)
    (concern : Concern) (data : σ) : Scheduling (List (ControlState σ)) := do
  let app ← program
  let cleared := s.setThread index { t with operations := [] }
  let threads ← app.finishThreads cleared.threads
  let next := { cleared with threads := threads, data := data, stepped := some index }
  let woken ← wakeAll c next concern
  let app ← program
  woken.mapM fun u => (app.passTurn u index : Except AnalysisError _)

/-- The states after an outcome of the statement of a step. -/
def settle [DecidableEq σ] (c : Control σ) (index : Nat) (concern : Concern) (op : Operation)
    (outcome : ControlState.Outcome σ) : Scheduling (List (ControlState σ)) := do
  let (s, settled) := outcome
  let t ← s.thread index
  let found ← (← dataAfter c s settled t op concern).mapM (complete c s index t concern)
  return found.flatten

/-- The states after the thread at an index has taken an edge. -/
def takeEdge [DecidableEq σ] (c : Control σ) (s : ControlState σ) (index : Nat)
    (concern : Concern) (edge : Operation × Place) : Scheduling (List (ControlState σ)) := do
  let outcomes ← follow s index edge.1 edge.2
  let found ← outcomes.mapM (settle c index concern edge.1)
  return found.flatten

/-- The states after the thread at an index has taken a step. -/
def stepThread [DecidableEq σ] (c : Control σ) (s : ControlState σ) (index : Nat) :
    Scheduling (List (ControlState σ)) := do
  let app ← program
  let t ← s.thread index
  let actor ← app.actorNamed t.actor
  let edges ← app.leaving s t
  if edges.isEmpty then throw (.contract (.stuckRunningThread t.id))
  let found ← edges.mapM (takeEdge c s index actor.concern)
  return found.flatten

/-- The states after one step of a program. -/
def successors [DecidableEq σ] (c : Control σ) (s : ControlState σ) :
    Scheduling (List (ControlState σ)) :=
  if s.isTarget then return []
  else if c.config.aggregateAtomicTransitions then throw (.unsupported .atomicAggregation)
  else
    match s.running with
    | [] => return []
    | [index] => stepThread c s index
    | several => throw (.contract (.severalRunningThreads several.length))

end Scheduler

end ActorCheck

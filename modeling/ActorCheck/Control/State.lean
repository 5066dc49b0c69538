import ActorCheck.Program.App
import ActorCheck.Statement

/-!
# Threads and Control States

A running program is a list of threads, one for every script, and the state of
a data analysis. A thread has a place in the relation of its script or of a
method it called, and stacks of calls and of loops around that place. The
innermost element of a stack comes first.

Threads are cooperative: at most one is running, the others wait for their
turn, for each other, or for nothing any more. A running thread with a positive
atomic counter is running atomically; this is derived from the counter and
shown, while the status that is kept says only that it runs.

A thread that waits for a condition waits for a thread of its own kind, a
condition thread, whose script evaluates it. Condition threads are kept apart
because they are never scheduled.

## Main definitions

* `Place`: A location in the relation of an actor.
* `Frame`: A pending call.
* `ThreadStatus`, `Thread`: A thread.
* `Thread.atStart`: The thread back at the start of its script.
* `ControlState`: The threads with the state of a data analysis.
* `ControlState.violated`: What has failed so far.
-/

namespace ActorCheck

/-- A location in the relation of an actor. -/
structure Place where
  actor : ActorName
  relation : RelationId
  location : LocationId
  deriving DecidableEq

/-- The text of a place. -/
def Place.render (p : Place) : String :=
  p.actor ++ ":" ++ relationText p.relation ++ ":" ++ locationText p.location

/-- A pending call: where it was made and where it continues. -/
structure Frame where
  callFrom : Place
  returnTo : Place
  deriving DecidableEq

/-- What a thread is doing. -/
inductive ThreadStatus where
  | running
  /-- Running in an atomic block. Shown, and never kept. -/
  | runningAtomic
  /-- Able to run and waiting for its turn. -/
  | yield
  /-- Waiting for other threads. -/
  | wait
  | done
  /-- A property was violated. -/
  | failure
  /-- Not started yet. -/
  | disabled
  deriving DecidableEq

/-- All statuses. -/
def ThreadStatus.all : List ThreadStatus :=
  [.running, .runningAtomic, .yield, .wait, .done, .failure, .disabled]

/-- The name of a status. -/
def ThreadStatus.render : ThreadStatus → String
  | .running => "RUNNING"
  | .runningAtomic => "RUNNING_ATOMIC"
  | .yield => "YIELD"
  | .wait => "WAIT"
  | .done => "DONE"
  | .failure => "FAILURE"
  | .disabled => "DISABLED"

/-- A thread of a running program. -/
structure Thread where
  id : ThreadId
  actor : ActorName
  script : ScriptId
  /-- Pending calls, innermost first. -/
  calls : List Frame
  place : Place
  status : ThreadStatus
  /-- The properties that the thread has found violated. -/
  failedFor : Std.ExtTreeSet String
  /-- The threads that have to be done before this one goes on. -/
  waitingFor : Std.ExtTreeSet ThreadId
  /-- The heads of the loops around the place, innermost first. -/
  loops : List Place
  /-- How many atomic blocks are open. -/
  atomic : Nat
  /-- What the data analysis performs instead of the statement of the step. -/
  operations : List Operation
  deriving DecidableEq

namespace Thread

/-- A thread with empty stacks. -/
def new (id : ThreadId) (actor : ActorName) (script : ScriptId) (place : Place)
    (status : ThreadStatus) : Thread :=
  ⟨id, actor, script, [], place, status, ∅, ∅, [], 0, []⟩

/-- The thread is running, atomically or not. -/
def isRunning (t : Thread) : Bool := t.status == .running

/-- The status that is shown. -/
def shownStatus (t : Thread) : ThreadStatus :=
  if t.isRunning && 0 < t.atomic then .runningAtomic else t.status

/-- The thread back at the entry of its script, able to run, with all stacks
    empty. What it failed for stays. -/
def atStart (t : Thread) (entry : Place) : Thread :=
  { t with
    place := entry
    status := .yield
    calls := []
    waitingFor := ∅
    loops := []
    atomic := 0
    operations := [] }

/-- The text of a thread. -/
def render (t : Thread) : String :=
  threadText t.id ++ " " ++ t.actor ++ " @ " ++ t.place.render ++ " ["
    ++ t.shownStatus.render ++ "]"

end Thread

/-- The state of a running program: its threads and the state of a data
    analysis. -/
structure ControlState (σ : Type) where
  threads : List Thread
  /-- The threads that evaluate conditions. -/
  conditions : List Thread
  data : σ
  /-- The properties that are violated here. -/
  targetFor : Std.ExtTreeSet String
  /-- The index of the thread whose step led here. -/
  stepped : Option Nat
  /-- The actors that variables of actor type refer to. -/
  actorScopes : Std.ExtTreeMap Variable ActorName
  deriving DecidableEq

namespace ControlState

variable {σ : Type}

/-- The state in which nothing has happened yet. -/
def new (threads : List Thread) (data : σ) : ControlState σ :=
  ⟨threads, [], data, ∅, none, ∅⟩

/-- Some property is violated. -/
def isTarget (s : ControlState σ) : Bool := !s.targetFor.isEmpty

/-- The indices of the running threads. -/
def running (s : ControlState σ) : List Nat :=
  (s.threads.zipIdx.filter fun (t, _) => t.isRunning).map Prod.snd

/-- Replace the thread at an index. -/
def setThread (s : ControlState σ) (index : Nat) (t : Thread) : ControlState σ :=
  { s with threads := s.threads.set index t }

/-- Change the status of the thread at an index. -/
def withStatus (s : ControlState σ) (index : Nat) (status : ThreadStatus) : ControlState σ :=
  { s with threads := s.threads.modify index fun t => { t with status := status } }

/-- The properties that some thread has found violated. -/
def violated (s : ControlState σ) : Std.ExtTreeSet String :=
  s.threads.foldl (fun found t => found ∪ t.failedFor) ∅

end ControlState

end ActorCheck

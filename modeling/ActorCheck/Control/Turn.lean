import ActorCheck.Control.Leaving

/-!
# Whose Turn It Is

Threads take turns. After a thread has taken a step, the search for the next
one starts behind it and goes once around. An observer that can run is taken
at once; otherwise the first other thread that can run is. The thread that
took the step is asked last: if nobody else can run, it goes on if it can.

A thread in an atomic block keeps its turn for as long as it runs and
something leaves its place.

After the choice at most one thread runs, and something leaves its place. That
is checked, since everything else relies on it.

## Main definitions

* `App.nextThread`: The thread that runs next.
* `App.checkTurn`: At most one thread runs, and it can go on.
* `App.passTurn`: The state after the next thread was chosen.
-/

namespace ActorCheck

namespace App

variable {σ : Type}

/-- The thread is waiting for its turn and something leaves its place. -/
def canRun (app : App) (t : Thread) : Except AnalysisError Bool :=
  if t.status = .yield then app.hasLeaving t else .ok false

/-- The first observer that can run among the threads at some indices, else the
    first thread of them that can run. -/
def firstRunnable (app : App) (s : ControlState σ) (first : Option Nat) :
    List Nat → Except AnalysisError (Option Nat)
  | [] => .ok first
  | index :: rest =>
    match s.threads[index]? with
    | none => firstRunnable app s first rest
    | some t => do
      if ← app.canRun t then
        let actor ← app.actorNamed t.actor
        if actor.isObserver then return some index
        else firstRunnable app s (first.or (some index)) rest
      else firstRunnable app s first rest

/-- The indices once around, from the one behind `stepped` back to it. -/
def turnOrder (count stepped : Nat) : List Nat :=
  (List.range count).map fun k => (stepped + 1 + k) % count

/-- The thread that took a step can take another one. -/
def canGoOn (app : App) (s : ControlState σ) (stepped : Nat) : Except AnalysisError Bool :=
  match s.threads[stepped]? with
  | some t => if t.status = .running ∨ t.status = .yield then app.hasLeaving t else .ok false
  | none => .ok false

/-- The index of the thread that runs after the one at `stepped`. -/
def nextThread (app : App) (s : ControlState σ) (stepped : Nat) :
    Except AnalysisError (Option Nat) := do
  match ← app.firstRunnable s none (turnOrder s.threads.length stepped) with
  | some index => return some index
  | none => return if ← app.canGoOn s stepped then some stepped else none

/-- The thread at an index has something to do. -/
def checkNotStuck (app : App) (s : ControlState σ) (index : Nat) : Except AnalysisError Unit := do
  let t ← s.thread index
  if ← app.hasLeaving t then return
  else throw (.contract (.stuckRunningThread t.id))

/-- At most one thread runs, and it has something to do. -/
def checkTurn (app : App) (s : ControlState σ) : Except AnalysisError Unit :=
  if 1 < s.running.length then .error (.contract (.severalRunningThreads s.running.length))
  else s.running.forM (app.checkNotStuck s)

/-- The thread that took a step, when it gives its turn away: it is done if
    nothing leaves its place, and else it waits for its next turn. -/
def giveTurnAway (hasMore : Bool) (t : Thread) : Thread :=
  if !hasMore && (t.status == .running || t.status == .yield) then { t with status := .done }
  else if t.isRunning then { t with status := .yield }
  else t

/-- Let the next thread run, if there is one. -/
def grantTurn (app : App) (s : ControlState σ) (stepped : Nat) :
    Except AnalysisError (ControlState σ) := do
  match ← app.nextThread s stepped with
  | some index => return s.withStatus index .running
  | none => return s

/-- The state after the next thread was chosen, when the one at `stepped` took
    a step. -/
def passTurn (app : App) (s : ControlState σ) (stepped : Nat) :
    Except AnalysisError (ControlState σ) := do
  let t ← s.thread stepped
  let hasMore ← app.hasLeaving t
  let next ←
    if t.isRunning && 0 < t.atomic && hasMore then pure s
    else app.grantTurn (s.setThread stepped (giveTurnAway hasMore t)) stepped
  app.checkTurn next
  return next

end App

end ActorCheck

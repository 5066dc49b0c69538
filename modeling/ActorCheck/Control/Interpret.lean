import ActorCheck.Control.Broadcast
import ActorCheck.Control.LoopStack
import ActorCheck.Control.TimedWait

/-!
# Interpretation of Statements

What the statement on an edge does to the threads. The running thread has moved
along the edge already. Signals, atomic blocks, messages, calls, returns and
waits are interpreted here; the rest changes nothing but data and is left to
the data analysis, which the mark of an outcome tells.

Variables of actor type never reach the data analysis. Which actors they refer
to is part of the control state, so an assignment to one is resolved here.

Conditions other than the passing of time have no defined moment at which they
are looked at again. Statements that wait for them are refused rather than
given a meaning.

## Main definitions

* `denotedActor`: The actor that an expression denotes.
* `Scheduler.interpret`: The outcomes of a statement.
* `Scheduler.follow`: The outcomes of taking an edge.
-/

namespace ActorCheck

/-- The actor that an expression assigned to a variable of actor type
    denotes. -/
def denotedActor {σ : Type} (app : App) (s : ControlState σ) (t : Thread) (e : Expr) :
    Except AnalysisError ActorName :=
  let known (found : Option ActorName) : Except AnalysisError ActorName :=
    match found with
    | some name => .ok name
    | none => .error (.argument (.unresolvedActor e))
  match e with
  | .var v => known s.actorScopes[v]?
  | .locateActor (.str name) => known ((app.actor name).toOption.map Actor.name)
  | .locateActor _ => known none
  | .usher => .ok t.actor
  | .startClone _ => .error (.unsupported (.cloning e))
  | _ => .error (.unsupported (.actorValue e))

namespace Scheduler

variable {σ : Type}

/-- The state after a signal: the thread has failed for good. -/
def fail (s : ControlState σ) (index : Nat) (t : Thread) (properties : Std.ExtTreeSet String) :
    ControlState σ :=
  let failed := { t with status := .failure, failedFor := t.failedFor ∪ properties }
  { s.setThread index failed with targetFor := s.targetFor ∪ properties }

/-- The state after a broadcast whose sender waits for all receivers. -/
def broadcastAndWait (app : App) (s : ControlState σ) (index : Nat) (t : Thread) (m : Message) :
    Except AnalysisError (ControlState σ) := do
  let (threads, receivers) ← app.broadcast m s.threads
  let next := { s with threads := threads }
  if t.id ∈ receivers then throw (.unsupported (.ownReceiver (.broadcastAndWait m)))
  if receivers.isEmpty then return next
  else
    let sender ← next.thread index
    return next.setThread index { sender with status := .wait, waitingFor := receivers }

/-- The outcomes of a call, which may be one of the built-in methods. -/
def interpretCall (s : ControlState σ) (index : Nat) (t : Thread) (actor : Actor)
    (method : String) (args : List Expr) (result : Option Variable) (source target : Place) :
    Scheduling (List (ControlState.Outcome σ)) :=
  if method = Builtin.waitSeconds then beginWait s index t args
  else if method = Builtin.signalFailure then
    throw (.argument (.unexpectedStatement (.call method args result)))
  else if method = Builtin.micros ∨ actor.isExternal method then return [(s, false)]
  else enterMethod s index t actor method args source target

/-- The outcomes of a statement on the edge from one place to another, along
    which the thread at an index has moved already. -/
def interpret (s : ControlState σ) (index : Nat) (t : Thread) (statement : Statement)
    (source target : Place) : Scheduling (List (ControlState.Outcome σ)) := do
  let app ← program
  let actor ← app.actorNamed t.actor
  match statement with
  | .signal properties => return [(fail s index t properties, true)]
  | .beginAtomic => return [(s.setThread index { t with atomic := t.atomic + 1 }, true)]
  | .endAtomic =>
    if t.atomic = 0 then throw (.contract (.unbalancedAtomic t.id))
    else return [(s.setThread index { t with atomic := t.atomic - 1 }, true)]
  | .call method args result => interpretCall s index t actor method args result source target
  | .ret result => leaveMethod s index t actor result
  | .broadcast m => do
    let (threads, _) ← app.broadcast m s.threads
    return [({ s with threads := threads }, true)]
  | .broadcastAndWait m => return [(← broadcastAndWait app s index t m, false)]
  | .waitUntil _ => throw (.unsupported (.timing statement))
  | .waitSecs _ => throw (.unsupported (.timing statement))
  | .store v e =>
    if v.type = .actor then do
      let name ← denotedActor app s t e
      return [({ s with actorScopes := s.actorScopes.insert v name }, true)]
    else return [(s, false)]
  | .declare v => return [(s, v.type == .actor)]
  | .epsilon => return [(s, false)]
  | .assume _ => return [(s, false)]
  | .evaluate _ => return [(s, false)]

/-- The outcomes of taking an edge with the thread at an index: its stack of
    loops is brought up to date, it moves, and the statement is interpreted. -/
def follow (s : ControlState σ) (index : Nat) (op : Operation) (target : Place) :
    Scheduling (List (ControlState.Outcome σ)) := do
  let t ← s.thread index
  let action ← (← program).loopMove t.place target
  let moved := { t with loops := action.apply t.place t.loops, place := target }
  interpret (s.setThread index moved) index moved op.statement t.place target

end Scheduler

end ActorCheck

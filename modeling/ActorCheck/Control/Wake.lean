import ActorCheck.Control.Broadcast
import ActorCheck.Control.TimedWait

/-!
# Waking Up

After every step the scheduler looks at who can go on. A thread at the end of
its relation is done. A step of the program starts the monitors again. Whoever
waits only for threads that are done goes on.

Then it is the turn of the conditions. While somebody can run, every pending
condition is evaluated where it stands, and the threads whose condition holds
go on. Evaluating a condition may split the state, one alternative for each
way the data can be; equal alternatives are kept once. When nobody can run,
the clock is moved first, which is possible if exactly one condition is
pending and it waits for the clock. A condition thread that is done, or that
nobody waits for any more, is removed.

## Main definitions

* `App.finishThreads`: The threads at the end of their relations are done.
* `App.startMonitors`: The monitors after a step of the program.
* `App.releaseWaiting`: Who waits only for threads that are done goes on.
* `Scheduler.evaluateConditions`: The states after all conditions were evaluated.
* `Scheduler.wakeAll`: The states after everybody who can go on does.
-/

namespace ActorCheck

namespace App

/-- A thread that is done if nothing leaves its place, unless it is done or has
    failed already. -/
def finishThread (app : App) (t : Thread) : Except AnalysisError Thread :=
  if t.status = .failure ∨ t.status = .done then .ok t
  else do
    return if ← app.hasLeaving t then t else { t with status := .done }

/-- The threads at the end of their relations are done. -/
def finishThreads (app : App) (threads : List Thread) : Except AnalysisError (List Thread) :=
  threads.mapM app.finishThread

/-- A thread after a step of the program: a monitor that is enabled starts
    again. -/
def startMonitor (app : App) (t : Thread) : Except AnalysisError Thread :=
  if t.status = .disabled then .ok t
  else do
    let script ← app.scriptOf t
    if script.event = .afterStatement then app.restart t else return t

/-- The threads after a step of a concern. -/
def startMonitors (app : App) (concern : Concern) (threads : List Thread) :
    Except AnalysisError (List Thread) :=
  if concern = .program then threads.mapM app.startMonitor else .ok threads

/-- A thread whose wait is over. -/
def wake (app : App) (t : Thread) : Except AnalysisError Thread := do
  return { t with status := if ← app.hasLeaving t then .yield else .done }

/-- A thread that no longer waits for threads that are done. If it waits for
    nobody else, its wait is over. -/
def releaseThread (app : App) (finished : Std.ExtTreeSet ThreadId) (t : Thread) :
    Except AnalysisError Thread :=
  if t.waitingFor.isEmpty then .ok t
  else
    let updated := { t with waitingFor := t.waitingFor \ finished }
    if updated.status = .wait ∧ updated.waitingFor.isEmpty then app.wake updated
    else .ok updated

/-- The identities of the threads that are done. -/
def finishedIds (threads : List Thread) : Std.ExtTreeSet ThreadId :=
  Std.ExtTreeSet.ofList ((threads.filter fun t => t.status == .done).map Thread.id)

/-- The threads after those that are done were taken off all waiting sets. -/
def releaseWaiting (app : App) (threads : List Thread) : Except AnalysisError (List Thread) :=
  threads.mapM (app.releaseThread (finishedIds threads))

end App

namespace Scheduler

variable {σ : Type}

/-- A thread that no longer waits for a condition thread. If it waits for
    nobody else, its wait is over. -/
def conditionHolds (app : App) (checker : ThreadId) (t : Thread) : Except AnalysisError Thread :=
  let updated := { t with waitingFor := t.waitingFor.erase checker }
  if updated.waitingFor.isEmpty then app.wake updated else .ok updated

/-- The state after the condition of a waiting thread was found to hold: its
    condition thread is done, and the thread no longer waits for it. -/
def settleCondition (app : App) (s : ControlState σ) (waiter position : Nat) (checker : Thread) :
    Except AnalysisError (ControlState σ) := do
  let next := { s with conditions := s.conditions.set position { checker with status := .done } }
  match next.threads[waiter]? with
  | some t => return next.setThread waiter (← conditionHolds app checker.id t)
  | none => return next

/-- The states after the condition of a waiting thread was evaluated. -/
def evaluateCondition (c : Control σ) (app : App) (s : ControlState σ) (waiter : Nat)
    (checkerId : ThreadId) : Except AnalysisError (List (ControlState σ)) :=
  match s.conditions.zipIdx.find? fun (t, _) => t.id == checkerId with
  | none => .ok [s]
  | some (checker, position) => do
    let r ← app.relationOf checker.place.relation
    let actor ← app.actorNamed checker.actor
    let scope ← app.localScope checker.place
    let scoping := Scoping.new actor scope
    let runner : Runner σ :=
      ⟨c.analysis, actor.concern, app.operationOf, fun op => ofScope (scoping.operation op)⟩
    let found ← runner.runAlong r checker.place.location s.data
    found.mapM fun (data, holds) =>
      let next := { s with data := data }
      if holds then settleCondition app next waiter position checker else .ok next

/-- The thread at an index and the condition thread it waits for, if it waits
    for one. -/
def pendingOf (checkers : Std.ExtTreeSet ThreadId) (entry : Thread × Nat) :
    Except AnalysisError (Option (Nat × ThreadId)) :=
  let (t, index) := entry
  if t.status = .wait then
    match (t.waitingFor ∩ checkers).toList with
    | [] => .ok none
    | [checker] => .ok (some (index, checker))
    | several => .error (.contract (.severalConditionChecks t.id several.length))
  else .ok none

/-- The waiting threads and the condition threads they wait for. -/
def pendingConditions (s : ControlState σ) : Except AnalysisError (List (Nat × ThreadId)) := do
  let checkers := Std.ExtTreeSet.ofList (s.conditions.map Thread.id)
  let found ← s.threads.zipIdx.mapM (pendingOf checkers)
  return found.filterMap id

/-- The members of a list at their first occurrences. -/
def distinct {α : Type} [DecidableEq α] (xs : List α) : List α :=
  xs.foldl (fun found x => if x ∈ found then found else found ++ [x]) []

/-- The alternatives after pending conditions were evaluated one by one. -/
def evaluatePending [DecidableEq σ] (c : Control σ) (app : App) :
    List (Nat × ThreadId) → List (ControlState σ) → Except AnalysisError (List (ControlState σ))
  | [], alternatives => .ok alternatives
  | (waiter, checker) :: rest, alternatives => do
    let found ← alternatives.mapM fun s => evaluateCondition c app s waiter checker
    evaluatePending c app rest (distinct found.flatten)

/-- The state without the condition threads that are done or that nobody waited
    for. -/
def dropConditions (waited : List ThreadId) (s : ControlState σ) : ControlState σ :=
  { s with conditions := s.conditions.filter fun t => t.status != .done && waited.contains t.id }

/-- The states after all pending conditions were evaluated. -/
def evaluateConditions [DecidableEq σ] (c : Control σ) (app : App) (s : ControlState σ) :
    Except AnalysisError (List (ControlState σ)) := do
  let pending ← pendingConditions s
  let found ← evaluatePending c app pending [s]
  return found.map (dropConditions (pending.map Prod.snd))

/-- Somebody can run. -/
def progresses (s : ControlState σ) : Bool :=
  s.threads.any fun t => t.status == .yield || t.status == .running

/-- The script of the only condition thread and its acceleration, if it waits
    for the clock. -/
def clockWait? (accelerations : Std.ExtTreeMap ScriptId Acceleration) (conditions : List Thread) :
    Option (ScriptId × Acceleration) :=
  match conditions with
  | [checker] =>
    (accelerations[checker.script]?.filter fun a => a.variant == Builtin.clock).map
      fun a => (checker.script, a)
  | _ => none

/-- The states after the conditions were looked at. The clock is moved if
    nobody can run otherwise. -/
def runConditions [DecidableEq σ] (c : Control σ) (s : ControlState σ) :
    Scheduling (List (ControlState σ)) := do
  if s.conditions.isEmpty then return [s]
  else if progresses s then evaluateConditions c (← program) s
  else
    let accelerations := (← get).accelerations
    match clockWait? accelerations s.conditions with
    | some (script, a) => do
      let moved ← fastForward c s script a
      let app ← program
      let found ← moved.mapM fun t => (evaluateConditions c app t : Except AnalysisError _)
      return found.flatten
    | none =>
      let accelerable := s.conditions.filter fun t => accelerations.contains t.script
      throw (.unsupported (.acceleration s.conditions.length accelerable.length))

/-- The states after a step of a concern, once everybody who can go on does. -/
def wakeAll [DecidableEq σ] (c : Control σ) (s : ControlState σ) (concern : Concern) :
    Scheduling (List (ControlState σ)) := do
  let app ← program
  let started ← app.startMonitors concern s.threads
  let released ← app.releaseWaiting started
  runConditions c { s with threads := released }

end Scheduler

end ActorCheck

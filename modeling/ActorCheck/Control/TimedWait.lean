import ActorCheck.Control.Call
import ActorCheck.Data.Along

/-!
# Timed Waits

A thread that waits for some seconds reads the clock, adds the time to wait,
and keeps the sum in a variable of its scope. It then waits for a condition
thread that checks whether the clock has reached that value.

The clock stands still while somebody can run. When everybody waits for the
clock, it is moved: to the value that the only pending condition asks for. The
relation that does so assigns that value to the clock and nothing else.

Scripts and relations for waiting are made once for an actor and a scope and
used again by later waits there, so that endless waiting does not make the
program grow.

## Main definitions

* `wakeUpVariable`: The variable that holds the end of a wait.
* `Scheduler.beginWait`: The states after a timed wait has begun.
* `Scheduler.accelerator`: The relation that moves the clock for a script.
* `Scheduler.fastForward`: The states after the clock was moved.
-/

namespace ActorCheck

/-- The variable that holds the end of a wait in a scope. -/
def wakeUpVariable (scope : List String) : Variable :=
  .within Builtin.wakeUpName .number scope

/-- The condition that a wait is over. -/
def waitIsOver (wakeUp : Variable) : Expr := .cmp .ge (.var Builtin.clock) (.var wakeUp)

/-- The statements that compute the end of a wait. -/
def settingAlarm (wakeUp : Variable) (seconds : Expr) : List Statement :=
  [.call Builtin.micros [] (some wakeUp),
    .store wakeUp
      (.arith .add (.var wakeUp) (.arith .mul seconds (.num Builtin.microsPerSecond)))]

namespace Scheduler

/-- Remember how the condition of a script can be made to hold, unless this is
    known. -/
def learnAcceleration (script : ScriptId) (a : Acceleration) : StateM Scheduler Unit :=
  modify fun s => { s with accelerations := s.accelerations.insertIfNew script a }

/-- A thread at the entry of a script that evaluates a condition. -/
def conditionThread (actor : ActorName) (script : Script) : Scheduling Thread := do
  let app ← program
  let r ← app.relationOf script.relation
  let entry ← ofModel r.soleEntry
  return Thread.new (← fresh) actor script.id ⟨actor, r.id, entry⟩ .yield

/-- The states after a thread has begun to wait for some seconds. -/
def beginWait {σ : Type} (s : ControlState σ) (index : Nat) (t : Thread) (args : List Expr) :
    Scheduling (List (ControlState.Outcome σ)) := do
  match args with
  | [seconds] => do
    let scope ← (← program).localScope t.place
    let wakeUp := wakeUpVariable scope
    let ops ← (settingAlarm wakeUp seconds).mapM fun statement => freshOperation statement
    let condition := waitIsOver wakeUp
    let script ← modelling (App.conditionScript t.actor condition)
    learnAcceleration script.id ⟨t.actor, condition, Builtin.clock, .var wakeUp⟩
    let checker ← conditionThread t.actor script
    let waiting :=
      { t with status := .wait, waitingFor := t.waitingFor.insert checker.id, operations := ops }
    return [({ s.setThread index waiting with conditions := s.conditions ++ [checker] }, false)]
  | _ => throw (.argument (.arity Builtin.waitSeconds 1 args.length))

/-- Make the relation that brings the variant of a condition to its value. -/
def makeAccelerator (script : ScriptId) (a : Acceleration) : Scheduling Relation := do
  let step ← adding (App.newOperation (.store a.variant a.accelerateTo))
  let line ← modelling (App.building (Relation.sequence [step.id]))
  let plain ← modelling (App.building line.removeEpsilons)
  let r := plain.rename ("accelerate_" ++ scriptText script)
  adding (App.addRelation r)
  modify fun s => { s with accelerators := s.accelerators.insert script r }
  return r

/-- The relation that brings the variant of the condition of a script to its
    value. -/
def accelerator (script : ScriptId) (a : Acceleration) : Scheduling Relation := do
  match (← get).accelerators[script]? with
  | some r => return r
  | none => makeAccelerator script a

/-- The states after the variant of the condition of a script was moved. -/
def fastForward {σ : Type} (c : Control σ) (s : ControlState σ) (script : ScriptId)
    (a : Acceleration) : Scheduling (List (ControlState σ)) := do
  let r ← accelerator script a
  let app ← program
  let actor ← app.actorNamed a.actor
  let entry ← ofModel r.soleEntry
  let runner : Runner σ := ⟨c.analysis, actor.concern, app.operationOf, .ok⟩
  let found ← runner.runAlong r entry s.data
  return (found.filter fun (_, atExit) => atExit).map fun (data, _) => { s with data := data }

end Scheduler

end ActorCheck

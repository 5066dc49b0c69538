import ActorCheck.Control.Leaving

/-!
# Broadcasts

A message restarts every thread whose script waits for a message of its name.
The namespace has to be given literally like the name, but it is not compared.
The sender may be among the receivers, and a receiver that is busy or waiting
is restarted all the same; only a thread that failed stays as it is.

One message of the system says that bootstrapping is over. It is recognised by
name and namespace, and before it is delivered it enables the monitors, which
are then ready to be started by the next statement of the program.

## Main definitions

* `messageName`: The name in a message that is given literally.
* `App.enableMonitors`: The threads with the monitors enabled.
* `App.broadcast`: The threads after a broadcast, and its receivers.
-/

namespace ActorCheck

/-- The name in a message, if name and namespace are given literally. -/
def messageName (m : Message) : Except AnalysisError String :=
  match m.space.asString?, m.id.asString? with
  | some _, some name => .ok name
  | _, _ => .error (.argument (.nonLiteralMessage m))

/-- The message says that bootstrapping is over. -/
def endsBootstrap (m : Message) : Bool :=
  m.space.asString? == some Builtin.systemNamespace
    && m.id.asString? == some Builtin.bootstrapOver

/-- A message of a name starts a script with an event. -/
def Event.matchesName (e : Event) (name : String) : Bool :=
  match e with
  | .messageReceived expected _ => expected == name
  | _ => false

namespace App

/-- A thread after bootstrapping: a monitor that was not started yet is
    enabled. -/
def enableMonitor (app : App) (t : Thread) : Except AnalysisError Thread :=
  if t.status = .disabled then do
    let script ← app.scriptOf t
    return if script.event = .afterStatement then { t with status := .done } else t
  else .ok t

/-- The threads after bootstrapping. -/
def enableMonitors (app : App) (threads : List Thread) : Except AnalysisError (List Thread) :=
  threads.mapM app.enableMonitor

/-- A thread after a message of a name, and whether it received it. -/
def deliver (app : App) (name : String) (t : Thread) : Except AnalysisError (Thread × Bool) :=
  if t.status = .failure then .ok (t, false)
  else do
    let script ← app.scriptOf t
    if script.event.matchesName name then return (← app.restart t, true)
    else return (t, false)

/-- The threads after a broadcast, and the identities of its receivers. -/
def broadcast (app : App) (m : Message) (threads : List Thread) :
    Except AnalysisError (List Thread × Std.ExtTreeSet ThreadId) := do
  let name ← messageName m
  let ready ← if endsBootstrap m then app.enableMonitors threads else pure threads
  let delivered ← ready.mapM (app.deliver name)
  let received := delivered.filter fun (_, got) => got
  return (delivered.map Prod.fst,
    Std.ExtTreeSet.ofList (received.map fun (t, _) => t.id))

end App

end ActorCheck

import ActorCheck.Expr

/-!
# Built-in Names

Methods, variables and messages that every program has without declaring
them.

A wait of some seconds is measured on a global clock that counts microseconds.
The moment it ends is kept in a variable of the waiting script, under a name
that no script writes.

## Main definitions

* `Builtin.waitSeconds`: The method that blocks for a number of seconds.
* `Builtin.signalFailure`: The method that reports violated properties.
* `Builtin.micros`: The method that reads the clock.
* `Builtin.clock`: The global clock.
* `Builtin.wakeUpName`: The variable that holds the end of a wait.
-/

namespace ActorCheck

namespace Builtin

/-- The method that reports a violated property. -/
def signalFailure : String := "signalFailure"

/-- The method that blocks the calling script for a number of seconds. -/
def waitSeconds : String := "waitSeconds"

/-- The method that returns the global clock in microseconds. -/
def micros : String := "micros"

/-- The global clock in microseconds. -/
def clock : Variable := Variable.global "__global_time_micros" .number

/-- The name of the variable that holds the time at which a wait ends. -/
def wakeUpName : String := "__wait_until_micros"

/-- The namespace of messages without an explicit one. -/
def appNamespace : String := "app"

/-- The namespace of messages that the system sends itself. -/
def systemNamespace : String := "system"

/-- The message that is sent once all bootstrap scripts have run. -/
def bootstrapOver : String := "__BOOTSTRAP_FINISHED"

/-- Microseconds in a second. -/
def microsPerSecond : Int64 := 1000000

end Builtin

end ActorCheck

import ActorCheck.AnalysisError
import ActorCheck.Config
import ActorCheck.Control.State
import ActorCheck.Data.Analysis

/-!
# The Scheduler

Exploring a program adds to it: numbers are drawn, scripts that evaluate a
condition are made, and so are relations that move the clock. The scheduler
carries the program from step to step together with what it knows about the
conditions it can hurry along.

An acceleration belongs to a script that evaluates a condition. It names the
variable that advances by itself and the value of it at which the condition
starts to hold. The relation that brings the variable there is made when it is
needed for the first time.

What a step leaves behind in the scheduler stays even if the step fails.

## Main definitions

* `Acceleration`: How a condition can be made to hold.
* `Scheduler`: The program and what is known about it.
* `Scheduling`: A step of the scheduler.
* `Control`: A data analysis with a configuration.
-/

namespace ActorCheck

/-- How the condition of a script can be made to hold. -/
structure Acceleration where
  actor : ActorName
  condition : Expr
  /-- The variable that advances by itself. -/
  variant : Variable
  /-- The value of the variant at which the condition starts to hold. -/
  accelerateTo : Expr
  deriving DecidableEq

/-- A program under exploration with what is known about its conditions. -/
structure Scheduler where
  app : App
  accelerations : Std.ExtTreeMap ScriptId Acceleration
  /-- The relations that bring the variant of a condition to its value. -/
  accelerators : Std.ExtTreeMap ScriptId Relation

/-- A step of the scheduler: it yields a result or an error, and the scheduler
    afterwards in either case. -/
abbrev Scheduling (α : Type) : Type := ExceptT AnalysisError (StateM Scheduler) α

namespace Scheduler

/-- The scheduler before the first step. -/
def new (app : App) : Scheduler := ⟨app, ∅, ∅⟩

/-- Run a computation on the program. -/
def onApp {α : Type} (x : StateM App α) : StateM Scheduler α :=
  modifyGet fun s =>
    let (a, app) := x.run s.app
    (a, { s with app := app })

/-- A computation on the program, as a step. -/
def adding {α : Type} (x : StateM App α) : Scheduling α := ExceptT.lift (onApp x)

/-- A computation on the program that may find it at fault, as a step. -/
def modelling {α : Type} (x : Modelling α) : Scheduling α := do
  ofModel (← adding x.run)

/-- Draw a number. -/
def fresh : StateM Scheduler Nat := onApp App.fresh

/-- An operation with an identity of its own that no relation refers to. -/
def freshOperation (s : Statement) : StateM Scheduler Operation := do
  return ⟨← fresh, s⟩

/-- The program. -/
def program : StateM Scheduler App := do
  return (← get).app

end Scheduler

/-- The analysis of data that a scheduler is used with, and its
    configuration. -/
structure Control (σ : Type) where
  analysis : DataAnalysis σ
  config : ControlConfig

end ActorCheck

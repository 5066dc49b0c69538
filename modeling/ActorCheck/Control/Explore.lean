import ActorCheck.Control.Step

/-!
# Exploration

Two ways to look at what a program does. A run follows the first successor of
every state. A state space collects all successors, numbers the states in the
order in which they are found, and expands them in the order of their numbers,
so that it is explored breadth first.

States are told apart by everything they consist of, the numbers of their
threads included. An error in expanding a state is kept with that state, and
exploration goes on with the next one.

## Main definitions

* `Scheduler.firstRun`: The run along first successors.
* `StateSpace`: Numbered states, some of them expanded.
* `StateSpace.expandNext`: Expand the first state that is not expanded yet.
* `Scheduler.explore`: Expand a number of states.
-/

namespace ActorCheck

/-- A state of a run and the number of successors it was chosen from. -/
structure Visit (σ : Type) where
  alternatives : Nat
  state : ControlState σ
  deriving DecidableEq

/-- A run: the states it went through after its start, and the error that ended
    it, if it was one. -/
structure Run (σ : Type) where
  visits : List (Visit σ)
  fault : Option AnalysisError

/-- Numbered states, the first of them expanded. -/
structure StateSpace (σ : Type) where
  /-- The states in the order of their numbers, counted from zero. -/
  states : List (ControlState σ)
  /-- The numbers of the successors of the first states. -/
  expanded : List (Except AnalysisError (List Nat))

section Explore

variable {σ : Type} [DecidableEq σ]

/-- The run along first successors, of bounded length. -/
def Scheduler.firstRun (c : Control σ) : Nat → ControlState σ → StateM Scheduler (Run σ)
  | 0, _ => return ⟨[], none⟩
  | n + 1, s => do
    match ← (successors c s).run with
    | .error e => return ⟨[], some e⟩
    | .ok [] => return ⟨[], none⟩
    | .ok (next :: others) =>
      let rest ← firstRun c n next
      return { rest with visits := ⟨others.length + 1, next⟩ :: rest.visits }

namespace StateSpace

/-- The state space of a single state. -/
def ofState (s : ControlState σ) : StateSpace σ := ⟨[s], []⟩

/-- The number of a state among others, which grow by the state if it is not
    one of them. -/
def number (s : ControlState σ) : StateM (List (ControlState σ)) Nat :=
  modifyGet fun known =>
    match known.idxOf? s with
    | some i => (i, known)
    | none => (known.length, known ++ [s])

/-- Expand the first state that is not expanded yet. -/
def expandNext (c : Control σ) (space : StateSpace σ) : StateM Scheduler (StateSpace σ) := do
  match space.states[space.expanded.length]? with
  | none => return space
  | some s =>
    match ← (Scheduler.successors c s).run with
    | .error e => return { space with expanded := space.expanded ++ [.error e] }
    | .ok found =>
      let (numbers, states) := (found.mapM number).run space.states
      return ⟨states, space.expanded ++ [.ok numbers]⟩

end StateSpace

/-- The state space around a state after expanding a number of states. -/
def Scheduler.explore (c : Control σ) (s : ControlState σ) : Nat → StateM Scheduler (StateSpace σ)
  | 0 => return StateSpace.ofState s
  | n + 1 => do
    let space ← explore c s n
    space.expandNext c

end Explore

end ActorCheck

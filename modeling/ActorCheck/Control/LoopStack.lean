import ActorCheck.Control.Leaving

/-!
# Stacks of Loops

A thread remembers the heads of the loops it is in. Going from the head of a
loop into its body adds the head, so a loop that runs several times leaves a
run of equal heads on its stack. Going from the head out of the body ends the
loop: the whole run is taken off, and with it the one entry below.

## Main definitions

* `dropLoop`: The stack after the innermost loop has ended.
* `LoopMove`: What a step means for the stack.
* `App.loopMove`: The meaning of a step.
* `LoopMove.apply`: The stack after a step.
-/

namespace ActorCheck

/-- The stack after the innermost loop has ended: without the run of entries
    equal to the first and without the entry below the run. -/
def dropLoop {α : Type} [DecidableEq α] : List α → List α
  | [] => []
  | top :: rest => (rest.dropWhile fun x => x == top).drop 1

/-- What a step means for the stack of loops. -/
inductive LoopMove where
  | entering
  | leaving
  | none
  deriving DecidableEq

/-- What a step between two places means for the stack of loops. Only the head
    of a loop enters or leaves it. -/
def App.loopMove (app : App) (source target : Place) : Except AnalysisError LoopMove :=
  if source.relation ≠ target.relation then .ok .none
  else do
    let r ← app.relationOf source.relation
    match r.loopBody? source.location with
    | some body => return if target.location ∈ body then .entering else .leaving
    | none => return .none

/-- The stack of loops after a step from a place. -/
def LoopMove.apply (a : LoopMove) (source : Place) (loops : List Place) : List Place :=
  match a with
  | .entering => source :: loops
  | .leaving => dropLoop loops
  | .none => loops

end ActorCheck

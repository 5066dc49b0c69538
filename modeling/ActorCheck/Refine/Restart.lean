import ActorCheck.Refine.Reachability
import ActorCheck.Refine.StateSet
import Std.Data.ExtTreeSet

/-!
# Restart of an Exploration

Once something was learned, what was found with less precision has to be found
again. The exploration goes back to its initial states, and everything that
was found from them is forgotten.

To find it, the graph is traversed breadth first, once from each initial
state. Every state that is met for the first time is taken out of the sets of
the exploration. The traversals share what they have visited, so states that
can be reached in several ways are visited once, and the initial states count
as visited from the beginning, so they are never taken out. After its
traversal an initial state is put behind the rest of the frontier.

A traversal ends although it may come back to where it was: a state that was
visited does not contribute its successors again.

## Main definitions

* `Exploration`: What was found, and what of it is still to be expanded.
* `Sweep`: How far a restart has come.
* `sweep`: A traversal.
* `restart`: Back to the initial states.

## Theorems

* `Sweep.stepsLeft_visit`: A traversal ends.
-/

namespace ActorCheck

/-- The sets of an exploration: what was found, and what of it is still to be
    expanded. -/
structure Exploration where
  reached : StateSet
  frontier : StateSet
  deriving DecidableEq

namespace Refinement

/-- How far a restart has come: the states that were visited, and what is left
    of the sets. -/
structure Sweep where
  seen : Std.ExtTreeSet Nat
  exploration : Exploration

namespace Sweep

/-- Visit a state: it is forgotten. -/
def visit (w : Sweep) (s : StateId) : Sweep where
  seen := w.seen.insert s
  exploration := ⟨w.exploration.reached.remove s, w.exploration.frontier.remove s⟩

/-- Put a state behind the frontier, unless it is there. -/
def enqueue (w : Sweep) (s : StateId) : Sweep :=
  { w with exploration.frontier := w.exploration.frontier.insert s }

/-- How many successors the entries of states have that were not visited. -/
def unvisited (seen : Std.ExtTreeSet Nat) : List (StateId × List StateId) → Nat
  | [] => 0
  | (s, succs) :: rest => (if s ∈ seen then 0 else succs.length) + unvisited seen rest

/-- How many steps a traversal can still take: one for each state in the queue,
    and one for each state that can get into it. -/
def stepsLeft (a : Accessibility) (seen : Std.ExtTreeSet Nat) (queue : List StateId) : Nat :=
  queue.length + unvisited seen a.successors.toList

/-- A visit adds nothing to what is left. -/
theorem unvisited_insert_le (seen : Std.ExtTreeSet Nat) (s : StateId)
    (entries : List (StateId × List StateId)) :
    unvisited (seen.insert s) entries ≤ unvisited seen entries := by
  induction entries with
  | nil => exact Nat.le_refl 0
  | cons entry rest ih =>
      unfold unvisited
      by_cases hseen : entry.1 ∈ seen
      · rw [if_pos hseen, if_pos (Std.ExtTreeSet.mem_insert.mpr (Or.inr hseen))]
        exact Nat.add_le_add_left ih 0
      · rw [if_neg hseen]
        split
        next => exact Nat.add_le_add (Nat.zero_le _) ih
        next => exact Nat.add_le_add_left ih _

/-- What a state has to contribute is used up with its visit. -/
theorem unvisited_insert (seen : Std.ExtTreeSet Nat) (s : StateId) (hs : s ∉ seen)
    (succs : List StateId) (entries : List (StateId × List StateId))
    (h : (s, succs) ∈ entries) :
    unvisited (seen.insert s) entries + succs.length ≤ unvisited seen entries := by
  induction entries with
  | nil => cases h
  | cons entry rest ih =>
      unfold unvisited
      rcases List.mem_cons.mp h with rfl | h
      · rw [if_pos Std.ExtTreeSet.mem_insert_self, if_neg hs, Nat.zero_add, Nat.add_comm]
        exact Nat.add_le_add_left (unvisited_insert_le seen s rest) succs.length
      · rw [Nat.add_assoc]
        refine Nat.add_le_add ?_ (ih h)
        exact unvisited_insert_le seen s [entry]

/-- A visit takes a step, although the successors of the state get into the queue. -/
theorem stepsLeft_visit (a : Accessibility) (seen : Std.ExtTreeSet Nat) (s : StateId)
    (hs : s ∉ seen) (queue : List StateId) :
    stepsLeft a (seen.insert s) (queue ++ a.childrenOf s) < stepsLeft a seen (s :: queue) := by
  have hused : unvisited (seen.insert s) a.successors.toList + (a.childrenOf s).length
      ≤ unvisited seen a.successors.toList := by
    unfold Accessibility.childrenOf
    rw [Std.ExtTreeMap.getD_eq_getD_getElem?]
    rcases hentry : a.successors[s]? with _ | succs
    · exact unvisited_insert_le seen s _
    · exact unvisited_insert seen s hs succs _
        (Std.ExtTreeMap.mem_toList_iff_getElem?_eq_some.mpr hentry)
  unfold stepsLeft
  rw [List.length_append, List.length_cons]
  omega

end Sweep

/-- Visit everything that can be reached from the states in a queue. -/
def sweep (a : Accessibility) (queue : List StateId) (w : Sweep) : Sweep :=
  match queue with
  | [] => w
  | s :: queue =>
    if s ∈ w.seen then sweep a queue w
    else sweep a (queue ++ a.childrenOf s) (w.visit s)
termination_by Sweep.stepsLeft a w.seen queue
decreasing_by
  · exact Nat.add_lt_add_right (Nat.lt_succ_self _) _
  · exact Sweep.stepsLeft_visit a w.seen s ‹s ∉ w.seen› queue

/-- Traverse the graph from an initial state and put that one behind the frontier. -/
def sweepFrom (a : Accessibility) (w : Sweep) (root : StateId) : Sweep :=
  (sweep a (a.childrenOf root) w).enqueue root

/-- Back to the initial states: forget everything that was found from them and
    put those that are missing behind the rest of the frontier. -/
def restart (a : Accessibility) (e : Exploration) : Exploration :=
  (a.initial.foldl (sweepFrom a) ⟨Std.ExtTreeSet.ofList a.initial, e⟩).exploration

end Refinement

end ActorCheck

import ActorCheck.AnalysisError
import ActorCheck.Refine.Precision
import ActorCheck.Term.Alignment

/-!
# Abstract Reachability

The states that an exploration has found, and how they were found from one
another. Refinement reads this structure in four ways: it asks for the initial
states, for the successors and for the predecessor of a state, and for what is
known at a state. `Accessibility` holds the four tables.

A graph under exploration grows by one state at a time, each an initial state
or a successor of one that is there already. `ExploredGraph` keeps the
states in the order of their numbers, every one with its parent and children.

States at which abstraction was applied are the widening states. The trace to
a target is checked block by block between them, so the sequence that matters
consists of the widening states on the way from the root, closed by the target
whether it is one or not.

## Main definitions

* `StateRecord`: What is known at a state.
* `Accessibility`: The tables that refinement reads.
* `Accessibility.wideningPath`: The widening states on the way to a target.
* `ExploredGraph`: A graph under exploration.
* `ExploredGraph.accessibility`: Its tables.
-/

namespace ActorCheck

/-- What is known at an explored state. -/
structure StateRecord where
  /-- Abstraction was applied here. -/
  isWidening : Bool
  /-- The state whose block was widened into this one. -/
  wideningOf : Option StateId
  /-- The precisions of the enclosing blocks, innermost last. -/
  precisions : List Precision
  /-- The formula of the block that ends here. -/
  formula : Term
  /-- The highest instance of each variable in the block. -/
  instances : InstanceMap
  deriving DecidableEq

namespace StateRecord

/-- A state with a block of its own. -/
def new (formula : Term) (instances : InstanceMap) : StateRecord :=
  ⟨false, none, [], formula, instances⟩

/-- A widening state with a block of its own. -/
def widening (formula : Term) (instances : InstanceMap) : StateRecord :=
  ⟨true, none, [], formula, instances⟩

/-- A widening state that takes over the block of another one. -/
def wideningFrom (state : StateId) : StateRecord :=
  ⟨true, some state, [], .bool true, ∅⟩

/-- Add the precision of an inner block. -/
def addPrecision (s : StateRecord) (p : Precision) : StateRecord :=
  { s with precisions := s.precisions ++ [p] }

end StateRecord

/-- The tables through which refinement sees an exploration. -/
structure Accessibility where
  initial : List StateId
  successors : Std.ExtTreeMap StateId (List StateId)
  predecessors : Std.ExtTreeMap StateId StateId
  states : Std.ExtTreeMap StateId StateRecord

namespace Accessibility

/-- The states that were found from a state. -/
def childrenOf (a : Accessibility) (s : StateId) : List StateId := a.successors.getD s []

/-- The state from which a state was found. -/
def parentOf (a : Accessibility) (s : StateId) : Option StateId := a.predecessors[s]?

/-- What is known at a state. -/
def state (a : Accessibility) (s : StateId) : Except AnalysisError StateRecord :=
  match a.states[s]? with
  | some known => .ok known
  | none => .error (.contract (.unknownState s))

/-- The widening states from a state back to the root, put before those behind
    it. A chain of predecessors has no more links than the table has entries. -/
def wideningsBefore (a : Accessibility) :
    Nat → Option StateId → List StateId → Except AnalysisError (List StateId)
  | 0, _, found => .ok found
  | _ + 1, none, found => .ok found
  | links + 1, some s, found => do
    let known ← a.state s
    wideningsBefore a links (a.parentOf s) (if known.isWidening then s :: found else found)

/-- The widening states on the way from the root to a target, closed by the
    target. -/
def wideningPath (a : Accessibility) (target : StateId) :
    Except AnalysisError (List StateId) := do
  let _ ← a.state target
  a.wideningsBefore (a.predecessors.size + 1) (a.parentOf target) [target]

end Accessibility

/-- A state of a graph under exploration with its place in it. -/
structure ExploredNode where
  state : StateRecord
  parent : Option StateId
  children : List StateId

/-- Add a child to a node. -/
def ExploredNode.adopt (n : ExploredNode) (child : StateId) : ExploredNode :=
  { n with children := n.children ++ [child] }

/-- A graph under exploration. States are numbered in the order in which they
    were added. -/
structure ExploredGraph where
  nodes : List ExploredNode
  initial : List StateId

namespace ExploredGraph

/-- The graph without states. -/
def empty : ExploredGraph := ⟨[], []⟩

/-- The number of states. -/
def size (g : ExploredGraph) : Nat := g.nodes.length

/-- Add an initial state. -/
def addInitial (g : ExploredGraph) (s : StateRecord) : ExploredGraph :=
  ⟨g.nodes ++ [⟨s, none, []⟩], g.initial ++ [g.size]⟩

/-- Add a successor of a state that is there. -/
def addSuccessor (g : ExploredGraph) (parent : StateId) (s : StateRecord) :
    Except AnalysisError ExploredGraph :=
  if parent < g.size then
    .ok ⟨g.nodes.modify parent (·.adopt g.size) ++ [⟨s, some parent, []⟩],
      g.initial⟩
  else .error (.contract (.unknownState parent))

/-- Add a state behind its parent, or an initial one if it has none. -/
def add (g : ExploredGraph) (parent : Option StateId) (s : StateRecord) :
    Except AnalysisError ExploredGraph :=
  match parent with
  | some p => g.addSuccessor p s
  | none => .ok (g.addInitial s)

/-- The tables of a graph. -/
def accessibility (g : ExploredGraph) : Accessibility :=
  let numbered := g.nodes.zipIdx
  { initial := g.initial
    successors := Std.ExtTreeMap.ofList (numbered.map fun (n, s) => (s, n.children))
    predecessors :=
      Std.ExtTreeMap.ofList (numbered.filterMap fun (n, s) => n.parent.map fun p => (s, p))
    states := Std.ExtTreeMap.ofList (numbered.map fun (n, s) => (s, n.state)) }

end ExploredGraph

end ActorCheck

import ActorCheck.Flow.Basic

/-!
# Walks and Accepted Words

What a flow means: the sequences of operations that lead from an entry to an
exit. The operation that does nothing leaves no trace, so a word is what
remains of such a sequence when it is dropped.

## Main definitions

* `Flow.Walk`: A way through a flow with the operations it carries.
* `Flow.Accepts`: A word leads from an entry to an exit.
-/

namespace ActorCheck

namespace Flow

/-- A way from one location to another, with the operations along it. -/
inductive Walk (g : Flow) : LocationId → List OperationId → LocationId → Prop where
  | nil (l : LocationId) : Walk g l [] l
  | cons {l m n : LocationId} {op : OperationId} {ops : List OperationId}
      (edge : ⟨l, m, op⟩ ∈ g.edges) (rest : Walk g m ops n) : Walk g l (op :: ops) n

/-- A sequence of operations without those that do nothing. -/
def word (ops : List OperationId) : List OperationId :=
  ops.filter fun op => op != epsilonId

/-- The word leads from some entry to some exit. -/
def Accepts (g : Flow) (w : List OperationId) : Prop :=
  ∃ entry ∈ g.entries, ∃ exit ∈ g.exits, ∃ ops, g.Walk entry ops exit ∧ word ops = w

end Flow

end ActorCheck

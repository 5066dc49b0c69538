import ActorCheck.Flow.Path
import Mathlib.Computability.Language

/-!
# Walks and Languages

The language of a flow consists of the words it accepts. What relates the languages of two flows
is what relates their walks, so this is about how walks are put together, carried over from one
flow to another, and taken apart.

A walk is taken apart where it leaves a part of the flow. If every edge out of that part starts at
one of certain locations, ends at one of certain others and carries one operation, then a walk that
begins in the part and ends outside of it crosses over in one place. Its word is the word of what it
did before, then what is left of that operation, then the word of what it did afterwards. What it
did before stayed within the part.

## Main definitions

* `Flow.language`: The words that a flow accepts.

## Theorems

* `Flow.walk_trans`: One walk after the other.
* `Flow.walk_mono`, `Flow.walk_within`: A walk through another flow.
* `Flow.walk_split`: A walk out of a part of a flow.
-/

namespace ActorCheck

namespace Flow

/-- The words that a flow accepts. -/
def language (g : Flow) : Language OperationId := {w | g.Accepts w}

section Words

@[simp]
theorem word_nil : word [] = [] := rfl

@[simp]
theorem word_append (ops ops' : List OperationId) : word (ops ++ ops') = word ops ++ word ops' :=
  List.filter_append ..

@[simp]
theorem word_silent (ops : List OperationId) : word (epsilonId :: ops) = word ops := rfl

theorem word_cons (op : OperationId) (ops : List OperationId) (h : op ≠ epsilonId) :
    word (op :: ops) = op :: word ops :=
  List.filter_cons_of_pos (bne_iff_ne.mpr h)

end Words

section Walks

variable (g : Flow)

theorem walk_trans (l m n : LocationId) (ops ops' : List OperationId) (h : g.Walk l ops m)
    (h' : g.Walk m ops' n) : g.Walk l (ops ++ ops') n := by
  induction h with
  | nil l => exact h'
  | cons edge _ ih => exact .cons edge (ih h')

/-- A walk leads through every flow with the same edges and more. -/
theorem walk_mono (g' : Flow) (hsub : ∀ e ∈ g.edges, e ∈ g'.edges) (l m : LocationId)
    (ops : List OperationId) (h : g.Walk l ops m) : g'.Walk l ops m := by
  induction h with
  | nil l => exact .nil l
  | cons edge _ ih => exact .cons (hsub _ edge) ih

/-- A walk that begins in a part which no edge leaves is a walk through that part. -/
theorem walk_within (part : Flow) (inside : LocationSet)
    (hstay : ∀ e ∈ g.edges, e.source ∈ inside → e ∈ part.edges ∧ e.target ∈ inside)
    (l m : LocationId) (ops : List OperationId) (hl : l ∈ inside) (h : g.Walk l ops m) :
    part.Walk l ops m ∧ m ∈ inside := by
  induction h with
  | nil l => exact ⟨.nil l, hl⟩
  -- The first edge stays inside, so the rest of the walk begins inside too.
  | cons edge _ ih =>
      rcases hstay _ edge hl with ⟨hpart, htarget⟩
      exact ⟨.cons hpart (ih htarget).1, (ih htarget).2⟩

/-- A walk that begins where no edge leaves ends there. -/
theorem nil_of_walk (l m : LocationId) (ops : List OperationId)
    (hnone : ∀ e ∈ g.edges, e.source ≠ l) (h : g.Walk l ops m) : ops = [] ∧ l = m := by
  cases h with
  | nil => exact ⟨rfl, rfl⟩
  | cons edge _ => exact absurd rfl (hnone _ edge)

/-- A walk that leaves a part of a flow. All edges out of the part come from its exits, lead to the
    given targets and carry the given operation. By induction on the walk, which leaves the part
    with its first edge or later. -/
theorem walk_split (part : Flow) (inside targets : LocationSet) (across : OperationId)
    (hleave : ∀ e ∈ g.edges, e.source ∈ inside → (e ∈ part.edges ∧ e.target ∈ inside)
      ∨ (e.source ∈ part.exits ∧ e.target ∈ targets ∧ e.op = across))
    (l m : LocationId) (ops : List OperationId) (hl : l ∈ inside) (hm : m ∉ inside)
    (h : g.Walk l ops m) :
    ∃ exit ∈ part.exits, ∃ target ∈ targets, ∃ before after, part.Walk l before exit
      ∧ g.Walk target after m ∧ ops = before ++ across :: after := by
  induction h with
  | nil l => exact absurd hl hm
  | @cons l n m op ops edge hrest ih =>
      -- Either the first edge stays in the part and the rest leaves it later, or it is the one that
      -- leaves it.
      rcases hleave _ edge hl with ⟨hpart, hn⟩ | ⟨hexit, htarget, rfl⟩
      · rcases ih hn hm with ⟨exit, hexit, target, htarget, before, after, hwalk, hafter, rfl⟩
        exact ⟨exit, hexit, target, htarget, op :: before, after, .cons hpart hwalk, hafter, rfl⟩
      · exact ⟨l, hexit, n, htarget, [], ops, .nil l, hrest, rfl⟩

end Walks

end Flow

end ActorCheck

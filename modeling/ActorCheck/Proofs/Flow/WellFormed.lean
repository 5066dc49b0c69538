import ActorCheck.Flow.Basic
import ActorCheck.Proofs.Flow.Closures

/-!
# Well-Formed Flows

A flow is well formed if whatever it mentions is a location of it. What it mentions are the ends of
its edges, its entries and its exits, so this comes down to three facts, and results about flows
take them one at a time. The search for a location that is missing finds none exactly if the flow
is well formed.

## Theorems

* `Flow.wellFormed_iff`: The ends of all edges, all entries and all exits are locations.
* `Flow.dangling_eq_none_iff`: Nothing is found to be missing.
-/

namespace ActorCheck

namespace Flow

instance decidableWellFormed (g : Flow) : Decidable g.WellFormed :=
  inferInstanceAs (Decidable (∀ l ∈ g.mentioned, l ∈ g.locations))

theorem mem_singleton_iff (l m : LocationId) : m ∈ ((∅ : LocationSet).insert l) ↔ m = l := by
  rw [mem_insert_iff]
  exact or_iff_left Std.ExtTreeSet.not_mem_empty

theorem toList_singleton (l : LocationId) : ((∅ : LocationSet).insert l).toList = [l] := by
  -- The list has one element, as the set has, and its only element is the one that was put in.
  have hlength : ((∅ : LocationSet).insert l).toList.length = 1 := by
    rw [Std.ExtTreeSet.length_toList, Std.ExtTreeSet.size_insert, Std.ExtTreeSet.contains_empty,
      if_neg Bool.false_ne_true, Std.ExtTreeSet.size_empty]
  rcases List.length_eq_one_iff.mp hlength with ⟨m, hm⟩
  have hmem : l ∈ ((∅ : LocationSet).insert l).toList :=
    Std.ExtTreeSet.mem_toList.mpr Std.ExtTreeSet.mem_insert_self
  rw [hm] at hmem ⊢
  rw [List.mem_singleton.mp hmem]

theorem mem_mentioned_iff (g : Flow) (l : LocationId) :
    l ∈ g.mentioned
      ↔ (∃ e ∈ g.edges, l = e.source ∨ l = e.target) ∨ l ∈ g.entries ∨ l ∈ g.exits := by
  unfold mentioned
  rw [List.mem_append, List.mem_append, List.mem_flatMap, Std.ExtTreeSet.mem_toList,
    Std.ExtTreeSet.mem_toList, or_assoc]
  refine or_congr_left (exists_congr fun e => ?_)
  rw [Std.ExtTreeSet.mem_toList, List.mem_cons, List.mem_singleton]

/-- The ends of all edges, all entries and all exits are locations. -/
theorem wellFormed_iff (g : Flow) :
    g.WellFormed
      ↔ (∀ e ∈ g.edges, e.source ∈ g.locations ∧ e.target ∈ g.locations)
        ∧ (∀ l ∈ g.entries, l ∈ g.locations) ∧ ∀ l ∈ g.exits, l ∈ g.locations := by
  have hmem := g.mem_mentioned_iff
  constructor
  · intro h
    refine ⟨fun e he => ⟨h _ ?_, h _ ?_⟩, fun l hl => h l ?_, fun l hl => h l ?_⟩
    · exact (hmem _).mpr (Or.inl ⟨e, he, Or.inl rfl⟩)
    · exact (hmem _).mpr (Or.inl ⟨e, he, Or.inr rfl⟩)
    · exact (hmem l).mpr (Or.inr (Or.inl hl))
    · exact (hmem l).mpr (Or.inr (Or.inr hl))
  -- What is mentioned is the end of an edge, an entry or an exit.
  · rintro ⟨hedges, hentries, hexits⟩ l hl
    rcases (hmem l).mp hl with ⟨e, he, rfl | rfl⟩ | hentry | hexit
    · exact (hedges e he).1
    · exact (hedges e he).2
    · exact hentries l hentry
    · exact hexits l hexit

theorem mem_locations_of_edge (g : Flow) (e : Edge) (h : g.WellFormed) (he : e ∈ g.edges) :
    e.source ∈ g.locations ∧ e.target ∈ g.locations :=
  (g.wellFormed_iff.mp h).1 e he

theorem mem_locations_of_entry (g : Flow) (l : LocationId) (h : g.WellFormed)
    (hl : l ∈ g.entries) : l ∈ g.locations :=
  (g.wellFormed_iff.mp h).2.1 l hl

theorem mem_locations_of_exit (g : Flow) (l : LocationId) (h : g.WellFormed)
    (hl : l ∈ g.exits) : l ∈ g.locations :=
  (g.wellFormed_iff.mp h).2.2 l hl

/-- Nothing is found to be missing exactly in a well-formed flow. -/
theorem dangling_eq_none_iff (g : Flow) : g.dangling? = none ↔ g.WellFormed := by
  unfold dangling? WellFormed
  rw [List.find?_eq_none]
  refine forall₂_congr fun l _ => ?_
  rw [Bool.not_eq_true, Bool.not_eq_false', Std.ExtTreeSet.contains_iff_mem]

end Flow

end ActorCheck

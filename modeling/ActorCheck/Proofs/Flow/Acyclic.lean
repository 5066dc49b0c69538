import ActorCheck.Flow.Loops
import ActorCheck.Proofs.Flow.Walks
import ActorCheck.Proofs.Flow.WellFormed
import Mathlib.Data.List.Nodup
import Mathlib.Data.List.Perm.Subperm

/-!
# Acyclic Flows

In an acyclic flow no walk comes back to where it began. Two things follow. The search for natural
loops finds none: the head of a loop dominates the source of an edge back to it, so a walk leads
from the head to that source, and the edge closes a cycle. And walks are short: all locations along
a walk are different, so there are fewer steps than locations.

The search for loops works with closures, so the first of these rests on both directions of what a
closure contains. What a location dominates cannot be reached without it, which only tells
something about walks if nothing is missing from the closure.

## Main definitions

* `Flow.Acyclic`: No walk comes back to where it began.
* `Flow.AcyclicFrom`: No such walk can be reached from a location.

## Theorems

* `Flow.acyclic_of_levels`, `Flow.acyclic_of_rank`: A flow whose edges lead upwards, or stay on a
  level where they close no cycle.
* `Flow.exists_walk`: What can be reached along arrows can be reached by a walk.
* `Flow.reaches_of_dominates`: A dominator leads to what it dominates.
* `Flow.hasLoops_of_acyclic`: An acyclic flow has no loops.
* `Flow.length_of_walk`: A walk with no cycle behind it has fewer steps than there are locations.
-/

namespace ActorCheck

namespace Flow

/-- No walk with at least one step comes back to where it began. -/
def Acyclic (g : Flow) : Prop := ∀ l ops, g.Walk l ops l → ops = []

/-- The same for the walks of a location that a location leads to. -/
def AcyclicFrom (g : Flow) (l : LocationId) : Prop :=
  ∀ n before, g.Walk l before n → ∀ ops, g.Walk n ops n → ops = []

section Walks

variable (g : Flow)

theorem mem_arrows (l m : LocationId) : (l, m) ∈ g.arrows ↔ ∃ op, ⟨l, m, op⟩ ∈ g.edges := by
  unfold arrows
  rw [List.mem_map]
  constructor
  · rintro ⟨e, he, heq⟩
    cases heq
    exact ⟨e.op, Std.ExtTreeSet.mem_toList.mp he⟩
  · rintro ⟨op, hop⟩
    exact ⟨_, Std.ExtTreeSet.mem_toList.mpr hop, rfl⟩

/-- A flow none of whose edges lead downwards is acyclic, if the edges on each level belong to an
    acyclic flow. A walk that comes back to where it began stays on one level. -/
theorem acyclic_of_levels (level : LocationId → Nat) (part : Nat → Flow)
    (hpart : ∀ n, (part n).Acyclic)
    (h : ∀ e ∈ g.edges, level e.source < level e.target
      ∨ (level e.source = level e.target ∧ e ∈ (part (level e.source)).edges)) : g.Acyclic := by
  -- A walk climbs to a higher level, or it stays on its level and within the flow of that level.
  have hup : ∀ l ops m, g.Walk l ops m →
      level l < level m ∨ (level l = level m ∧ (part (level l)).Walk l ops m) := by
    intro l ops m hwalk
    induction hwalk with
    | nil l => exact Or.inr ⟨rfl, .nil l⟩
    | cons edge _ ih =>
        rcases h _ edge with hfirst | ⟨hsame, hedge⟩
        · rcases ih with hrest | ⟨hrest, _⟩
          · exact Or.inl (Nat.lt_trans hfirst hrest)
          · exact Or.inl (hrest ▸ hfirst)
        · rcases ih with hrest | ⟨hrest, hwithin⟩
          · exact Or.inl (Nat.lt_of_le_of_lt (Nat.le_of_eq hsame) hrest)
          · exact Or.inr ⟨hsame.trans hrest, .cons hedge (hsame ▸ hwithin)⟩
  intro l ops hwalk
  rcases hup l ops l hwalk with hless | ⟨_, hwithin⟩
  · exact absurd hless (Nat.lt_irrefl _)
  · exact hpart _ l ops hwithin

/-- A flow without edges is acyclic. -/
theorem acyclic_of_edges (h : ∀ e, e ∉ g.edges) : g.Acyclic := by
  intro l ops hwalk
  cases hwalk with
  | nil => rfl
  | cons edge _ => exact absurd edge (h _)

/-- A flow all of whose edges lead upwards has no cycles. -/
theorem acyclic_of_rank (rank : LocationId → Nat)
    (h : ∀ e ∈ g.edges, rank e.source < rank e.target) : g.Acyclic :=
  g.acyclic_of_levels rank (fun _ => empty)
    (fun _ => empty.acyclic_of_edges fun _ => Std.ExtTreeSet.not_mem_empty)
    fun e he => Or.inl (h e he)

/-- What can be reached along arrows can be reached by a walk. -/
theorem exists_walk (l m : LocationId) (h : Relation.ReflTransGen (Along g.arrows) l m) :
    ∃ ops, g.Walk l ops m := by
  induction h with
  | refl => exact ⟨[], .nil l⟩
  | tail _ hlast ih =>
      rcases ih with ⟨ops, hwalk⟩
      rcases (g.mem_arrows _ _).mp hlast with ⟨op, hop⟩
      exact ⟨ops ++ [op], g.walk_trans _ _ _ _ _ hwalk (.cons hop (.nil _))⟩

/-- A dominator leads to what it dominates. Along the way from an entry, whatever is not behind the
    dominator can be reached without it. -/
theorem reaches_of_dominates (h l : LocationId) (hdom : g.dominates h l = true) :
    Relation.ReflTransGen (Along g.arrows) h l := by
  unfold dominates at hdom
  rw [Bool.and_eq_true, Bool.not_eq_true', Bool.eq_false_iff] at hdom
  rcases hdom with ⟨hreach, havoid⟩
  rcases (mem_closure_iff _ _ _).mp (Std.ExtTreeSet.contains_iff_mem.mp hreach) with
    ⟨entry, hentry, hway⟩
  -- Along the way from the entry: as long as the dominator was not met, the way avoids it.
  have hall : l ∈ g.reachableAvoiding h ∨ Relation.ReflTransGen (Along g.arrows) h l := by
    clear hreach havoid
    induction hway with
    | refl =>
        by_cases hsame : entry = h
        · exact Or.inr (hsame ▸ .refl)
        · refine Or.inl ((mem_closure_iff _ _ _).mpr ⟨entry, ?_, .refl⟩)
          rw [Std.ExtTreeSet.mem_erase]
          exact ⟨fun heq => hsame (Std.LawfulEqCmp.eq_of_compare heq).symm, hentry⟩
    | @tail m n _ hlast ih =>
        rcases ih with hclosed | hbehind
        · by_cases hm : m = h
          · exact Or.inr (hm ▸ .single hlast)
          -- Neither end of the last arrow is the dominator, so the way still avoids it.
          · by_cases hn : n = h
            · exact Or.inr (hn ▸ .refl)
            · rcases (mem_closure_iff _ _ _).mp hclosed with ⟨start, hstart, hbefore⟩
              refine Or.inl ((mem_closure_iff _ _ _).mpr ⟨start, hstart, hbefore.tail ?_⟩)
              refine List.mem_filter.mpr ⟨hlast, ?_⟩
              rw [Bool.and_eq_true, bne_iff_ne, bne_iff_ne]
              exact ⟨hm, hn⟩
        · exact Or.inr (hbehind.tail hlast)
  exact hall.resolve_left fun hmem => havoid (Std.ExtTreeSet.contains_iff_mem.mpr hmem)

/-- The locations along a walk are all different, if no cycle lies behind its beginning. -/
theorem visited_of_walk (l m : LocationId) (ops : List OperationId) (hwell : g.WellFormed)
    (hl : l ∈ g.locations) (hacyclic : g.AcyclicFrom l) (h : g.Walk l ops m) :
    ∃ visited : List LocationId, visited.length = ops.length + 1 ∧ visited.Nodup
      ∧ ∀ n ∈ visited, n ∈ g.locations ∧ ∃ ops', g.Walk l ops' n := by
  -- By induction on the walk. That no cycle lies behind its beginning is passed on to the next
  -- location.
  induction h with
  | nil l => exact ⟨[l], rfl, List.nodup_singleton l,
      List.forall_mem_singleton.mpr ⟨hl, [], .nil l⟩⟩
  | @cons l m n op ops edge _ ih =>
      have hbehind : g.AcyclicFrom m := fun k ops' hway => hacyclic k (op :: ops') (.cons edge hway)
      rcases ih (g.mem_locations_of_edge _ hwell edge).2 hbehind with
        ⟨visited, hlength, hnodup, hall⟩
      refine ⟨l :: visited, by rw [List.length_cons, hlength, List.length_cons],
        List.nodup_cons.mpr ⟨fun hback => ?_, hnodup⟩, List.forall_mem_cons.mpr ⟨⟨hl, [], .nil l⟩,
          fun n hn => ?_⟩⟩
      -- If the beginning came up again on the way, there would be a cycle behind it.
      · rcases hall l hback with ⟨_, ops', hwalk⟩
        exact absurd (hacyclic l [] (.nil l) _ (.cons edge hwalk)) (List.cons_ne_nil _ _)
      · rcases hall n hn with ⟨hin, ops', hwalk⟩
        exact ⟨hin, op :: ops', .cons edge hwalk⟩

/-- A walk with no cycle behind its beginning has fewer steps than there are locations. -/
theorem length_of_walk (l m : LocationId) (ops : List OperationId) (hwell : g.WellFormed)
    (hl : l ∈ g.locations) (hacyclic : g.AcyclicFrom l) (h : g.Walk l ops m) :
    ops.length < g.locations.size := by
  rcases g.visited_of_walk l m ops hwell hl hacyclic h with ⟨visited, hlength, hnodup, hall⟩
  -- Different locations, all of the flow, so they are no more than there are.
  have hsub : visited.Subperm g.locations.toList :=
    List.subperm_of_subset hnodup fun n hn => Std.ExtTreeSet.mem_toList.mpr (hall n hn).1
  have hle := hsub.length_le
  rw [Std.ExtTreeSet.length_toList] at hle
  omega

end Walks

variable (g : Flow) (hacyclic : g.Acyclic)

include hacyclic

/-- An acyclic flow has no loops. -/
theorem hasLoops_of_acyclic : g.hasLoops = false := by
  unfold hasLoops
  rw [Bool.not_eq_false', List.isEmpty_iff, loopHeads, List.filter_eq_nil_iff]
  intro h _ hhead
  unfold isLoopHead latches at hhead
  rw [Bool.not_eq_true', List.isEmpty_eq_false_iff_exists_mem] at hhead
  rcases hhead with ⟨_, hlatch⟩
  rcases List.mem_map.mp hlatch with ⟨⟨l, m⟩, hback, rfl⟩
  rcases List.mem_filter.mp hback with ⟨harrow, hcond⟩
  rw [Bool.and_eq_true, beq_iff_eq] at hcond
  rcases hcond with ⟨rfl, hdom⟩
  -- The way from the head to the latch and the edge back close a cycle.
  rcases g.exists_walk m l (g.reaches_of_dominates m l hdom) with ⟨ops, hwalk⟩
  rcases (g.mem_arrows l m).mp harrow with ⟨op, hop⟩
  have hcycle := hacyclic m _ (g.walk_trans _ _ _ _ _ hwalk (.cons hop (.nil m)))
  exact absurd hcycle (by simp)

/-- An acyclic flow has no cycles behind any location. -/
theorem acyclicFrom_of_acyclic (l : LocationId) : g.AcyclicFrom l :=
  fun n _ _ ops hround => hacyclic n ops hround

end Flow

end ActorCheck

import ActorCheck.Flow.Loops
import ActorCheck.Proofs.Flow.Acyclic
import ActorCheck.Proofs.Flow.Closures
import ActorCheck.Proofs.Flow.Walks

/-!
# Routes

A walk records the operations it carries, and two walks with the same operations may lead through
different locations. What dominates what is a question about locations, so a route records those
instead: all of them in order, both ends included.

The search for loops works with three closures: what an entry leads to, what it leads to without a
given location, and what leads back to the sources of certain edges. Each is here restated as the
existence of a route. For the last of the three the head of the loop may be where a route begins,
which happens if the head lies in its own loop by an edge to itself, and nowhere else.

## Main definitions

* `Flow.Route`: A way through a flow, with the locations along it.

## Theorems

* `Flow.route_append`: One route after the other.
* `Flow.route_from_last`: The rest of a route after it was in a location for the last time.
* `Flow.exists_route_of_walk`, `Flow.exists_walk_of_route`: Walks and routes.
* `Flow.mem_reachable_iff`: What an entry leads to.
* `Flow.mem_reachableAvoiding_iff`: What an entry leads to without a location.
* `Flow.back_iff`: What leads back.
-/

namespace ActorCheck

namespace Flow

/-- A way from one location to another, with the locations along it. -/
inductive Route (g : Flow) : LocationId → List LocationId → LocationId → Prop where
  | stay (l : LocationId) : Route g l [l] l
  | go {l m n : LocationId} {op : OperationId} {visited : List LocationId}
      (edge : ⟨l, m, op⟩ ∈ g.edges) (rest : Route g m visited n) : Route g l (l :: visited) n

variable (g : Flow)

section Routes

theorem start_mem_of_route (l n : LocationId) (visited : List LocationId)
    (h : g.Route l visited n) : l ∈ visited := by
  cases h with
  | stay => exact List.mem_singleton_self l
  | go _ _ => exact List.mem_cons_self

theorem end_mem_of_route (l n : LocationId) (visited : List LocationId)
    (h : g.Route l visited n) : n ∈ visited := by
  induction h with
  | stay l => exact List.mem_singleton_self l
  | go _ _ ih => exact List.mem_cons_of_mem _ ih

/-- One route after the other. Where they meet is visited once. -/
theorem route_append (l m n : LocationId) (before after : List LocationId)
    (h : g.Route l before m) (h' : g.Route m (m :: after) n) : g.Route l (before ++ after) n := by
  induction h with
  | stay m => exact h'
  | go edge _ ih => exact .go edge (ih h')

/-- A route that goes on along one more edge. -/
theorem route_snoc (l m n : LocationId) (op : OperationId) (visited : List LocationId)
    (h : g.Route l visited m) (edge : ⟨m, n, op⟩ ∈ g.edges) : g.Route l (visited ++ [n]) n :=
  g.route_append l m n visited [n] h (.go edge (.stay n))

/-- The rest of a route after it was in a location for the last time. -/
theorem route_from_last (l m n : LocationId) (visited : List LocationId)
    (h : g.Route l visited n) (hm : m ∈ visited) :
    ∃ after, m ∉ after ∧ (∀ k ∈ after, k ∈ visited) ∧ g.Route m (m :: after) n := by
  -- By induction on the route. What matters is whether the location still comes up after the next
  -- step.
  induction h with
  | stay l =>
      rw [List.mem_singleton.mp hm]
      exact ⟨[], List.not_mem_nil, nofun, .stay l⟩
  | @go l k n op visited edge rest ih =>
      by_cases hlater : m ∈ visited
      · rcases ih hlater with ⟨after, hlast, hsub, hroute⟩
        exact ⟨after, hlast, fun i hi => List.mem_cons_of_mem l (hsub i hi), hroute⟩
      · -- The route was there at its very beginning.
        have hsame : m = l := (List.mem_cons.mp hm).resolve_right hlater
        subst hsame
        exact ⟨visited, hlater, fun i hi => List.mem_cons_of_mem m hi, .go edge rest⟩

/-- A walk leads along some route, with one location more than there are operations. -/
theorem exists_route_of_walk (l n : LocationId) (ops : List OperationId) (h : g.Walk l ops n) :
    ∃ visited, g.Route l visited n ∧ visited.length = ops.length + 1 := by
  induction h with
  | nil l => exact ⟨[l], .stay l, rfl⟩
  | @cons l m n op ops edge _ ih =>
      rcases ih with ⟨visited, hroute, hlength⟩
      refine ⟨l :: visited, .go edge hroute, ?_⟩
      rw [List.length_cons, hlength, List.length_cons]

/-- A route carries some operations. -/
theorem exists_walk_of_route (l n : LocationId) (visited : List LocationId)
    (h : g.Route l visited n) : ∃ ops, g.Walk l ops n := by
  induction h with
  | stay l => exact ⟨[], .nil l⟩
  | @go l m n op visited edge _ ih =>
      rcases ih with ⟨ops, hwalk⟩
      exact ⟨op :: ops, .cons edge hwalk⟩

end Routes

section Closures

theorem mem_reachable_iff (l : LocationId) :
    l ∈ g.reachable ↔ ∃ entry ∈ g.entries, ∃ visited, g.Route entry visited l := by
  unfold reachable
  rw [mem_closure_iff]
  constructor
  · rintro ⟨entry, hentry, hway⟩
    rcases g.exists_walk entry l hway with ⟨ops, hwalk⟩
    rcases g.exists_route_of_walk entry l ops hwalk with ⟨visited, hroute, _⟩
    exact ⟨entry, hentry, visited, hroute⟩
  · rintro ⟨entry, hentry, visited, hroute⟩
    refine ⟨entry, hentry, ?_⟩
    clear hentry
    induction hroute with
    | stay l => exact .refl
    | go edge _ ih => exact .head ((g.mem_arrows _ _).mpr ⟨_, edge⟩) ih

theorem reachable_of_entry (entry : LocationId) (h : entry ∈ g.entries) : entry ∈ g.reachable :=
  (g.mem_reachable_iff entry).mpr ⟨entry, h, [entry], .stay entry⟩

theorem reachable_of_edge (l m : LocationId) (op : OperationId) (hl : l ∈ g.reachable)
    (edge : ⟨l, m, op⟩ ∈ g.edges) : m ∈ g.reachable := by
  rcases (g.mem_reachable_iff l).mp hl with ⟨entry, hentry, visited, hroute⟩
  exact (g.mem_reachable_iff m).mpr
    ⟨entry, hentry, visited ++ [m], g.route_snoc entry l m op visited hroute edge⟩

theorem reachable_of_route (l n : LocationId) (visited : List LocationId) (hl : l ∈ g.reachable)
    (h : g.Route l visited n) : ∀ m ∈ visited, m ∈ g.reachable := by
  induction h with
  | stay l => exact List.forall_mem_singleton.mpr hl
  | go edge _ ih => exact List.forall_mem_cons.mpr ⟨hl, ih (g.reachable_of_edge _ _ _ hl edge)⟩

/-- What an entry leads to without a location. -/
theorem mem_reachableAvoiding_iff (h l : LocationId) :
    l ∈ g.reachableAvoiding h
      ↔ ∃ entry ∈ g.entries, ∃ visited, g.Route entry visited l ∧ h ∉ visited := by
  unfold reachableAvoiding
  rw [mem_closure_iff]
  constructor
  · rintro ⟨entry, hentry, hway⟩
    rw [Std.ExtTreeSet.mem_erase] at hentry
    have hne : h ≠ entry := fun heq => hentry.1 (heq ▸ Std.ReflCmp.compare_self)
    refine ⟨entry, hentry.2, ?_⟩
    -- By induction from the entry on. The location of the last step is not the one to be avoided.
    induction hway with
    | refl => exact ⟨[entry], .stay entry, fun hmem => hne (List.mem_singleton.mp hmem)⟩
    | @tail m n _ hlast ih =>
        rcases ih with ⟨visited, hroute, havoid⟩
        rcases List.mem_filter.mp hlast with ⟨harrow, hcond⟩
        rw [Bool.and_eq_true, bne_iff_ne, bne_iff_ne] at hcond
        rcases (g.mem_arrows m n).mp harrow with ⟨op, hop⟩
        refine ⟨visited ++ [n], g.route_snoc entry m n op visited hroute hop, fun hmem => ?_⟩
        rcases List.mem_append.mp hmem with hmem | hmem
        · exact havoid hmem
        · exact hcond.2 (List.mem_singleton.mp hmem).symm
  · rintro ⟨entry, hentry, visited, hroute, havoid⟩
    refine ⟨entry, ?_, ?_⟩
    · rw [Std.ExtTreeSet.mem_erase]
      refine ⟨fun heq => havoid ?_, hentry⟩
      rw [Std.LawfulEqCmp.eq_of_compare heq]
      exact g.start_mem_of_route entry l visited hroute
    · clear hentry
      -- By induction from the beginning on. Both ends of every edge lie on the route, so none is
      -- avoided.
      induction hroute with
      | stay l => exact .refl
      | @go l m n op visited edge rest ih =>
          rw [List.mem_cons, not_or] at havoid
          refine .head (List.mem_filter.mpr ⟨(g.mem_arrows l m).mpr ⟨op, edge⟩, ?_⟩) (ih havoid.2)
          have hm : h ≠ m := fun heq =>
            havoid.2 (heq ▸ g.start_mem_of_route m n visited rest)
          rw [Bool.and_eq_true, bne_iff_ne, bne_iff_ne]
          exact ⟨fun heq => havoid.1 heq.symm, hm.symm⟩

theorem mem_arrowsBackTo_iff (h l m : LocationId) :
    (m, l) ∈ g.arrowsBackTo h
      ↔ (∃ op, ⟨l, m, op⟩ ∈ g.edges) ∧ l ∈ g.reachable ∧ m ≠ h := by
  unfold arrowsBackTo
  rw [List.mem_map, ← g.mem_arrows l m]
  constructor
  · rintro ⟨a, ha, heq⟩
    rcases List.mem_filter.mp ha with ⟨harrow, hcond⟩
    cases heq
    rw [Bool.and_eq_true, Std.ExtTreeSet.contains_iff_mem, bne_iff_ne] at hcond
    exact ⟨harrow, hcond⟩
  · rintro ⟨harrow, hcond⟩
    refine ⟨(l, m), List.mem_filter.mpr ⟨harrow, ?_⟩, rfl⟩
    rw [Bool.and_eq_true, Std.ExtTreeSet.contains_iff_mem, bne_iff_ne]
    exact hcond

/-- What leads back to a location, without passing through the head of the loop on the way. -/
theorem back_iff (h u l : LocationId) (hu : u ∈ g.reachable) :
    Relation.ReflTransGen (Along (g.arrowsBackTo h)) u l
      ↔ l ∈ g.reachable ∧ ∃ visited, g.Route l (l :: visited) u ∧ h ∉ visited := by
  constructor
  · intro hway
    -- Backwards means that the route grows at its beginning.
    induction hway with
    | refl => exact ⟨hu, [], .stay u, List.not_mem_nil⟩
    | @tail m l _ hlast ih =>
        rcases ih with ⟨_, visited, hroute, havoid⟩
        rcases (g.mem_arrowsBackTo_iff h l m).mp hlast with ⟨⟨op, hop⟩, hl, hne⟩
        refine ⟨hl, m :: visited, .go hop hroute, fun hmem => ?_⟩
        rcases List.mem_cons.mp hmem with heq | hmem
        · exact hne heq.symm
        · exact havoid hmem
  · rintro ⟨hl, visited, hroute, havoid⟩
    -- Backwards along the route, which has to be taken as a whole for the induction.
    generalize hall : l :: visited = all at hroute
    induction hroute generalizing visited with
    | stay l => exact .refl
    | @go l m n op rest edge hrest ih =>
        cases hall
        have hm := g.reachable_of_edge l m op hl edge
        have hmem := g.start_mem_of_route m n rest hrest
        have hne : m ≠ h := fun heq => havoid (heq ▸ hmem)
        refine .tail ?_ ((g.mem_arrowsBackTo_iff h l m).mpr ⟨⟨op, edge⟩, hl, hne⟩)
        cases hrest with
        | stay m => exact .refl
        | go edge' rest' =>
            exact ih hu hm _ (fun hin => havoid (List.mem_cons_of_mem m hin)) rfl

end Closures

end Flow

end ActorCheck

import ActorCheck.Proofs.Flow.Dominators

/-!
# Natural Loops

What the search for loops finds, told by routes. An edge leads back if its target dominates its
source, and its target is then the head of a loop. The loop consists of the head and of everything
from which the source of such an edge can be reached without coming through the head again. Loops
with the same head are one loop.

Nothing is assumed of the flow. Entries may be several and have edges that lead to them, edges may
lead from a location to itself, and predecessors that no entry leads to do not count.

All that is computed on the way is computed until it does not change any more. The closures that
the search takes are closed, so a further pass adds nothing. Guessing dominators sweep by sweep
ends as well, with the very dominators that the search works with.

## Main definitions

* `Flow.Entered`: Some entry leads to a location.
* `Flow.LeadsBack`: An edge leads from a location back to one that dominates it.

## Theorems

* `Flow.mem_latches_iff`: The sources of edges back to a location.
* `Flow.isLoopHead_iff`, `Flow.mem_loopBody_iff`: The heads and the bodies of loops.
* `Flow.hasLoops_iff`: A flow has loops if it has a head.
* `Flow.loops_are_natural`: The search finds exactly the natural loops.
-/

namespace ActorCheck

namespace Flow

variable (g : Flow)

/-- Some entry leads to the location. -/
def Entered (l : LocationId) : Prop := ∃ entry ∈ g.entries, ∃ visited, g.Route entry visited l

/-- An edge leads from `u`, which is reachable, back to `h`, which dominates it. -/
structure LeadsBack (u h : LocationId) : Prop where
  entered : g.Entered u
  edge : ∃ op, ⟨u, h, op⟩ ∈ g.edges
  dominated : g.Dominates h u

theorem mem_latches_iff (h u : LocationId) : u ∈ g.latches h ↔ g.LeadsBack u h := by
  unfold latches
  rw [List.mem_map]
  constructor
  · rintro ⟨⟨v, k⟩, hmem, rfl⟩
    rcases List.mem_filter.mp hmem with ⟨harrow, hcond⟩
    rw [Bool.and_eq_true, beq_iff_eq] at hcond
    rcases hcond with ⟨rfl, hdom⟩
    rcases (g.dominates_iff k v).mp hdom with ⟨hreach, hall⟩
    exact ⟨(g.mem_reachable_iff v).mp hreach, (g.mem_arrows v k).mp harrow, hall⟩
  · intro hback
    have hdom := (g.dominates_iff h u).mpr
      ⟨(g.mem_reachable_iff u).mpr hback.entered, hback.dominated⟩
    refine ⟨(u, h), List.mem_filter.mpr ⟨(g.mem_arrows u h).mpr hback.edge, ?_⟩, rfl⟩
    rw [Bool.and_eq_true, beq_iff_eq]
    exact ⟨rfl, hdom⟩

theorem isLoopHead_iff (h : LocationId) : g.isLoopHead h = true ↔ ∃ u, g.LeadsBack u h := by
  unfold isLoopHead
  rw [Bool.not_eq_true', List.isEmpty_eq_false_iff_exists_mem]
  exact exists_congr fun u => g.mem_latches_iff h u

/-- The head of a loop is reachable, so it is found among the reachable locations. -/
theorem hasLoops_iff : g.hasLoops = true ↔ ∃ h u, g.LeadsBack u h := by
  unfold hasLoops
  rw [Bool.not_eq_true', List.isEmpty_eq_false_iff_exists_mem]
  refine exists_congr fun h => ?_
  unfold loopHeads
  rw [List.mem_filter, Std.ExtTreeSet.mem_toList, g.isLoopHead_iff, and_iff_right_iff_imp]
  -- It is reached by the edge that leads back to it.
  rintro ⟨u, hback⟩
  rcases hback.edge with ⟨op, hop⟩
  exact g.reachable_of_edge u h op ((g.mem_reachable_iff u).mpr hback.entered) hop

/-- The body of a loop: the head, and what leads to the source of an edge back without passing
    through the head. -/
theorem mem_loopBody_iff (h l : LocationId) :
    l ∈ g.loopBody h ↔ l = h
      ∨ g.Entered l ∧ ∃ u, g.LeadsBack u h ∧ ∃ visited, g.Route l visited u ∧ h ∉ visited := by
  have hseeds : ∀ u, u ∈ (Std.ExtTreeSet.ofList (h :: g.latches h) : LocationSet)
      ↔ u = h ∨ g.LeadsBack u h := by
    intro u
    rw [Std.ExtTreeSet.mem_ofList, List.contains_iff_mem, List.mem_cons, g.mem_latches_iff]
  unfold loopBody
  rw [mem_closure_iff]
  constructor
  · rintro ⟨u, hu, hway⟩
    -- The head is in the body anyway. Anything else comes from the source of an edge that leads
    -- back.
    by_cases hl : l = h
    · exact Or.inl hl
    · refine Or.inr ?_
      rcases (hseeds u).mp hu with rfl | hback
      · -- No arrow of the closure starts at the head.
        rcases Relation.ReflTransGen.cases_head hway with heq | ⟨k, hfirst, _⟩
        · exact absurd heq.symm hl
        · exact absurd rfl ((g.mem_arrowsBackTo_iff u k u).mp hfirst).2.2
      · have hreach := (g.mem_reachable_iff u).mpr hback.entered
        rcases (g.back_iff h u l hreach).mp hway with ⟨hin, visited, hroute, havoid⟩
        refine ⟨(g.mem_reachable_iff l).mp hin, u, hback, l :: visited, hroute, ?_⟩
        rw [List.mem_cons, not_or]
        exact ⟨fun heq => hl heq.symm, havoid⟩
  · rintro (rfl | ⟨hin, u, hback, visited, hroute, havoid⟩)
    · exact ⟨l, (hseeds l).mpr (Or.inl rfl), .refl⟩
    · refine ⟨u, (hseeds u).mpr (Or.inr hback), ?_⟩
      have hreach := (g.mem_reachable_iff u).mpr hback.entered
      refine (g.back_iff h u l hreach).mpr ⟨(g.mem_reachable_iff l).mpr hin, ?_⟩
      -- The way avoids the head from its start on, but the closure only asks for this behind the
      -- start.
      cases hroute with
      | stay => exact ⟨[], .stay l, List.not_mem_nil⟩
      | go edge rest =>
          exact ⟨_, .go edge rest, fun hmem => havoid (List.mem_cons_of_mem l hmem)⟩

/-- The search for loops finds exactly the natural loops. A location is a head if an edge leads
    back to it, and the body of its loop is what leads to such an edge without passing through it.
    The closures that the search takes are final, and sweeping over guessed dominators ends with
    those that the search uses. -/
theorem loops_are_natural :
    (∀ h, g.isLoopHead h = true ↔ ∃ u, g.LeadsBack u h)
      ∧ (∀ h body, g.loopBody? h = some body ↔ (∃ u, g.LeadsBack u h) ∧ ∀ l, l ∈ body ↔ l = h
        ∨ g.Entered l ∧ ∃ u, g.LeadsBack u h ∧ ∃ visited, g.Route l visited u ∧ h ∉ visited)
      ∧ (∀ arrows s, spread arrows (closure arrows s) = closure arrows s)
      ∧ ∃ n, g.sweep (g.sweeps n) = g.sweeps n
        ∧ ∀ h u, g.Entered u → (h ∈ g.sweeps n u ↔ g.dominates h u = true) := by
  refine ⟨g.isLoopHead_iff, fun h body => ?_, spread_closure, ?_⟩
  · unfold loopBody?
    rw [← g.isLoopHead_iff h]
    by_cases hhead : g.isLoopHead h = true
    · rw [if_pos hhead, and_iff_right hhead, Option.some.injEq]
      constructor
      · rintro rfl
        exact g.mem_loopBody_iff h
      -- A set is determined by its members, so there is no other body.
      · intro hall
        exact Std.ExtTreeSet.ext_mem fun l => (g.mem_loopBody_iff h l).trans (hall l).symm
    · rw [if_neg hhead]
      exact iff_of_false nofun fun hboth => hhead hboth.1
  -- The guesses shrink with every sweep, so at some time a sweep changes nothing. Guesses that are
  -- settled and cautious are the dominators.
  · rcases g.exists_settled with ⟨n, hsettled⟩
    refine ⟨n, hsettled, fun h u hu => ?_⟩
    have hreach := (g.mem_reachable_iff u).mpr hu
    rw [mem_iff_of_settled (g.cautious_sweeps n) hsettled u hreach h, g.dominates_iff,
      and_iff_right hreach]

/-- Two edges back to one head make one loop. -/
example : (([⟨1, 2, 6⟩, ⟨2, 3, 7⟩, ⟨3, 4, 7⟩, ⟨3, 2, 6⟩, ⟨4, 2, 6⟩, ⟨4, 5, 8⟩] : List Edge).foldl
    (fun g e => g.addEdge e.source e.op e.target) (empty.addEntry 1)).loopBody? 2
      = some (.ofList [2, 3, 4] compare) := by
  decide

end Flow

end ActorCheck

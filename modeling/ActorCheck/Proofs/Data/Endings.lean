import ActorCheck.Proofs.Data.Reached
import ActorCheck.Proofs.Flow.Rounds

/-!
# Runs That End

A run comes to an end if it cannot go on for ever, whichever way it takes. Whether it does is a
question about the relation and the data. If no round can be reached from where the run starts,
every data analysis brings it to an end, within as many steps as there are locations, and a greater
depth changes nothing. If a round can be reached there is data with which the run never ends: the
data that never changes, on which every operation can be taken.

A run is refused if the relation has loops. That is less than having rounds: a relation is accepted
although it goes round if each location of every round can be passed by.

## Main definitions

* `Runner.Ends`: A run comes to an end.
* `Runner.idle`: The run on data that never changes.

## Theorems

* `Runner.ends_of_noRounds`, `Runner.runFrom_of_noRounds`: Runs end where no round can be reached.
* `Runner.not_ends_idle`, `Runner.runFrom_idle`: Others may not.
* `Runner.ends_iff_noRounds`: Accepted relations and runs that end.
-/

namespace ActorCheck

namespace Runner

/-- A run from a location and a state comes to an end, whichever way it goes on. -/
def Ends {σ : Type} (r : Runner σ) (g : Flow) (x : LocationId × σ) : Prop :=
  Acc (fun y x => r.Goes g x y) x

section Bounded

variable {σ : Type} (r : Runner σ) (g : Relation)

theorem ends_of_bound (depth : Nat) (x : LocationId × σ)
    (h : ∀ ops m, g.Walk x.1 ops m → ops.length < depth) : r.Ends g.toFlow x := by
  -- The bound goes down with every step, since a walk from the next location is one edge shorter.
  induction depth generalizing x with
  | zero => exact absurd (h [] x.1 (.nil x.1)) (Nat.lt_irrefl 0)
  | succ depth ih =>
      exact Acc.intro x fun y hgoes => ih y (r.length_of_goes g depth x y h hgoes)

/-- A depth that no walk exceeds is as good as any greater one. -/
theorem runFrom_of_bound (depth more : Nat) (l : LocationId) (s : σ) (hmore : depth ≤ more)
    (h : ∀ ops m, g.Walk l ops m → ops.length < depth) :
    r.runFrom g more l s = r.runFrom g depth l s := by
  induction depth generalizing more l s with
  | zero => exact absurd (h [] l (.nil l)) (Nat.lt_irrefl 0)
  | succ depth ih =>
      -- What is left of the greater depth is at least what is left of the smaller one.
      rcases Nat.exists_eq_add_of_le' hmore with ⟨extra, rfl⟩
      rw [← Nat.add_assoc]
      unfold runFrom
      cases hnext : r.alternatives g.toFlow l s with
      | error e => rfl
      | ok next =>
          have hlater : next.reverse.mapM (fun p => r.runFrom g (extra + depth) p.1 p.2)
              = next.reverse.mapM fun p => r.runFrom g depth p.1 p.2 := by
            refine except_mapM_congr _ _ _ fun p hp => ih _ p.1 p.2 (Nat.le_add_left _ _) ?_
            have hgoes : r.Goes g.toFlow (l, s) p := ⟨next, hnext, List.mem_reverse.mp hp⟩
            exact r.length_of_goes g depth (l, s) p h hgoes
          exact congrArg (fun x => x >>= fun later => pure (finished g.toFlow l s ++ later.flatten))
            hlater

variable (hwell : g.WellFormed) (hrounds : g.NoRounds) (start : LocationId)
  (hstart : start ∈ g.entries)

include hwell hrounds hstart

theorem length_of_noRounds (ops : List OperationId) (m : LocationId) (h : g.Walk start ops m) :
    ops.length < g.locations.size := by
  refine g.length_of_walk start m ops hwell (g.mem_locations_of_entry start hwell hstart) ?_ h
  -- A walk of at least as many edges as there are locations would lead to a round, and there is
  -- none to be reached.
  intro n before hbefore
  rcases g.exists_route_of_walk start n before hbefore with ⟨visited, hroute, _⟩
  exact g.noRounds_iff.mp hrounds n ⟨start, hstart, visited, hroute⟩

/-- A run from an entry ends if no round can be reached. -/
theorem ends_of_noRounds (s : σ) : r.Ends g.toFlow (start, s) :=
  r.ends_of_bound g g.locations.size (start, s) (length_of_noRounds g hwell hrounds start hstart)

/-- Its result is the one that is found in as many steps as there are locations. -/
theorem runFrom_of_noRounds (depth : Nat) (hdepth : g.locations.size ≤ depth) (s : σ) :
    r.runFrom g depth start s = r.runAlong g start s := by
  have hbound := length_of_noRounds g hwell hrounds start hstart
  rw [r.runAlong_of_accepted g (g.hasLoops_of_noRounds hrounds),
    r.runFrom_of_bound g g.locations.size depth start s hdepth hbound]
  exact (r.runFrom_of_bound g g.locations.size _ start s (Nat.le_add_right _ _) hbound).symm

end Bounded

section Idle

/-- The run on data that never changes and on which every operation can be taken. -/
def idle : Runner Unit where
  analysis := ⟨fun s _ _ => .ok [s], fun _ => true⟩
  concern := .program
  lookUp id := .ok ⟨id, .epsilon⟩
  scope := .ok

variable (g : Relation)

theorem after_idle (id : OperationId) : idle.after () id = .ok [()] := by
  change (if (⟨id, .epsilon⟩ : Operation).isEpsilon then _ else _) = _
  -- Whether the operation is recognized as empty or executed, the data is the same afterwards.
  split
  · rfl
  · rfl

theorem alternatives_idle (l : LocationId) :
    idle.alternatives g.toFlow l () = .ok ((g.edgesFrom l).map fun e => (e.2, ())) := by
  unfold alternatives
  -- With only one outcome each, the ways on from a location are its edges.
  have hways : (fun e : OperationId × LocationId => do
      return (← idle.after () e.1).map fun next => (e.2, next))
      = fun e => (pure [(e.2, ())] : Except AnalysisError _) := by
    funext e
    rw [after_idle]
    rfl
  rw [hways, List.mapM_pure]
  exact congrArg Except.ok ((List.flatMap_def ..).symm.trans List.map_eq_flatMap.symm)

theorem goes_idle (l m : LocationId) (op : OperationId) (edge : ⟨l, m, op⟩ ∈ g.edges) :
    idle.Goes g.toFlow (l, ()) (m, ()) :=
  ⟨_, alternatives_idle g l, List.mem_map.mpr ⟨(op, m), (g.mem_edgesFrom l m op).mpr edge, rfl⟩⟩

/-- Some round can be reached from the location. -/
def RoundAhead (g : Flow) (l : LocationId) : Prop :=
  ∃ visited m around, g.Route l visited m ∧ g.Round m around

/-- Where a round lies ahead one can go on, and it still does. -/
theorem goes_on_of_roundAhead (l : LocationId) (h : RoundAhead g.toFlow l) :
    ∃ m op, (⟨l, m, op⟩ : Edge) ∈ g.edges ∧ RoundAhead g.toFlow m := by
  rcases h with ⟨visited, n, around, hroute, hround⟩
  -- On the round itself one takes its first edge and has the round ahead once more. Before it, one
  -- goes along the way that leads there.
  cases hroute with
  | stay =>
      rcases hround with ⟨m, op, edge, hback⟩
      exact ⟨m, op, edge, around, l, around, hback, m, op, edge, hback⟩
  | @go _ m _ op rest edge hrest => exact ⟨m, op, edge, rest, n, around, hrest, hround⟩

theorem not_ends_idle (x : LocationId × Unit) (h : RoundAhead g.toFlow x.1) :
    ¬ idle.Ends g.toFlow x := by
  intro hends
  -- By induction on the proof that all runs end: the next location would do without a first step
  -- that ends.
  induction hends with
  | intro x _ ih =>
      rcases goes_on_of_roundAhead g x.1 h with ⟨m, op, edge, hahead⟩
      exact ih (m, ()) (goes_idle g x.1 m op edge) hahead

/-- Nothing but its length can make such a run fail. -/
theorem error_of_runFrom_idle (depth : Nat) (l : LocationId) (e : AnalysisError)
    (h : idle.runFrom g depth l () = .error e) : e = .endlessRun g.name := by
  induction depth generalizing l e with
  | zero =>
      cases h
      rfl
  | succ depth ih =>
      unfold runFrom at h
      rw [alternatives_idle] at h
      change (((g.edgesFrom l).map fun e => (e.2, ())).reverse.mapM (fun p =>
        idle.runFrom g depth p.1 p.2) >>= _) = _ at h
      -- An error on one of the ways is an error of the whole run, and it is this one by induction.
      cases hlater : ((g.edgesFrom l).map fun e => (e.2, ())).reverse.mapM fun p =>
          idle.runFrom g depth p.1 p.2 with
      | error e' =>
          rcases except_mapM_error _ _ _ hlater with ⟨p, _, hp⟩
          rw [hlater] at h
          cases h
          exact ih p.1 e hp
      | ok later =>
          rw [hlater] at h
          cases h

/-- It never ends where a round lies ahead, however deep it may go. -/
theorem runFrom_idle (depth : Nat) (l : LocationId) (h : RoundAhead g.toFlow l) :
    idle.runFrom g depth l () = .error (.endlessRun g.name) := by
  induction depth generalizing l with
  | zero => rfl
  | succ depth ih =>
      -- If the run had a result, so would the run on the way towards the round, against the
      -- induction hypothesis.
      cases hrun : idle.runFrom g (depth + 1) l () with
      | error e => rw [error_of_runFrom_idle g (depth + 1) l e hrun]
      | ok found =>
          rcases goes_on_of_roundAhead g l h with ⟨m, op, edge, hahead⟩
          rcases (except_bind_ok _ _ _).mp hrun with ⟨next, hnext, hrun⟩
          rcases (except_bind_ok _ _ _).mp hrun with ⟨later, hlater, _⟩
          rcases goes_idle g l m op edge with ⟨next', hnext', hmem⟩
          cases hnext.symm.trans hnext'
          rcases mem_of_forall₂_left _ _ _ ((except_mapM_ok _ _ _).mp hlater) (m, ())
            (List.mem_reverse.mpr hmem) with ⟨results, _, hone⟩
          cases (ih m hahead).symm.trans hone

end Idle

/-- A relation is accepted exactly if each location of every round that can be reached can be
    passed by. All runs from its entries end, whatever the data analysis, exactly if no round can be
    reached. Then the relation is accepted, and a run answers with what it finds in as many steps as
    there are locations. -/
theorem ends_iff_noRounds (g : Relation) (hwell : g.WellFormed) :
    (g.hasLoops = false
        ↔ ∀ l, g.Entered l → ∀ around, g.Round l around → ∀ h ∈ around, g.PassedBy h around)
      ∧ ((∀ (σ : Type) (r : Runner σ), ∀ start ∈ g.entries, ∀ s, r.Ends g.toFlow (start, s))
        ↔ g.NoRounds)
      ∧ (g.NoRounds → g.hasLoops = false ∧ ∀ (σ : Type) (r : Runner σ), ∀ start ∈ g.entries,
        ∀ s depth, g.locations.size ≤ depth →
          r.runFrom g depth start s = r.runAlong g start s) := by
  refine ⟨g.hasLoops_eq_false_iff, ⟨fun hends l hl around hround => ?_, ?_⟩, fun hrounds => ?_⟩
  -- The run that can do everything goes round for ever, so runs that end on all data rule out
  -- rounds.
  · rcases hl with ⟨start, hstart, visited, hroute⟩
    exact not_ends_idle g (start, ()) ⟨visited, l, around, hroute, hround⟩
      (hends Unit idle start hstart ())
  · intro hrounds σ r start hstart s
    exact r.ends_of_noRounds g hwell hrounds start hstart s
  · refine ⟨g.hasLoops_of_noRounds hrounds, fun σ r start hstart s depth hdepth => ?_⟩
    exact r.runFrom_of_noRounds g hwell hrounds start hstart depth hdepth s

section Roads

/-- Two ways from one end of a park to the other, and a round that nothing leads to. -/
def park : Relation where
  locations := .ofList [1, 2, 3, 4, 5, 6] compare
  entries := {1}
  exits := {4}
  edges := .ofList (show List Edge from
    [⟨1, 2, 7⟩, ⟨1, 3, epsilonId⟩, ⟨2, 4, 8⟩, ⟨3, 4, 7⟩, ⟨5, 6, 8⟩, ⟨6, 5, 7⟩, ⟨6, 2, 8⟩]) compare
  id := 9
  name := "park"

/-- All runs through the park end. -/
theorem ends_iff_noRounds_park : park.WellFormed ∧ park.hasLoops = false
    ∧ ∀ (σ : Type) (r : Runner σ) (s : σ), r.Ends park.toFlow (1, s)
      ∧ r.runFrom park 6 1 s = r.runAlong park 1 s := by
  have hwell : park.WellFormed := by
    unfold Flow.WellFormed
    decide
  have hup : ∀ e ∈ park.edges.toList, e.source ∈ park.reachable → e.source < e.target := by
    decide
  have hrounds : park.NoRounds := park.noRounds_of_rank id fun e he =>
    hup e (Std.ExtTreeSet.mem_toList.mpr he)
  rcases ends_iff_noRounds park hwell with ⟨_, hends, hbound⟩
  rcases hbound hrounds with ⟨haccepted, hresult⟩
  refine ⟨hwell, haccepted, fun σ r s => ⟨hends.mpr hrounds σ r 1 (by decide) s, ?_⟩⟩
  exact hresult σ r 1 (by decide) s 6 (by decide)

/-- A roundabout with two ways into it and one out of it. -/
def roundabout : Relation where
  locations := .ofList [1, 2, 3, 4] compare
  entries := {1}
  exits := {4}
  edges := .ofList (show List Edge from
    [⟨1, 2, epsilonId⟩, ⟨1, 3, epsilonId⟩, ⟨2, 3, 5⟩, ⟨3, 2, 6⟩, ⟨3, 4, 7⟩]) compare
  id := 8
  name := "R8"

/-- The roundabout is accepted, since each side of it can be reached without the other. But it goes
    round, and one may do so for ever. -/
theorem accepted_roundabout : roundabout.WellFormed ∧ roundabout.hasLoops = false
    ∧ roundabout.Entered 2 ∧ roundabout.Round 2 [3, 2]
    ∧ ∀ depth, idle.runFrom roundabout depth 1 () = .error (.endlessRun "R8") := by
  have hedges : (⟨1, 2, epsilonId⟩ : Edge) ∈ roundabout.edges
      ∧ (⟨2, 3, 5⟩ : Edge) ∈ roundabout.edges ∧ (⟨3, 2, 6⟩ : Edge) ∈ roundabout.edges := by
    decide
  have hround : roundabout.Round 2 [3, 2] :=
    ⟨3, 5, hedges.2.1, .go hedges.2.2 (.stay 2)⟩
  -- From 1 one gets to 2, and from there by way of 3 back to 2.
  have hroute : roundabout.Route 1 [1, 2] 2 := .go hedges.1 (.stay 2)
  refine ⟨?_, by decide, ⟨1, by decide, [1, 2], hroute⟩, hround, fun depth => ?_⟩
  · unfold Flow.WellFormed
    decide
  · exact runFrom_idle roundabout depth 1 ⟨[1, 2], 2, [3, 2], hroute, hround⟩

end Roads

end Runner

end ActorCheck

import ActorCheck.Data.Along
import ActorCheck.Proofs.Flow.Reversal
import ActorCheck.Proofs.Outcome

/-!
# Invariants of Runs

What is kept by every edge of a relation holds wherever a run of the relation finishes. The
property may speak about the location as well as about the state, since the mark of a result
depends on the location at which the run has finished.

## Theorems

* `DataAnalysis.run_singleton`: A sequence of one operation.
* `Runner.after_of_nothing`, `Runner.after_of_something`: The states after an edge.
* `Runner.mem_after`: What comes after an edge.
* `Runner.alternatives_ok_iff`: The ways to go on from a location.
* `Runner.edge_of_alternatives`: Every way to go on is along an edge.
* `Runner.runFrom_of_end`: A run stops at a place that nothing leaves.
* `Runner.invariant_of_runAlong`: The induction along a run.
* `App.runner_of_actor`: What a run depends on that an actor owns.
-/

namespace ActorCheck

/-- A sequence of one operation. -/
theorem DataAnalysis.run_singleton {σ : Type} (analysis : DataAnalysis σ) (s : σ) (op : Operation)
    (concern : Concern) : analysis.run s [op] concern
      = if op.isEpsilon then .ok [s] else analysis.successors s op concern := by
  unfold run runFrom
  split
  · rfl
  -- One operation on one state is one call of the analysis, whose answer is flattened once.
  · unfold runAll
    rw [List.mapM_cons, List.mapM_nil]
    cases analysis.successors s op concern with
    | error e => rfl
    | ok found => exact congrArg Except.ok (List.flatten_singleton)

namespace Runner

theorem after_of_nothing {σ : Type} (r : Runner σ) (s : σ) (id : OperationId) (op : Operation)
    (hop : r.lookUp id = .ok op) (hnothing : op.isEpsilon = true) : r.after s id = .ok [s] := by
  unfold after
  rw [hop]
  exact if_pos hnothing

theorem after_of_something {σ : Type} (r : Runner σ) (s : σ) (id : OperationId) (op : Operation)
    (hop : r.lookUp id = .ok op) (hsomething : op.isEpsilon = false) :
    r.after s id = r.scope op >>= fun placed =>
      r.analysis.successors s placed r.concern >>= fun found =>
        pure (found.filter r.analysis.isFeasible) := by
  unfold after
  rw [hop]
  exact if_neg (Bool.eq_false_iff.mp hsomething)

/-- What comes after an edge: the same if its operation does nothing, and else a successor. -/
theorem mem_after {σ : Type} (r : Runner σ) (s t : σ) (id : OperationId) (op placed : Operation)
    (hop : r.lookUp id = .ok op) (hplaced : r.scope op = .ok placed) (found : List σ)
    (h : r.after s id = .ok found) (ht : t ∈ found) : (op.id = epsilonId ∧ t = s)
      ∨ ∃ states, r.analysis.successors s placed r.concern = .ok states ∧ t ∈ states := by
  -- An operation that does nothing keeps the state without asking the analysis.
  cases hsomething : op.isEpsilon with
  | true =>
      cases (r.after_of_nothing s id op hop hsomething).symm.trans h
      exact Or.inl ⟨beq_iff_eq.mp hsomething, List.mem_singleton.mp ht⟩
  | false =>
      rw [r.after_of_something s id op hop hsomething] at h
      rcases (except_bind_ok _ _ _).mp h with ⟨placed', hplaced', h⟩
      cases hplaced.symm.trans hplaced'
      rcases (except_bind_ok _ _ _).mp h with ⟨states, hstates, h⟩
      rw [← (except_pure_ok _ _).mp h] at ht
      exact Or.inr ⟨states, hstates, List.mem_of_mem_filter ht⟩

/-- The ways to go on from a location, edge by edge. -/
theorem alternatives_ok_iff {σ : Type} (r : Runner σ) (g : Flow) (l : LocationId) (s : σ)
    (found : List (LocationId × σ)) : r.alternatives g l s = .ok found
      ↔ ∃ parts, List.Forall₂ (fun (e : OperationId × LocationId) part =>
          ∃ next, r.after s e.1 = .ok next ∧ (next.map fun t => (e.2, t)) = part)
          (g.edgesFrom l) parts
        ∧ parts.flatten = found := by
  unfold alternatives
  simp only [except_bind_ok, except_pure_ok, except_mapM_ok]

/-- Every way to go on from a location is along an edge. -/
theorem edge_of_alternatives {σ : Type} (r : Runner σ) (g : Flow) (l : LocationId) (s : σ)
    (found : List (LocationId × σ)) (h : r.alternatives g l s = .ok found) (p : LocationId × σ)
    (hp : p ∈ found) :
    ∃ op next, (⟨l, p.1, op⟩ : Edge) ∈ g.edges ∧ r.after s op = .ok next ∧ p.2 ∈ next := by
  -- From the state back to the part it is in, and from the part to its edge.
  rcases (r.alternatives_ok_iff g l s found).mp h with ⟨parts, hparts, rfl⟩
  rcases List.mem_flatten.mp hp with ⟨part, hpart, hp⟩
  rcases mem_of_forall₂_right _ _ _ hparts part hpart with ⟨⟨op, target⟩, hleaves, next, hnext, rfl⟩
  rcases List.mem_map.mp hp with ⟨t, ht, rfl⟩
  exact ⟨op, next, (g.mem_edgesFrom l target op).mp hleaves, hnext, ht⟩

/-- A run stops at a place that nothing leaves. -/
theorem runFrom_of_end {σ : Type} (r : Runner σ) (g : Relation) (depth : Nat)
    (l : LocationId) (s : σ) (h : g.edgesFrom l = []) :
    r.runFrom g (depth + 1) l s = .ok [(s, g.exits.contains l)] := by
  have hfinish : g.finishesAt l = true := by
    unfold Flow.finishesAt
    rw [h, List.isEmpty_nil, Bool.or_true]
  unfold runFrom alternatives finished
  rw [h, hfinish]
  rfl

variable {σ : Type} (r : Runner σ) (g : Relation) (Inv : LocationId → σ → Prop)
  (hedge : ∀ e ∈ g.edges, ∀ s, Inv e.source s → ∀ found, r.after s e.op = .ok found →
    ∀ t ∈ found, Inv e.target t)

include hedge

theorem invariant_of_alternatives (l : LocationId) (s : σ) (hs : Inv l s)
    (found : List (LocationId × σ)) (h : r.alternatives g.toFlow l s = .ok found) :
    ∀ p ∈ found, Inv p.1 p.2 := by
  intro p hp
  rcases r.edge_of_alternatives g.toFlow l s found h p hp with ⟨op, next, hop, hnext, hmem⟩
  exact hedge ⟨l, p.1, op⟩ hop s hs next hnext p.2 hmem

theorem invariant_of_runFrom (depth : Nat) (l : LocationId) (s : σ) (hs : Inv l s)
    (found : List (σ × Bool)) (h : r.runFrom g depth l s = .ok found) :
    ∀ p ∈ found, ∃ l', Inv l' p.1 ∧ g.finishesAt l' = true ∧ p.2 = g.exits.contains l' := by
  -- By induction on the depth. Location and state are generalized, since the invariant is carried
  -- along an edge before the run goes on.
  induction depth generalizing l s found with
  | zero => cases h
  | succ depth ih =>
      rcases (except_bind_ok _ _ _).mp h with ⟨next, hnext, h⟩
      rcases (except_bind_ok _ _ _).mp h with ⟨later, hlater, h⟩
      rw [← (except_pure_ok _ _).mp h]
      have hways := invariant_of_alternatives r g Inv hedge l s hs next hnext
      intro p hp
      rcases List.mem_append.mp hp with hp | hp
      -- The run finishes right here, or somewhere behind one of the edges.
      · unfold finished at hp
        split at hp
        next hfinishes =>
          rw [List.mem_singleton.mp hp]
          exact ⟨l, hs, hfinishes, rfl⟩
        next => cases hp
      · rcases List.mem_flatten.mp hp with ⟨results, hresults, hp⟩
        rcases mem_of_forall₂_right _ _ _ ((except_mapM_ok _ _ _).mp hlater) results hresults with
          ⟨⟨target, t⟩, ht, hone⟩
        exact ih target t (hways _ (List.mem_reverse.mp ht)) results hone p hp

/-- What every edge keeps holds wherever a run finishes. -/
theorem invariant_of_runAlong (start : LocationId) (s : σ) (hs : Inv start s)
    (found : List (σ × Bool)) (h : r.runAlong g start s = .ok found) :
    ∀ p ∈ found, ∃ l, Inv l p.1 ∧ g.finishesAt l = true ∧ p.2 = g.exits.contains l := by
  unfold runAlong at h
  split at h
  · cases h
  · exact invariant_of_runFrom r g Inv hedge _ start s hs found h

end Runner

/-- What a run depends on in a program, if it has a known owner. -/
theorem App.runner_of_actor {σ : Type} (app : App) (analysis : DataAnalysis σ) (concern : Concern)
    (g : Relation) (name : ActorName) (actor : Actor) (h : app.actor name = .ok actor) :
    app.runner analysis concern g (some name) = .ok ⟨analysis, concern,
      fun id => ofModel (app.operation id), fun op => ofScope
        ((Scoping.new actor [actor.name, g.name]).operation op)⟩ := by
  unfold runner
  dsimp only
  rw [h]
  rfl

end ActorCheck

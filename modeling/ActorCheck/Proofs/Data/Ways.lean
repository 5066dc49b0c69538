import ActorCheck.Proofs.Data.Reached
import ActorCheck.Proofs.Listings
import ActorCheck.Proofs.Program.Lines

/-!
# Runs and Ways

A run answers with a list, and a state that is reached in several ways stands in it several times.
How often is told by the ways. A way is a path together with a choice at each of its edges: which
of the successors the run goes on with, counted from the first one. At an edge that does nothing
there is nothing to choose. A path, and what is chosen along it, determine where the run gets.

A run along a relation answers with one result for each way that ends where a run finishes, and
with nothing else. This is shown for the parts of a run first: the successors of an edge are told
apart by their numbers, the alternatives of a location by the edge and that number, and the results
of a run by the way. Each time the results are those of several members, one list after the other,
and the keys are pairs of what tells the members apart and what tells their results apart.

A run fails exactly if some way leads to an edge whose operation is refused. The edge may be
another one than those that the results of the run come from, because all edges of a location are
tried.

## Main definitions

* `Runner.Pick`: An edge along a way, and what is chosen there.
* `Runner.Steps`, `Runner.Follows`: How states are threaded along edges and along ways.
* `Runner.Refuses`: The operation of an edge cannot be looked up, scoped or performed.
* `Runner.Offers`: How a way may go on from a place.
* `Runner.Completes`: A way ends where a run finishes.

## Theorems

* `Runner.eachOnce_runFrom`: A run answers with one result for each way.
* `Runner.exists_way_of_reaches`, `Runner.reaches_of_follows`: To reach a place is to follow a way.
* `Runner.runAlong_ways`: The results and the failures of a run, told by ways.
-/

namespace ActorCheck

namespace Runner

variable {σ : Type} (r : Runner σ)

section Edges

/-- An edge along a way: its operation, where it leads, and which of the successors is chosen. -/
structure Pick where
  op : OperationId
  target : LocationId
  choice : Nat

/-- How a state is threaded along an edge with an operation. If the operation does nothing the
    state is kept. Otherwise one of the feasible successors is chosen, counting from the first
    successor. -/
inductive Steps (s : σ) (id : OperationId) : Nat → σ → Prop where
  | keep {op : Operation} (known : r.lookUp id = .ok op) (nothing : op.isEpsilon = true) :
      Steps s id 0 s
  | take {op placed : Operation} {states : List σ} {choice : Nat} {t : σ}
      (known : r.lookUp id = .ok op) (something : op.isEpsilon = false)
      (located : r.scope op = .ok placed)
      (successors : r.analysis.successors s placed r.concern = .ok states)
      (chosen : states[choice]? = some t) (feasible : r.analysis.isFeasible t = true) :
      Steps s id choice t

/-- The operation cannot be looked up, or it does something and cannot be scoped or performed. -/
inductive Refuses (s : σ) (id : OperationId) : Prop where
  | unknown {e : AnalysisError} (failed : r.lookUp id = .error e)
  | misplaced {op : Operation} {e : AnalysisError} (known : r.lookUp id = .ok op)
      (something : op.isEpsilon = false) (failed : r.scope op = .error e)
  | unperformed {op placed : Operation} {e : AnalysisError} (known : r.lookUp id = .ok op)
      (something : op.isEpsilon = false) (located : r.scope op = .ok placed)
      (failed : r.analysis.successors s placed r.concern = .error e)

variable (s : σ) (id : OperationId)

theorem eachOnce_after (found : List σ) (h : r.after s id = .ok found) :
    EachOnce (r.Steps s id) found := by
  rcases (except_bind_ok _ _ _).mp h with ⟨op, hop, _⟩
  -- An operation that does nothing keeps the state, once, whatever the choice would be. Any other
  -- one is looked at in the analysis.
  cases hsomething : op.isEpsilon with
  | true =>
      cases (r.after_of_nothing s id op hop hsomething).symm.trans h
      refine eachOnce_singleton _ 0 s fun choice t => ⟨fun hstep => ?_, ?_⟩
      · cases hstep with
        | keep => exact ⟨rfl, rfl⟩
        | take known something =>
            cases hop.symm.trans known
            cases hsomething.symm.trans something
      · rintro ⟨rfl, rfl⟩
        exact .keep hop hsomething
  | false =>
      rw [r.after_of_something s id op hop hsomething] at h
      rcases (except_bind_ok _ _ _).mp h with ⟨placed, hplaced, h⟩
      rcases (except_bind_ok _ _ _).mp h with ⟨states, hstates, h⟩
      rw [← (except_pure_ok _ _).mp h]
      -- Choices are positions among all successors, so those of the feasible ones keep their
      -- numbers.
      refine eachOnce_congr _ _ _ (eachOnce_filter _ states r.analysis.isFeasible
        (eachOnce_of_positions states)) fun choice t => ⟨fun hboth => ?_, fun hstep => ?_⟩
      · exact .take hop hsomething hplaced hstates hboth.1 hboth.2
      · cases hstep with
        | keep known nothing =>
            cases hop.symm.trans known
            cases hsomething.symm.trans nothing
        | take known something located successors chosen feasible =>
            cases hop.symm.trans known
            cases hplaced.symm.trans located
            cases hstates.symm.trans successors
            exact ⟨chosen, feasible⟩

theorem refuses_of_error (e : AnalysisError) (h : r.after s id = .error e) : r.Refuses s id := by
  -- The three things that can go wrong are gone through in the order in which they are tried.
  rcases hop : r.lookUp id with _ | op
  · exact .unknown hop
  · cases hsomething : op.isEpsilon with
    | true => cases (r.after_of_nothing s id op hop hsomething).symm.trans h
    | false =>
        rw [r.after_of_something s id op hop hsomething] at h
        rcases hplaced : r.scope op with _ | placed
        · exact .misplaced hop hsomething hplaced
        · rcases hstates : r.analysis.successors s placed r.concern with _ | states
          · exact .unperformed hop hsomething hplaced hstates
          · rw [hplaced] at h
            change (r.analysis.successors s placed r.concern >>= _) = _ at h
            rw [hstates] at h
            cases h

/-- The states after an edge cannot be worked out exactly if the operation is refused. -/
theorem error_of_after_iff : (∃ e, r.after s id = .error e) ↔ r.Refuses s id := by
  constructor
  · rintro ⟨e, h⟩
    exact r.refuses_of_error s id e h
  · intro h
    cases h with
    | @unknown e failed =>
        refine ⟨e, ?_⟩
        unfold after
        rw [failed]
        rfl
    | @misplaced op e known something failed =>
        rw [r.after_of_something s id op known something, failed]
        exact ⟨e, rfl⟩
    | @unperformed op placed e known something located failed =>
        rw [r.after_of_something s id op known something, located]
        change ∃ e, (r.analysis.successors s placed r.concern >>= _) = .error e
        rw [failed]
        exact ⟨e, rfl⟩

end Edges

section Places

variable (g : Flow) (l : LocationId) (s : σ)

/-- How a way may go on from a location and a state: along an edge, to one of the successors. -/
def Offers (pick : Pick) (x : LocationId × σ) : Prop :=
  x.1 = pick.target ∧ ⟨l, pick.target, pick.op⟩ ∈ g.edges ∧ r.Steps s pick.op pick.choice x.2

theorem eachOnce_alternatives (found : List (LocationId × σ))
    (h : r.alternatives g l s = .ok found) : EachOnce (r.Offers g l s) found := by
  rcases (r.alternatives_ok_iff g l s found).mp h with ⟨parts, hparts, rfl⟩
  have hedges : List.Forall₂ (fun (e : OperationId × LocationId) part =>
      EachOnce (fun choice (x : LocationId × σ) => x.1 = e.2 ∧ r.Steps s e.1 choice x.2) part)
      (g.edgesFrom l) parts := by
    -- On one edge the choice is enough to tell what the run goes on with.
    refine hparts.imp fun e part hpart => ?_
    rcases hpart with ⟨next, hnext, rfl⟩
    refine eachOnce_congr _ _ _ (eachOnce_map _ next id (fun t => (e.2, t)) Function.injective_id
      (r.eachOnce_after s e.1 next hnext)) fun choice x => ?_
    constructor
    · rintro ⟨_, t, hstep, rfl, rfl⟩
      exact ⟨rfl, hstep⟩
    · rintro ⟨htarget, hstep⟩
      exact ⟨choice, x.2, hstep, rfl, Prod.ext htarget.symm rfl⟩
  -- Several edges are told apart by operation and target, and on each of them the choices are.
  refine eachOnce_congr _ _ _ (eachOnce_flatten _ _ (fun e choice => (⟨e.1, e.2, choice⟩ : Pick))
    ?_ _ _ (eachOnce_of_nodup _ (g.nodup_edgesFrom l)) hedges) fun pick x => ?_
  · intro e choice e' choice' heq
    rw [Pick.mk.injEq] at heq
    exact ⟨Prod.ext heq.1 heq.2.1, heq.2.2⟩
  · constructor
    · rintro ⟨e, _, ⟨rfl, hedge⟩, choice, ⟨htarget, hstep⟩, rfl⟩
      exact ⟨htarget, (g.mem_edgesFrom l e.2 e.1).mp hedge, hstep⟩
    · rintro ⟨htarget, hedge, hstep⟩
      exact ⟨(pick.op, pick.target), _, ⟨rfl, (g.mem_edgesFrom l _ _).mpr hedge⟩, pick.choice,
        ⟨htarget, hstep⟩, rfl⟩

theorem fails_iff : r.Fails g (l, s)
    ↔ ∃ op target, (⟨l, target, op⟩ : Edge) ∈ g.edges ∧ r.Refuses s op := by
  simp only [← error_of_after_iff]
  constructor
  · rintro ⟨e, h⟩
    unfold alternatives at h
    generalize hresults : (List.mapM _ (g.edgesFrom l) : Except AnalysisError _) = results at h
    -- The map over the edges fails only if it does for one of them.
    cases results with
    | ok results => cases h
    | error e' =>
        rcases except_mapM_error _ _ _ hresults with ⟨⟨op, target⟩, hedge, hone⟩
        refine ⟨op, target, (g.mem_edgesFrom l target op).mp hedge, ?_⟩
        cases hafter : r.after s op with
        | error e'' => exact ⟨e'', rfl⟩
        | ok next =>
            change (r.after s op >>= _) = _ at hone
            rw [hafter] at hone
            cases hone
  · rintro ⟨op, target, hedge, e, hrefused⟩
    cases hfound : r.alternatives g l s with
    | error e' => exact ⟨e', hfound⟩
    | ok found =>
        rcases (r.alternatives_ok_iff g l s found).mp hfound with ⟨parts, hparts, _⟩
        rcases mem_of_forall₂_left _ _ _ hparts (op, target)
          ((g.mem_edgesFrom l target op).mpr hedge) with ⟨_, _, next, hnext, _⟩
        cases hrefused.symm.trans hnext

/-- A way leads from one location and state to another. -/
def Follows : LocationId → σ → List Pick → LocationId → σ → Prop
  | l, s, [], m, t => m = l ∧ t = s
  | l, s, pick :: way, m, t =>
    ⟨l, pick.target, pick.op⟩ ∈ g.edges
      ∧ ∃ u, r.Steps s pick.op pick.choice u ∧ Follows pick.target u way m t

/-- A way ends where a run finishes, at an exit or where nothing goes on, and the mark tells
    whether it is an exit. -/
def Completes (way : List Pick) (x : σ × Bool) : Prop :=
  ∃ m, r.Follows g l s way m x.1 ∧ (m ∈ g.exits ∨ g.edgesFrom m = []) ∧ (x.2 = true ↔ m ∈ g.exits)

theorem finishesAt_iff : g.finishesAt l = true ↔ l ∈ g.exits ∨ g.edgesFrom l = [] := by
  unfold Flow.finishesAt
  rw [Bool.or_eq_true, Std.ExtTreeSet.contains_iff_mem, List.isEmpty_iff]

/-- What a run finishes with right at a location is what is found without going on. -/
theorem eachOnce_finished :
    EachOnce (fun way x => way = [] ∧ r.Completes g l s way x) (finished g l s) := by
  have hmark : ∀ x : σ × Bool, (x.1 = s ∧ (x.2 = true ↔ l ∈ g.exits))
      ↔ x = (s, g.exits.contains l) := by
    rintro ⟨t, b⟩
    rw [Prod.mk.injEq, ← Std.ExtTreeSet.contains_iff_mem, Bool.coe_iff_coe]
  unfold finished
  -- Either the run finishes here with one result, or with none.
  by_cases hfinishes : g.finishesAt l = true
  · rw [if_pos hfinishes]
    refine eachOnce_singleton _ [] _ fun way x => and_congr_right fun hway => ?_
    subst hway
    rw [← hmark]
    constructor
    · rintro ⟨_, ⟨rfl, hx⟩, _, hb⟩
      exact ⟨hx, hb⟩
    · rintro ⟨hx, hb⟩
      exact ⟨l, ⟨rfl, hx⟩, (finishesAt_iff g l).mp hfinishes, hb⟩
  · rw [if_neg hfinishes]
    refine eachOnce_nil _ ?_
    rintro _ x ⟨rfl, _, ⟨rfl, _⟩, hends, _⟩
    exact hfinishes ((finishesAt_iff g _).mpr hends)

/-- A way goes on along one of the edges, and completes from there. -/
theorem completes_cons_iff (pick : Pick) (way : List Pick) (x : σ × Bool) :
    r.Completes g l s (pick :: way) x
      ↔ ∃ y, r.Offers g l s pick y ∧ r.Completes g y.1 y.2 way x := by
  constructor
  · rintro ⟨m, ⟨hedge, u, hstep, hrest⟩, hends⟩
    exact ⟨(pick.target, u), ⟨rfl, hedge, hstep⟩, m, hrest, hends⟩
  · rintro ⟨⟨_, u⟩, ⟨rfl, hedge, hstep⟩, m, hrest, hends⟩
    exact ⟨m, ⟨hedge, u, hstep, hrest⟩, hends⟩

/-- To reach a place means to follow a way to it. -/
theorem exists_way_of_reaches (x y : LocationId × σ) (h : r.Reaches g x y) :
    ∃ way, r.Follows g x.1 x.2 way y.1 y.2 := by
  induction h using Relation.ReflTransGen.head_induction_on with
  | refl => exact ⟨[], rfl, rfl⟩
  | @head x z hgoes _ ih =>
      -- What the run goes on with has a pick, by which it was found once.
      rcases hgoes with ⟨found, hfound, hz⟩
      rcases exists_key _ found (r.eachOnce_alternatives g x.1 x.2 found hfound) z hz with
        ⟨pick, htarget, hedge, hstep⟩
      rcases ih with ⟨way, hway⟩
      rw [htarget] at hway
      exact ⟨pick :: way, hedge, z.2, hstep, hway⟩

/-- Where a way leads is reached if no place fails that is. -/
theorem reaches_of_follows (way : List Pick) (m : LocationId) (t : σ)
    (hnone : ∀ x, r.Reaches g (l, s) x → ¬ r.Fails g x) (h : r.Follows g l s way m t) :
    r.Reaches g (l, s) (m, t) := by
  induction way generalizing l s with
  | nil =>
      rcases h with ⟨rfl, rfl⟩
      exact .refl
  | cons pick way ih =>
      rcases h with ⟨hedge, u, hstep, hrest⟩
      -- The alternatives are known, as no failure is reached, and so the pick is among them.
      cases hfound : r.alternatives g l s with
      | error e => exact absurd ⟨e, hfound⟩ (hnone (l, s) .refl)
      | ok found =>
          have hmem := mem_of_key _ found (r.eachOnce_alternatives g l s found hfound) pick
            (pick.target, u) ⟨rfl, hedge, hstep⟩
          have hgoes : r.Goes g (l, s) (pick.target, u) := ⟨found, hfound, hmem⟩
          exact .head hgoes (ih pick.target u (fun x hx => hnone x (.head hgoes hx)) hrest)

end Places

section Runs

variable (g : Relation)

/-- A run that succeeds answers with one result for each way that ends where a run finishes. -/
theorem eachOnce_runFrom (depth : Nat) (l : LocationId) (s : σ)
    (found : List (σ × Bool)) (h : r.runFrom g depth l s = .ok found) :
    EachOnce (r.Completes g.toFlow l s) found := by
  -- A run answers with what finishes here and then with what its continuations find, which the
  -- induction hypothesis is about.
  induction depth generalizing l s found with
  | zero => cases h
  | succ depth ih =>
      rcases (except_bind_ok _ _ _).mp h with ⟨next, hnext, h⟩
      rcases (except_bind_ok _ _ _).mp h with ⟨later, hlater, h⟩
      rw [← (except_pure_ok _ _).mp h]
      have hrest : List.Forall₂ (fun (p : LocationId × σ) results =>
          EachOnce (r.Completes g.toFlow p.1 p.2) results) next.reverse later :=
        ((except_mapM_ok _ _ _).mp hlater).imp fun p results hresults => ih p.1 p.2 results hresults
      have hlonger := eachOnce_flatten _ _ List.cons (fun _ _ _ _ heq => List.cons.inj heq) _ _
        (eachOnce_reverse _ _ (r.eachOnce_alternatives g.toFlow l s next hnext)) hrest
      refine eachOnce_congr _ _ _
        (eachOnce_append _ _ _ _ (r.eachOnce_finished g.toFlow l s) hlonger ?_) fun way x => ?_
      · rintro way x y ⟨rfl, _⟩ ⟨pick, _, _, rest, _, heq⟩
        cases heq
      · -- Only the empty way ends here, and all others begin with a pick.
        cases way with
        | nil =>
            constructor
            · rintro (⟨_, hhere⟩ | ⟨_, _, _, _, _, heq⟩)
              · exact hhere
              · cases heq
            · exact fun hhere => Or.inl ⟨rfl, hhere⟩
        | cons pick way =>
            rw [completes_cons_iff]
            constructor
            · rintro (⟨heq, _⟩ | ⟨_, y, hoffer, _, hcomplete, heq⟩)
              · cases heq
              · cases heq
                exact ⟨y, hoffer, hcomplete⟩
            · rintro ⟨y, hoffer, hcomplete⟩
              exact Or.inr ⟨pick, y, hoffer, way, hcomplete, rfl⟩

variable (hwell : g.WellFormed) (start : LocationId) (hrounds : g.AcyclicFrom start)

include hwell hrounds

/-- The depth that is granted is enough where no round lies ahead. -/
theorem length_of_granted (ops : List OperationId) (m : LocationId) (h : g.Walk start ops m) :
    ops.length < g.locations.size + patience := by
  -- A start that is no location has no edges, so nothing but the empty walk begins there.
  by_cases hstart : start ∈ g.locations
  · exact Nat.lt_add_right _ (g.length_of_walk start m ops hwell hstart hrounds h)
  · cases h with
    | nil => exact Nat.lt_add_left _ (by decide)
    | cons edge _ => exact absurd (g.mem_locations_of_edge _ hwell edge).1 hstart

/-- What a run along a relation computes, if the relation is accepted and no round can be reached
    from where the run starts. If it succeeds it answers with one result for each way to an exit or
    to a location that nothing leaves, marked as an exit or not. It fails exactly if some way leads
    to an edge whose operation is refused. -/
theorem runAlong_ways (hloops : g.hasLoops = false) (s : σ) :
    (∀ found, r.runAlong g start s = .ok found → EachOnce (r.Completes g.toFlow start s) found)
      ∧ ((∃ e, r.runAlong g start s = .error e)
        ↔ ∃ way m t, r.Follows g.toFlow start s way m t
          ∧ ∃ op target, (⟨m, target, op⟩ : Edge) ∈ g.edges ∧ r.Refuses t op) := by
  rw [r.runAlong_of_accepted g hloops]
  refine ⟨r.eachOnce_runFrom g _ start s, ?_⟩
  simp only [← r.fails_iff]
  constructor
  · intro hfails
    have hdepth := length_of_granted g hwell start hrounds
    rcases (r.runFrom_error_iff g _ start s hdepth).mp hfails with ⟨⟨m, t⟩, hreach, hstuck⟩
    rcases r.exists_way_of_reaches g.toFlow _ _ hreach with ⟨way, hway⟩
    exact ⟨way, m, t, hway, hstuck⟩
  · rintro ⟨way, m, t, hway, hstuck⟩
    -- A run that succeeds meets no failure, so the way could not lead to one.
    cases hrun : r.runFrom g (g.locations.size + patience) start s with
    | error e => exact ⟨e, rfl⟩
    | ok found =>
        have hnone := (r.mem_runFrom g _ start s found hrun).1
        exact absurd hstuck (hnone _ (r.reaches_of_follows g.toFlow start s way m t hnone hway))

end Runs

section Arms

/-- Arms of a river, two of which come together again. One of them ends in a lake. -/
def river : Relation where
  locations := .ofList [1, 2, 3, 4, 5] compare
  entries := {1}
  exits := .ofList [2, 4] compare
  edges := .ofList (show List Edge from
    [⟨1, 2, 7⟩, ⟨1, 3, epsilonId⟩, ⟨2, 4, 8⟩, ⟨3, 4, 7⟩, ⟨3, 5, epsilonId⟩]) compare
  id := 9
  name := "R9"

/-- An operation may be without effect in two ways, or it adds its number. From some states the
    eighth one cannot be performed. -/
def adrift : Runner Nat where
  analysis :=
    { successors := fun s op _ =>
        if op.id = 8 ∧ 14 ≤ s then .error (.unsupported (.statement op.statement))
        else .ok [s, s + op.id, s]
      isFeasible := fun s => s < 15 }
  concern := .program
  lookUp id := .ok ⟨id, .epsilon⟩
  scope := .ok

/-- A run down the river has fifteen results, some of them equal. Further up it fails, as one way
    leads to where the eighth operation cannot be performed. -/
theorem runAlong_ways_river : river.WellFormed ∧ river.hasLoops = false ∧ river.AcyclicFrom 1
    ∧ EachOnce (adrift.Completes river.toFlow 1 0)
      [(0, false), (0, true), (7, true), (0, true), (0, true), (0, true), (8, true), (0, true),
        (7, true), (7, true), (7, true), (0, true), (0, true), (8, true), (0, true)]
    ∧ ∃ e, adrift.runAlong river 1 7 = .error e := by
  have hwell : river.WellFormed := by
    unfold Flow.WellFormed
    decide
  have hloops : river.hasLoops = false := by decide
  have hup : ∀ e ∈ river.edges.toList, e.source < e.target := by decide
  have hrounds : river.AcyclicFrom 1 := river.acyclicFrom_of_acyclic
    (river.acyclic_of_rank id fun e he => hup e (Std.ExtTreeSet.mem_toList.mpr he)) 1
  have hedges : (⟨1, 2, 7⟩ : Edge) ∈ river.edges ∧ (⟨2, 4, 8⟩ : Edge) ∈ river.edges := by
    decide
  refine ⟨hwell, hloops, hrounds, ?_, ?_⟩
  · refine (adrift.runAlong_ways river hwell 1 hrounds hloops 0).1 _ ?_
    refine (mem_toOption _ _).mp (Option.mem_def.mpr ?_)
    decide
  · have hstep : adrift.Steps 7 7 1 14 := .take rfl rfl rfl rfl rfl rfl
    refine (adrift.runAlong_ways river hwell 1 hrounds hloops 7).2.mpr
      ⟨[⟨7, 2, 1⟩], 2, 14, ⟨hedges.1, 14, hstep, rfl, rfl⟩, 8, 4, hedges.2, ?_⟩
    exact .unperformed rfl rfl rfl rfl

end Arms

end Runner

end ActorCheck

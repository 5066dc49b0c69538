import ActorCheck.Data.Explicit
import ActorCheck.Program.Draft
import ActorCheck.Proofs.Control.Solo
import ActorCheck.Proofs.Data.Reached
import ActorCheck.Proofs.Program.Settling

/-!
# Scheduler and Runs Agree

There are two ways to get from one end of a relation to the other. A run along the relation
searches in depth and knows nothing of threads. The scheduler moves a thread, state by state. For
the only script of a program, and on concrete data, they come to the same: the thread is done in
exactly those stores with which a run finishes, and the scheduler fails exactly if the run does.

Both are compared with what can be reached from the entry in between. A run answers with all it
reaches at locations where it finishes. A state that the scheduler reaches stands for a location
and a store that are reached, and everything that is reached has such a state. Done is a thread
that nothing leads on from, and since nothing leaves an exit, a run finishes in the same places.

## Main definitions

* `Relation.OneWay`: A relation that is left for good wherever it is left.
* `Scheduler.Breaks`: The scheduler fails somewhere.
* `Scheduler.EndsWith`: The only thread is done, and the data is as given.

## Theorems

* `Scheduler.goes_of_passage`, `Scheduler.passage_of_goes`: A move is a way to go on.
* `Scheduler.reaches_of_journey`, `Scheduler.journey_of_reaches`: What the scheduler reaches.
* `Scheduler.breaks_iff`, `Scheduler.endsWith_iff`: What that means for failures and ends.
* `Scheduler.agrees_with_run`: The scheduler and runs agree.
-/

namespace ActorCheck

/-- The relation has one entry and no cycles, and its exits are left by no edge. -/
structure Relation.OneWay (r : Relation) (entry : LocationId) : Prop where
  wellFormed : r.WellFormed
  acyclic : r.Acyclic
  sole : r.soleEntry = .ok entry
  final : ∀ l ∈ r.exits, r.edgesFrom l = []

theorem Relation.finishesAt_of_oneWay (r : Relation) (entry : LocationId) (h : r.OneWay entry)
    (l : LocationId) : r.finishesAt l = !r.hasEdgesFrom l := by
  have hexit : r.exits.contains l = true → (r.edgesFrom l).isEmpty = true := fun hmem =>
    List.isEmpty_iff.mpr (h.final l (Std.ExtTreeSet.contains_iff_mem.mp hmem))
  unfold Flow.finishesAt
  rw [Flow.hasEdgesFrom_eq, Bool.not_not, Bool.or_eq_right_iff_imp]
  exact hexit

namespace Scheduler

variable {σ : Type} [DecidableEq σ]

/-- The program cannot be started with the data, or the successors of some state that it reaches
    cannot be worked out. -/
def Breaks (c : Control σ) (app : App) (data : σ) : Prop :=
  (∃ e k, (startState data).run (new app) = (.error e, k))
    ∨ ∃ moves k s e k', Journey c app data moves k s ∧ (successors c s).run k = (.error e, k')

/-- The program reaches a state in which its only thread is done, and the data is as given. -/
def EndsWith (c : Control σ) (app : App) (data d : σ) : Prop :=
  ∃ moves k s, Journey c app data moves k s ∧ s.threads.map Thread.status = [.done] ∧ s.data = d

section Steps

variable (c : Control σ) (hplain : c.config.aggregateAtomicTransitions = false)
  (hfeasible : ∀ d, c.analysis.isFeasible d = true) (a : Actor) (script : Script) (r : Relation)
  (k : Scheduler) (h : k.app.Solo a script r) (x : LocationId × σ) (t : Thread)

include hplain hfeasible h

/-- A move of the thread is a way to go on, and leaves the program as it is. -/
theorem goes_of_passage (k' : Scheduler) (m : Move σ) (w : Passage c k k' m)
    (hm : m.source.Alone a script r .running x t) :
    k' = k ∧ ∃ y t', m.target.Alone a script r .running y t'
      ∧ (k.app.soloRunner c.analysis a r).Goes r.toFlow x y := by
  rcases looksUp_successors_of_alone a script r c k hplain hfeasible h x t m.source hm with
    ⟨outcome, hlook, hways⟩
  -- The step works out the successors itself, and they can be worked out in one way only.
  have hsame := hlook.symm.trans w.whole
  rcases (hways w.all).mp (congrArg Prod.fst hsame) with ⟨found, hfound, hall⟩
  have htarget := w.offered
  rw [hall] at htarget
  rcases List.mem_map.mp htarget with ⟨y, hy, hsent⟩
  rcases m.source.alone_sent a script r k.app (k.app.runs_of_solo a script r h) x t hm y with
    ⟨t', ht'⟩
  exact ⟨(congrArg Prod.snd hsame).symm, y, t', hsent ▸ ht', found, hfound, hy⟩

/-- Every way to go on is a move of the thread. -/
theorem passage_of_goes (s : ControlState σ) (hs : s.Alone a script r .running x t)
    (y : LocationId × σ) (hgoes : (k.app.soloRunner c.analysis a r).Goes r.toFlow x y) :
    ∃ m : Move σ, m.source = s ∧ Nonempty (Passage c k k m)
      ∧ ∃ t', m.target.Alone a script r .running y t' := by
  rcases hgoes with ⟨found, hfound, hy⟩
  rcases looksUp_successors_of_alone a script r c k hplain hfeasible h x t s hs with
    ⟨outcome, hlook, hways⟩
  -- With a way to go on the successors cannot be an error, so they are the list that has this one
  -- in it.
  rw [(hways _).mpr ⟨found, hfound, rfl⟩] at hlook
  rcases passage_of_gives_successors c s _ k k _ hlook (List.mem_map_of_mem hy) with
    ⟨index, edge, operations, hw⟩
  exact ⟨⟨s, index, edge, operations, _⟩, rfl, hw,
    s.alone_sent a script r k.app (k.app.runs_of_solo a script r h) x t hs y⟩

end Steps

section Runs

variable (c : Control σ) (hplain : c.config.aggregateAtomicTransitions = false)
  (hfeasible : ∀ d, c.analysis.isFeasible d = true) (app : App) (a : Actor) (script : Script)
  (r : Relation) (h : app.Solo a script r) (entry : LocationId) (hentry : r.soleEntry = .ok entry)
  (data : σ)

include hplain hfeasible h hentry

/-- Every state of a run stands for a location and data that are reached from the entry. The
    program has not changed since it started. -/
theorem reaches_of_journey (moves : List (Move σ)) (k : Scheduler) (s : ControlState σ)
    (hj : Journey c app data moves k s) :
    k = new app.started ∧ ∃ x t, s.Alone a script r .running x t
      ∧ (app.soloRunner c.analysis a r).Reaches r.toFlow (entry, data) x := by
  -- By induction on the run. What is carried along is that the program stays the one that was
  -- started, as the steps of the only thread add nothing to it.
  induction hj with
  | start k s hgives =>
      rcases gives_startState_of_solo a script r app h entry hentry data with ⟨s', t, hgives', hs⟩
      cases hgives.symm.trans hgives'
      exact ⟨rfl, _, t, hs, .refl⟩
  | move moves m k k' before w ih =>
      rcases ih with ⟨rfl, x, t, hs, hx⟩
      rcases goes_of_passage c hplain hfeasible a script r (new app.started)
        (app.solo_of_started a script r h) x t k' m w hs with ⟨hsame, y, t', ht', hgoes⟩
      exact ⟨hsame, y, t', ht', hx.tail hgoes⟩

/-- Some run gets to a state that stands for what is reached. -/
theorem journey_of_reaches (x : LocationId × σ)
    (hx : (app.soloRunner c.analysis a r).Reaches r.toFlow (entry, data) x) :
    ∃ moves s t, Journey c app data moves (new app.started) s
      ∧ s.Alone a script r .running x t := by
  -- By induction on the way, the last step first, since a run is continued at its end as well.
  induction hx with
  | refl =>
      rcases gives_startState_of_solo a script r app h entry hentry data with ⟨s, t, hgives, hs⟩
      exact ⟨[], s, t, .start _ s hgives, hs⟩
  | @tail x y _ hgoes ih =>
      rcases ih with ⟨moves, s, t, hj, hs⟩
      rcases passage_of_goes c hplain hfeasible a script r (new app.started)
        (app.solo_of_started a script r h) x t s hs y hgoes with ⟨m, rfl, ⟨w⟩, t', ht'⟩
      exact ⟨moves ++ [m], m.target, t', .move moves m _ _ hj w, ht'⟩

/-- The scheduler fails exactly if something is reached from which there is no telling how to go
    on. -/
theorem breaks_iff : Breaks c app data
    ↔ ∃ x, (app.soloRunner c.analysis a r).Reaches r.toFlow (entry, data) x
      ∧ (app.soloRunner c.analysis a r).Fails r.toFlow x := by
  have hstuck := fails_iff_of_alone a script r c (new app.started) hplain hfeasible
    (app.solo_of_started a script r h)
  -- The start cannot fail, as there is one entry. So a failure is one of successors, and both sides
  -- are about the same place.
  constructor
  · rintro (⟨e, k, hfails⟩ | ⟨moves, k, s, e, k', hj, hfails⟩)
    · rcases gives_startState_of_solo a script r app h entry hentry data with ⟨s, t, hgives, _⟩
      cases hgives.symm.trans hfails
    · rcases reaches_of_journey c hplain hfeasible app a script r h entry hentry data moves k s hj
        with ⟨rfl, x, t, hs, hx⟩
      exact ⟨x, hx, (hstuck x t s hs).mp ⟨e, k', hfails⟩⟩
  · rintro ⟨x, hx, hfails⟩
    rcases journey_of_reaches c hplain hfeasible app a script r h entry hentry data x hx with
      ⟨moves, s, t, hj, hs⟩
    rcases (hstuck x t s hs).mpr hfails with ⟨e, k', herror⟩
    exact Or.inr ⟨moves, _, s, e, k', hj, herror⟩

/-- The thread is done exactly where nothing leads on. -/
theorem endsWith_iff (d : σ) : EndsWith c app data d
    ↔ ∃ l, (app.soloRunner c.analysis a r).Reaches r.toFlow (entry, data) (l, d)
      ∧ r.hasEdgesFrom l = false := by
  constructor
  · rintro ⟨moves, k, s, hj, hdone, rfl⟩
    rcases reaches_of_journey c hplain hfeasible app a script r h entry hentry data moves k s hj
      with ⟨_, x, t, hs, hx⟩
    -- The status of the thread is worked out from whether an edge leaves its place.
    rw [hs.threads, List.map_singleton, hs.status] at hdone
    refine ⟨x.1, hs.data ▸ hx, ?_⟩
    cases hmore : r.hasEdgesFrom x.1 with
    | false => rfl
    | true =>
        rw [hmore] at hdone
        cases hdone
  · rintro ⟨l, hx, hmore⟩
    rcases journey_of_reaches c hplain hfeasible app a script r h entry hentry data _ hx with
      ⟨moves, s, t, hj, hs⟩
    refine ⟨moves, _, s, hj, ?_, hs.data⟩
    rw [hs.threads, List.map_singleton, hs.status, hmore]
    rfl

end Runs

/-- The scheduler and runs agree. One fails exactly if the other does, and if a run along the
    relation succeeds, it answers with the stores in which the only thread is done. -/
theorem agrees_with_run (config : ControlConfig)
    (hplain : config.aggregateAtomicTransitions = false) (app : App) (a : Actor) (script : Script)
    (r : Relation) (h : app.Solo a script r) (entry : LocationId) (hr : r.OneWay entry)
    (data : Store) :
    ∃ runner, app.runner .explicit a.concern r (some a.name) = .ok runner
      ∧ (Breaks ⟨.explicit, config⟩ app data ↔ ∃ e, runner.runAlong r entry data = .error e)
      ∧ ∀ found, runner.runAlong r entry data = .ok found →
        ∀ d, EndsWith ⟨.explicit, config⟩ app data d ↔ ∃ b, (d, b) ∈ found := by
  let c : Control Store := ⟨.explicit, config⟩
  have hfeasible : ∀ d, c.analysis.isFeasible d = true := fun _ => rfl
  -- The entry is a location of its own relation, which a run has to know.
  have hstart : entry ∈ r.locations := by
    refine hr.wellFormed entry (List.mem_append_left _ (List.mem_append_right _ ?_))
    exact Std.ExtTreeSet.mem_toList.mpr (Relation.mem_entries_of_soleEntry r entry hr.sole)
  refine ⟨app.soloRunner .explicit a r, app.runner_of_solo a script r h .explicit, ?_,
    fun found hfound d => ?_⟩
  · rw [Runner.runAlong_error_iff _ r hr.acyclic hr.wellFormed entry hstart data]
    exact breaks_iff c hplain hfeasible app a script r h entry hr.sole data
  · rw [endsWith_iff c hplain hfeasible app a script r h entry hr.sole data d]
    -- A run finishes at exits and at dead ends. In such a relation exits are dead ends.
    have hends : ∀ l, r.finishesAt l = true ↔ r.hasEdgesFrom l = false := by
      intro l
      rw [r.finishesAt_of_oneWay entry hr, Bool.not_eq_true']
    constructor
    · rintro ⟨l, hl, hmore⟩
      exact ⟨_, (Runner.mem_runAlong _ r hr.acyclic entry data found hfound d _).mpr
        ⟨l, hl, (hends l).mpr hmore, rfl⟩⟩
    · rintro ⟨b, hb⟩
      rcases (Runner.mem_runAlong _ r hr.acyclic entry data found hfound d b).mp hb with
        ⟨l, hl, hfinishes, _⟩
      exact ⟨l, hl, (hends l).mp hfinishes⟩

section Crossroads

/-- How many lights a car has switched on. -/
def lights : Variable := ⟨"lights", .number, .unqualified⟩

/-- The program of a car with three ways to go, one of which is closed to it. -/
def crossroads : App :=
  (AppDraft.build
    { name := "crossroads"
      relations := [.graph 4 [0] [3] [
        ⟨0, .statement (.assume (.cmp .eq (.var lights) (.num 0))), 1⟩,
        ⟨0, .statement (.assume (.cmp .gt (.var lights) (.num 0))), 2⟩,
        ⟨0, .statement (.store lights (.num 1)), 2⟩,
        ⟨1, .operation epsilonId, 3⟩,
        ⟨2, .statement (.store lights (.arith .add (.var lights) (.num 1))), 3⟩]]
      actors := [⟨"car", .program, none, [], [], [], [(.bootstrap, 0)]⟩] }).run
    (App.new "crossroads") |>.2

/-- The car, with the number of its script. -/
def car : Actor := (Actor.new "car" .program).addScript ⟨10, .bootstrap, 9⟩

/-- The ways of the car, with all their numbers. -/
def ways : Relation where
  locations := .ofList [1, 2, 3, 4] compare
  entries := {1}
  exits := {4}
  edges := .ofList (show List Edge from
    [⟨1, 2, 5⟩, ⟨1, 3, 6⟩, ⟨1, 3, 7⟩, ⟨2, 4, epsilonId⟩, ⟨3, 4, 8⟩]) compare
  id := 9
  name := "R9"

theorem solo_crossroads : crossroads.Solo car ⟨10, .bootstrap, 9⟩ ways := by
  refine ⟨by decide +kernel, rfl, rfl, rfl, by decide +kernel, by decide +kernel, ?_⟩
  -- Over the list of the edges the question is a finite one, over the set it is not.
  have hall : ∀ e ∈ ways.edges.toList, ∀ op ∈ (crossroads.operation e.op).toOption,
      op.statement.OfData car := by decide +kernel
  intro e he op hop
  exact hall e (Std.ExtTreeSet.mem_toList.mpr he) op ((mem_toOption _ _).mpr hop)

/-- All ways lead to locations with higher numbers. -/
theorem oneWay_ways : ways.OneWay 1 := by
  have hup : ∀ e ∈ ways.edges.toList, e.source < e.target := by decide +kernel
  have hfinal : ∀ l ∈ ways.exits.toList, ways.edgesFrom l = [] := by decide +kernel
  refine ⟨?_, ways.acyclic_of_rank id fun e he => ?_, by decide +kernel, fun l hl => ?_⟩
  · unfold Flow.WellFormed
    decide +kernel
  · exact hup e (Std.ExtTreeSet.mem_toList.mpr he)
  · exact hfinal l (Std.ExtTreeSet.mem_toList.mpr hl)

/-- The car gets to the other side with no lights on, or with both. -/
theorem agrees_with_run_crossroads : ¬ Breaks ⟨.explicit, .default⟩ crossroads ∅
    ∧ ∀ d, EndsWith ⟨.explicit, .default⟩ crossroads ∅ d
      ↔ d = ∅ ∨ d = (∅ : Store).insert "car::R9::lights" (.int 2) := by
  let on : Store := (∅ : Store).insert "car::R9::lights" (.int 2)
  rcases agrees_with_run .default rfl crossroads car ⟨10, .bootstrap, 9⟩ ways solo_crossroads 1
    oneWay_ways ∅ with ⟨runner, hrunner, hbreaks, hends⟩
  have hresult : ((crossroads.runner .explicit .program ways (some "car")).toOption.bind
      fun runner => (runner.runAlong ways 1 ∅).toOption) = some [(on, true), (∅, true)] := by
    decide +kernel
  have hrun : runner.runAlong ways 1 ∅ = .ok [(on, true), (∅, true)] := by
    have hcar : crossroads.runner .explicit .program ways (some "car") = .ok runner := hrunner
    rw [hcar] at hresult
    exact (mem_toOption _ _).mp hresult
  refine ⟨fun hfails => ?_, fun d => (hends _ hrun d).trans ?_⟩
  · rcases hbreaks.mp hfails with ⟨e, he⟩
    rw [hrun] at he
    cases he
  · constructor
    · rintro ⟨b, hb⟩
      rcases List.mem_pair.mp hb with heq | heq
      · exact Or.inr (congrArg Prod.fst heq)
      · exact Or.inl (congrArg Prod.fst heq)
    · rintro (rfl | rfl)
      · exact ⟨true, List.mem_cons_of_mem _ List.mem_cons_self⟩
      · exact ⟨true, List.mem_cons_self⟩

end Crossroads

end Scheduler

end ActorCheck

import ActorCheck.Data.Along
import ActorCheck.Proofs.Control.Followers
import ActorCheck.Proofs.Program.Lines

/-!
# A Thread by Itself

A program with one actor and one script has one thread. The scheduler has nothing to choose: the
thread runs if anything leaves its place, and is done if not. What can differ from state to state
is where the thread is and what the data is, so a state of such a program stands for a location and
a state of the data. `Alone` says which one.

The successors of a state stand for the ways to go on from there. Both are worked out from the
edges that leave the location, though not in the same order: a step first gives all operations
their scopes and performs them afterwards, while a run along the relation finishes one edge before
it turns to the next. They may report different errors if several edges are faulty, but one reports
an error exactly if the other does.

## Main definitions

* `App.Solo`: A program with one script.
* `App.soloRunner`: What runs along the relation of the script depend on.
* `ControlState.Alone`: What a state of such a program stands for.
* `App.sent`: The state after the thread has gone somewhere.

## Theorems

* `App.runner_of_solo`: The runner that the program provides.
* `App.alternatives_of_solo`: The ways to go on, in the order in which a step works them out.
* `Scheduler.gives_startState_of_solo`: The state in which the program starts.
* `Scheduler.looksUp_successors_of_alone`: The successors stand for the ways to go on.
* `Scheduler.fails_iff_of_alone`: They fail exactly if there is no telling how to go on.
-/

namespace ActorCheck

/-- All that a program does is to run a relation, on behalf of its only actor and without anything
    that concerns the scheduler. -/
structure App.Solo (app : App) (a : Actor) (script : Script) (r : Relation) : Prop where
  actors : app.actors = [a]
  only : a.scripts = [script]
  bootstrap : script.event = .bootstrap
  runs : script.relation = r.id
  relation : app.relation r.id = .ok r
  idle : app.operation epsilonId = .ok .epsilon
  ofData : ∀ e ∈ r.edges, ∀ op, app.operation e.op = .ok op → op.statement.OfData a

/-- What runs along the relation depend on in such a program. -/
def App.soloRunner {σ : Type} (app : App) (analysis : DataAnalysis σ) (a : Actor) (r : Relation) :
    Runner σ :=
  ⟨analysis, a.concern, app.operationOf,
    fun op => ofScope ((Scoping.new a [a.name, r.name]).operation op)⟩

/-- The only thread of a state is at a location, with the data as it is there. If anything leaves
    the location, the thread is going on, and if not, it is done. -/
structure ControlState.Alone {σ : Type} (a : Actor) (script : Script) (r : Relation)
    (going : ThreadStatus) (x : LocationId × σ) (t : Thread) (s : ControlState σ) : Prop where
  noTarget : s.targetFor = ∅
  free : s.conditions = []
  unbound : s.actorScopes = ∅
  data : s.data = x.2
  threads : s.threads = [t]
  follows : t.Follows a script r
  location : t.place.location = x.1
  status : t.status = if r.hasEdgesFrom x.1 then going else .done

variable {σ : Type} (a : Actor) (script : Script) (r : Relation)

namespace App

variable (app : App) (h : app.Solo a script r)

/-- The program after its only thread was given a number. -/
def started : App := { app with supply := ⟨app.supply.next + 1⟩ }

/-- The state after the only thread has gone to a location and the data has become what it is
    there. -/
def sent (s : ControlState σ) (t : Thread) (y : LocationId × σ) : ControlState σ :=
  (app.rested s 0 t { t.place with location := y.1 } y.2).granted
    (if r.hasEdgesFrom y.1 then some 0 else none)

section Solo

include h

theorem solo_of_started : app.started.Solo a script r :=
  ⟨h.actors, h.only, h.bootstrap, h.runs, h.relation, h.idle, h.ofData⟩

theorem actor_of_solo : app.actor a.name = .ok a := by
  have hfind : app.actors.find? (fun b => b.name == a.name) = some a := by
    rw [h.actors]
    exact List.find?_cons_of_pos (beq_self_eq_true a.name)
  unfold actor
  rw [hfind]

theorem runs_of_solo : app.Runs a script r :=
  app.runs_of_only a script r (app.actor_of_solo a script r h) h.only h.bootstrap h.relation

/-- The runner that the program provides. -/
theorem runner_of_solo (analysis : DataAnalysis σ) :
    app.runner analysis a.concern r (some a.name) = .ok (app.soloRunner analysis a r) :=
  app.runner_of_actor analysis a.concern r a.name a (app.actor_of_solo a script r h)

end Solo

section Ways

variable (c : Control σ) (hfeasible : ∀ d, c.analysis.isFeasible d = true)
  (hidle : app.operation epsilonId = .ok .epsilon)

include hidle

/-- The operation that does nothing has this statement. -/
theorem eq_epsilon_of_isEpsilon (id : OperationId) (op : Operation)
    (hop : app.operation id = .ok op) (hnothing : op.isEpsilon = true) : op = .epsilon := by
  -- Operations are found under their numbers.
  have hid : op.id = id := by
    unfold operation at hop
    split at hop
    · cases hop
      rfl
    · cases hop
  rw [← hid, beq_iff_eq.mp hnothing, hidle] at hop
  exact (Except.ok.inj hop).symm

include hfeasible

/-- What comes after an edge of a run, as a step works it out. A step gives even the operation that
    does nothing a scope, which cannot fail. -/
theorem after_of_solo (d : σ) (id : OperationId) :
    (app.soloRunner c.analysis a r).after d id = (do
      let op ← app.operationOf id
      let placed ← ofScope ((Scoping.new a [a.name, r.name]).operation op)
      return (← c.analysis.run d [placed] a.concern).filter c.analysis.isFeasible) := by
  have hall : ∀ states : List σ, states.filter c.analysis.isFeasible = states :=
    fun states => List.filter_eq_self.mpr fun s _ => hfeasible s
  unfold Runner.after soloRunner
  dsimp only
  cases hop : app.operationOf id with
  | error e => rfl
  | ok op =>
      change (if op.isEpsilon then _ else _) = _
      -- The run skips the operation that does nothing. The step gives it a scope first and then
      -- skips it as well.
      cases hnothing : op.isEpsilon with
      | true =>
          rw [app.eq_epsilon_of_isEpsilon hidle id op ((ofModel_ok _ _).mp hop) hnothing]
          exact congrArg Except.ok (hall [d]).symm
      | false =>
          rw [if_neg Bool.false_ne_true]
          change _ = (ofScope ((Scoping.new a [a.name, r.name]).operation op) >>= fun placed => _)
          cases hplaced : ofScope ((Scoping.new a [a.name, r.name]).operation op) with
          | error e => rfl
          | ok placed =>
              -- The operation keeps its number, so that it is no more skipped than before.
              have hid : placed.isEpsilon = false := by
                rcases (except_bind_ok _ _ _).mp ((ofScope_ok _ _).mp hplaced) with ⟨_, _, hpure⟩
                rw [← (except_pure_ok _ _).mp hpure]
                exact hnothing
              have hrun : c.analysis.run d [placed] a.concern
                  = c.analysis.successors d placed a.concern := by
                rw [c.analysis.run_singleton, hid, if_neg Bool.false_ne_true]
              change _ = (c.analysis.run d [placed] a.concern >>= fun states => _)
              rw [hrun]
              rfl

/-- The ways to go on, in the order in which a step works them out. -/
theorem alternatives_of_solo (p : Place) (hp : p.actor = a.name) (d : σ)
    (arrive : Place → σ → ControlState σ) (next : List (ControlState σ)) :
    (do
      let edges ← (r.edgesFrom p.location).mapM (app.edgeAt a r p)
      let found ← edges.mapM fun (edge : Operation × Place) => do
        let states ← c.analysis.run d [edge.1] a.concern
        return (states.filter c.analysis.isFeasible).map fun data => arrive edge.2 data
      return found.flatten) = .ok next
    ↔ ∃ found, (app.soloRunner c.analysis a r).alternatives r.toFlow p.location d = .ok found
      ∧ next = found.map fun y => arrive { p with location := y.1 } y.2 := by
  -- For one edge the step and the run do the same, one before and one after the scope is given.
  have hone : ∀ e : OperationId × LocationId, (do
      let edge ← app.edgeAt a r p e
      let states ← c.analysis.run d [edge.1] a.concern
      return (states.filter c.analysis.isFeasible).map fun data => arrive edge.2 data)
      = (do
        let ways ← (do
          return (← (app.soloRunner c.analysis a r).after d e.1).map fun next => (e.2, next))
        return ways.map fun y => arrive { p with location := y.1 } y.2) := by
    intro e
    rw [app.after_of_solo a r c hfeasible hidle]
    unfold edgeAt
    simp only [hp, bind_assoc, pure_bind, List.map_map]
    rfl
  unfold Runner.alternatives
  constructor
  · intro h
    -- Giving all edges their scopes first comes to the same as finishing them one by one.
    rcases (except_bind_ok _ _ _).mp h with ⟨edges, hedges, h⟩
    rcases (except_bind_ok _ _ _).mp h with ⟨found, hfound, h⟩
    have hboth := (except_mapM_mapM_ok _ _ _ found).mp
      ((except_bind_ok _ _ _).mpr ⟨edges, hedges, hfound⟩)
    rw [funext hone, except_mapM_map_ok] at hboth
    rcases hboth with ⟨ways, hways, rfl⟩
    refine ⟨ways.flatten, (except_bind_ok _ _ _).mpr ⟨ways, hways, rfl⟩, ?_⟩
    rw [← (except_pure_ok _ _).mp h, List.map_flatten]
  · rintro ⟨_, hfound, rfl⟩
    rcases (except_bind_ok _ _ _).mp hfound with ⟨ways, hways, hflat⟩
    have hboth := (except_mapM_map_ok _
      (List.map fun y => arrive { p with location := y.1 } y.2) _ _).mpr ⟨ways, hways, rfl⟩
    rw [← funext hone, ← except_mapM_mapM_ok] at hboth
    rcases (except_bind_ok _ _ _).mp hboth with ⟨edges, hedges, hall⟩
    refine (except_bind_ok _ _ _).mpr ⟨edges, hedges, (except_bind_ok _ _ _).mpr ⟨_, hall, ?_⟩⟩
    rw [← (except_pure_ok _ _).mp hflat, List.map_flatten]
    rfl

end Ways

end App

namespace ControlState

variable (app : App) (h : app.Runs a script r) (x : LocationId × σ) (t : Thread)
  (s : ControlState σ)

theorem isTarget_of_alone (going : ThreadStatus) (hs : s.Alone a script r going x t) :
    s.isTarget = false := by
  unfold isTarget
  rw [hs.noTarget]
  rfl

theorem idle_of_alone (hs : s.Alone a script r .yield x t) :
    ∀ u ∈ s.threads, u.status ≠ .running := by
  rw [hs.threads]
  intro u hu
  rw [List.mem_singleton.mp hu, hs.status]
  split
  · exact nofun
  · exact nofun

/-- The thread that has stopped somewhere goes on if anything leaves its place. -/
theorem alone_granted (hs : s.Alone a script r .yield x t) :
    ∃ t', (s.granted (if r.hasEdgesFrom x.1 then some 0 else none)).Alone a script r .running x
      t' := by
  -- A thread that nothing can move on is done and stays so, even with the turn on offer.
  cases hmore : r.hasEdgesFrom x.1 with
  | false =>
      refine ⟨t, hs.noTarget, hs.free, hs.unbound, hs.data, hs.threads, hs.follows, hs.location, ?_⟩
      rw [hs.status, hmore]
      rfl
  | true =>
      refine ⟨{ t with status := .running }, hs.noTarget, hs.free, hs.unbound, hs.data, ?_,
        t.follows_of_status a script r hs.follows .running, hs.location, by rw [hmore]; rfl⟩
      change s.threads.modify 0 _ = _
      rw [hs.threads]
      rfl

include h

/-- Who runs next among one thread. -/
theorem nextThread_of_alone (hs : s.Alone a script r .yield x t) :
    app.nextThread s 0 = .ok (if r.hasEdgesFrom x.1 then some 0 else none) := by
  have hidle := idle_of_alone a script r x t s hs t (hs.threads ▸ List.mem_singleton_self t)
  rw [← hs.location]
  refine app.nextThread_single s t hs.threads hidle _ ?_ a.isObserver
    (t.observes_of_follows a script r hs.follows app h)
  exact t.canRun_of_follows a script r hs.follows app h (hs.location.symm ▸ hs.status)

/-- The thread has gone somewhere and has given its turn away. -/
theorem alone_rested (hs : s.Alone a script r .running x t) (y : LocationId × σ) :
    (app.rested s 0 t { t.place with location := y.1 } y.2).Alone a script r .yield y
      (app.restedAt t { t.place with location := y.1 }) := by
  have hthread := t.restedAt_of_follows a script r hs.follows app h y.1
  -- A step along an edge changes nothing but the place, the data and the status.
  refine ⟨hs.noTarget, hs.free, hs.unbound, rfl, ?_, ?_, ?_, ?_⟩
  · change s.threads.set 0 _ = _
    rw [hs.threads]
    rfl
  · rw [hthread]
    exact Thread.follows_of_status _ a script r (t.follows_movedTo a script r hs.follows app y.1) _
  · rw [hthread]
    rfl
  · rw [hthread]

theorem alone_sent (hs : s.Alone a script r .running x t) (y : LocationId × σ) :
    ∃ t', (app.sent r s t y).Alone a script r .running y t' :=
  alone_granted a script r y _ _ (alone_rested a script r app h x t s hs y)

/-- Nothing is going on but the step of the thread. -/
theorem quiet_of_alone (hs : s.Alone a script r .running x t)
    (hmore : r.hasEdgesFrom x.1 = true) : app.Quiet s 0 t a := by
  have hruns : t.status = .running := by
    rw [hs.status, hmore]
    rfl
  have hall : ∀ P : Thread → Prop, P t → ∀ u ∈ s.threads, P u := by
    intro P ht
    rw [hs.threads]
    exact List.forall_mem_singleton.mpr ht
  refine ⟨s.isTarget_of_alone a script r x t .running hs, ?_, ?_,
    t.actorNamed_of_follows a script r hs.follows app h, hs.free, hs.unbound,
    hs.follows.operations, hall _ hs.follows.waits,
    hall _ (t.noMonitor_of_follows a script r hs.follows app h), fun i u hu hne => ?_⟩
  · unfold running Thread.isRunning
    rw [hs.threads]
    simp [hruns]
  · rw [hs.threads]
    rfl
  · rw [hs.threads, List.getElem?_eq_none (Nat.one_le_iff_ne_zero.mpr hne)] at hu
    cases hu

end ControlState

namespace Scheduler

/-- The state in which the program starts. The thread is at the entry. -/
theorem gives_startState_of_solo (app : App) (h : app.Solo a script r) (entry : LocationId)
    (hentry : r.soleEntry = .ok entry) (data : σ) :
    ∃ s t, Gives (startState data) (Scheduler.new app) s (Scheduler.new app.started)
      ∧ s.Alone a script r .running (entry, data) t := by
  rcases gives_initialThread (Scheduler.new app) a script r (app.runs_of_solo a script r h) h.runs
    entry hentry with ⟨t, hthread, hfollows, hlocation, hstatus⟩
  -- There is one actor with one script, so one thread is made, and one number is drawn.
  have hthreads : Gives initialThreads (Scheduler.new app) [t] (Scheduler.new app.started) := by
    have hactor : Gives (a.scripts.mapM (initialThread a)) (Scheduler.new app) [t]
        (Scheduler.new app.started) := by
      rw [h.only, List.mapM_cons, List.mapM_nil]
      exact (gives_bind _ _ _ _ _).mpr ⟨t, _, hthread, rfl⟩
    have hactors : (Scheduler.new app).app.actors = [a] := h.actors
    unfold initialThreads
    rw [gives_program_bind, hactors, List.mapM_cons, List.mapM_nil]
    refine (gives_bind _ _ _ _ _).mpr ⟨[[t]], _, ?_, rfl⟩
    exact (gives_bind _ _ _ _ _).mpr ⟨[t], _, hactor, rfl⟩
  have hrests : (ControlState.new [t] data).Alone a script r .yield (entry, data) t :=
    ⟨rfl, rfl, rfl, rfl, rfl, hfollows, hlocation, hstatus⟩
  have hnext := ControlState.nextThread_of_alone a script r app.started
    (app.started.runs_of_solo a script r (app.solo_of_started a script r h)) _ t _ hrests
  rcases ControlState.alone_granted a script r _ t _ hrests with ⟨t', hgoes⟩
  exact ⟨_, t', gives_startState _ (Scheduler.new app.started) [t] data hthreads
    (ControlState.idle_of_alone a script r _ t _ hrests) _ hnext, hgoes⟩

section Steps

variable [DecidableEq σ] (c : Control σ) (k : Scheduler)
  (hplain : c.config.aggregateAtomicTransitions = false)
  (hfeasible : ∀ d, c.analysis.isFeasible d = true) (h : k.app.Solo a script r)
  (x : LocationId × σ) (t : Thread) (s : ControlState σ) (hs : s.Alone a script r .running x t)

include hplain hfeasible h hs

/-- The successors of a state stand for the ways to go on, and they can be worked out exactly if
    these can. -/
theorem looksUp_successors_of_alone :
    ∃ outcome, LooksUp (successors c s) k outcome ∧ ∀ next, outcome = .ok next
      ↔ ∃ found, (k.app.soloRunner c.analysis a r).alternatives r.toFlow x.1 x.2 = .ok found
        ∧ next = found.map (k.app.sent r s t) := by
  have hruns := k.app.runs_of_solo a script r h
  cases hmore : r.hasEdgesFrom x.1 with
  | false =>
      -- The thread is done, and there is no way to go on.
      have hnone : r.edgesFrom x.1 = [] := by
        rw [Flow.hasEdgesFrom_eq, Bool.not_eq_false', List.isEmpty_iff] at hmore
        exact hmore
      have hidle : s.running = [] := by
        unfold ControlState.running Thread.isRunning
        rw [hs.threads]
        simp [hs.status, hmore]
      refine ⟨.ok [], looksUp_successors_idle k c s hplain
        (s.isTarget_of_alone a script r x t .running hs) hidle, fun next => ?_⟩
      unfold Runner.alternatives
      rw [hnone]
      constructor
      · intro hnext
        cases hnext
        exact ⟨[], rfl, rfl⟩
      · rintro ⟨found, hfound, rfl⟩
        cases hfound
        rfl
  | true =>
      have hquiet := s.quiet_of_alone a script r k.app hruns x t hs hmore
      have hedges : ∀ edge ∈ r.edgesFrom t.place.location, ∀ op,
          k.app.operation edge.1 = .ok op → op.statement.OfData a := by
        intro edge hedge op hop
        exact h.ofData _ ((r.mem_edgesFrom _ _ _).mp hedge) op hop
      refine ⟨_, looksUp_successors k c s 0 t a hquiet hplain hs.follows.free r
        (t.relationOf_of_follows a script r hs.follows k.app hruns)
        (hs.location ▸ hmore) hedges
        (fun p => if r.hasEdgesFrom p.location then some 0 else none) fun edge _ data => ?_,
        fun next => ?_⟩
      · exact ControlState.nextThread_of_alone a script r k.app hruns (edge.2, data) _ _
          (s.alone_rested a script r k.app hruns x t hs (edge.2, data))
      · rw [← hs.location, ← hs.data]
        exact k.app.alternatives_of_solo a r c hfeasible h.idle t.place hs.follows.home s.data
          (fun p data => (k.app.rested s 0 t p data).granted
            (if r.hasEdgesFrom p.location then some 0 else none)) next

/-- They cannot be worked out exactly if there is no telling how to go on. -/
theorem fails_iff_of_alone :
    (∃ e k', (successors c s).run k = (.error e, k'))
      ↔ ∃ e, (k.app.soloRunner c.analysis a r).alternatives r.toFlow x.1 x.2 = .error e := by
  rcases looksUp_successors_of_alone a script r c k hplain hfeasible h x t s hs with
    ⟨outcome, hlook, hways⟩
  constructor
  · rintro ⟨e, k', hfails⟩
    have hsame := congrArg Prod.fst (hlook.symm.trans hfails)
    cases hfound : (k.app.soloRunner c.analysis a r).alternatives r.toFlow x.1 x.2 with
    | error e' => exact ⟨e', rfl⟩
    | ok found => cases hsame.symm.trans ((hways _).mpr ⟨found, hfound, rfl⟩)
  · rintro ⟨e, hfails⟩
    cases outcome with
    | error e' => exact ⟨e', k, hlook⟩
    | ok next =>
        rcases (hways next).mp rfl with ⟨found, hfound, _⟩
        cases hfails.symm.trans hfound

end Steps

end Scheduler

end ActorCheck

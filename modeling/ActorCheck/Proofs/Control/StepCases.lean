import ActorCheck.Proofs.Control.Growth

/-!
# What a Step Can Do

A successor of a state comes about in phases: one edge is taken and its
statement interpreted, the data analysis does its part, the threads at the end
of their relations are done, whoever can go on is woken up, and the next thread
is chosen. `Step` records one way through these phases, with every intermediate
value and with the program at each of them. `step_of_gives_successors` says that
every successor has such a record.

An invariant is then shown phase by phase, from the record alone. No proof about
a step has to open the step again.

Waking up is recorded in the same manner. `Woken` is one way through it: the
monitors are started, those who wait for finished threads are released, and if
there are condition threads they are evaluated, possibly on data on which the
clock was moved.

## Main definitions

* `Scheduler.Woken`: One way through the phases of waking up.
* `Scheduler.Completed`: One way through the end of a step.
* `Scheduler.Step`: One way through the phases of a step.

## Theorems

* `Scheduler.woken_of_gives_wakeAll`: Every result of waking up has a record.
* `Scheduler.completed_of_gives_complete`: Every end of a step has a record.
* `Scheduler.step_of_gives_successors`: Every successor has a record.
-/

namespace ActorCheck

namespace Scheduler

variable {σ : Type}

/-- The state in which waking up begins: the thread at an index has taken its
    step, and the data analysis has brought the data to `data`. -/
def afterStep (s : ControlState σ) (index : Nat) (threads : List Thread) (data : σ) :
    ControlState σ :=
  { s with threads := threads, data := data, stepped := some index }

/-- The state after the condition threads were looked at. Without condition
    threads nothing happens. Otherwise they are evaluated, on the data as they
    are or on data on which the clock was moved. -/
inductive Checked [DecidableEq σ] (c : Control σ) (app : App) (s u : ControlState σ) : Prop where
  | none (empty : s.conditions.isEmpty = true) (same : u = s)
  | evaluated (data : σ) (found : List (ControlState σ))
      (evaluate : evaluateConditions c app { s with data := data } = .ok found) (result : u ∈ found)

/-- One way through the phases of waking up. -/
inductive Woken [DecidableEq σ] (c : Control σ) (before after : App) (concern : Concern)
    (s u : ControlState σ) : Prop where
  | intro (started released : List Thread)
      (start : before.startMonitors concern s.threads = .ok started)
      (release : before.releaseWaiting started = .ok released)
      (check : Checked c after { s with threads := released } u)

/-- One way through the end of a step, which begins when the data analysis has
    brought the data to `data`. -/
inductive Completed [DecidableEq σ] (c : Control σ) (before after : App) (concern : Concern)
    (s : ControlState σ) (index : Nat) (t : Thread) (data : σ) (s' : ControlState σ) : Prop where
  | intro (threads : List Thread) (u : ControlState σ)
      (finish : before.finishThreads (s.setThread index { t with operations := [] }).threads
        = .ok threads)
      (wake : Woken c before after concern (afterStep s index threads data) u)
      (turn : after.passTurn u index = .ok s')

/-- One way through the phases of a step. An edge is taken with a program that
    extends the one at the beginning, and so on. -/
inductive Step [DecidableEq σ] (c : Control σ) (before after : App) (s s' : ControlState σ) :
    Prop where
  | intro (index : Nat) (t t₁ : Thread) (actor : Actor) (edges : List (Operation × Place))
      (edge : Operation × Place) (k₁ k₂ : Scheduler) (app₁ app₂ : App)
      (outcomes : List (ControlState.Outcome σ)) (s₁ : ControlState σ) (settled : Bool)
      (states : List σ) (data : σ)
      (noTarget : s.isTarget = false)
      (running : s.running = [index])
      (thread : s.thread index = .ok t)
      (acting : before.actorNamed t.actor = .ok actor)
      (leaving : before.leaving s t = .ok edges)
      (edge_mem : edge ∈ edges)
      (extends_edge : before.Extends k₁.app)
      (taken : Gives (follow s index edge.1 edge.2) k₁ outcomes k₂)
      (outcome : (s₁, settled) ∈ outcomes)
      (moved : s₁.thread index = .ok t₁)
      (analysed : dataAfter c s₁ settled t₁ edge.1 actor.concern = .ok states)
      (data_mem : data ∈ states)
      (extends_end : k₂.app.Extends app₁)
      (extends_waking : app₁.Extends app₂)
      (completed : Completed c app₁ app₂ actor.concern s₁ index t₁ data s')
      (extends_after : app₂.Extends after)

variable [DecidableEq σ]

omit [DecidableEq σ] in
/-- Moving the clock changes nothing but the data. -/
theorem data_of_gives_fastForward (c : Control σ) (s : ControlState σ) (script : ScriptId)
    (a : Acceleration) (k k' : Scheduler) (moved : List (ControlState σ))
    (h : Gives (fastForward c s script a) k moved k') (t : ControlState σ) (ht : t ∈ moved) :
    ∃ data, t = { s with data := data } := by
  unfold fastForward at h
  rcases (gives_bind _ _ _ _ _).mp h with ⟨r, k₁, _, h⟩
  rcases (gives_bind _ _ _ _ _).mp h with ⟨app, k₂, _, h⟩
  rcases (gives_bind _ _ _ _ _).mp h with ⟨actor, k₃, _, h⟩
  rcases (gives_bind _ _ _ _ _).mp h with ⟨entry, k₄, _, h⟩
  rcases (gives_bind _ _ _ _ _).mp h with ⟨found, k₅, _, h⟩
  rcases (gives_pure _ _ _ _).mp h with ⟨rfl, rfl⟩
  -- Each result of running the relation gives a state, and only the data come from the result.
  rcases List.mem_map.mp ht with ⟨⟨data, atExit⟩, _, rfl⟩
  exact ⟨data, rfl⟩

theorem checked_of_gives_runConditions (c : Control σ) (s u : ControlState σ) (k k' : Scheduler)
    (woken : List (ControlState σ)) (h : Gives (runConditions c s) k woken k') (hu : u ∈ woken) :
    Checked c k'.app s u := by
  -- There is nothing to look at, or the threads that can run are evaluated on the data as they are,
  -- or the clock is moved first.
  unfold runConditions at h
  split at h
  next hempty =>
    rcases (gives_pure _ _ _ _).mp h with ⟨rfl, rfl⟩
    exact .none hempty (List.mem_singleton.mp hu)
  next =>
    split at h
    next =>
      rw [gives_program_bind] at h
      rcases (gives_lookUp _ _ _ _).mp h with ⟨hfound, rfl⟩
      exact .evaluated s.data woken hfound hu
    next =>
      rcases (gives_bind _ _ _ _ _).mp h with ⟨k₀, k₁, hk, h⟩
      cases hk
      dsimp only at h
      -- The clock is moved first, which may lead to several states.
      split at h
      next script a _ =>
        rcases (gives_bind _ _ _ _ _).mp h with ⟨moved, k₂, hmoved, h⟩
        rw [gives_program_bind] at h
        rcases (gives_bind _ _ _ _ _).mp h with ⟨found, k₄, hgives, h⟩
        rcases (gives_pure _ _ _ _).mp h with ⟨rfl, rfl⟩
        rcases gives_mapM_lookUp _ moved k₂ k₄ found hgives with ⟨hfound, rfl⟩
        rcases List.mem_flatten.mp hu with ⟨results, hresults, hu⟩
        rcases mem_of_forall₂_right _ _ _ ((except_mapM_ok _ _ _).mp hfound) results hresults with
          ⟨t, ht, heval⟩
        rcases data_of_gives_fastForward c s script a _ k₂ moved hmoved t ht with ⟨data, rfl⟩
        exact .evaluated data results heval hu
      next => exact absurd h (not_gives_throw _ _ _ _)

/-- Every result of waking up has a record. -/
theorem woken_of_gives_wakeAll (c : Control σ) (s u : ControlState σ) (concern : Concern)
    (k k' : Scheduler) (woken : List (ControlState σ)) (h : Gives (wakeAll c s concern) k woken k')
    (hu : u ∈ woken) : Woken c k.app k'.app concern s u := by
  unfold wakeAll at h
  rw [gives_program_bind] at h
  rcases (gives_lookUp_bind _ _ _ _ _).mp h with ⟨started, hstart, h⟩
  rcases (gives_lookUp_bind _ _ _ _ _).mp h with ⟨released, hrelease, h⟩
  exact .intro started released hstart hrelease
    (checked_of_gives_runConditions c _ u _ k' woken h hu)

theorem completed_of_gives_complete (c : Control σ) (s : ControlState σ) (index : Nat)
    (t : Thread) (concern : Concern) (data : σ) (k k' : Scheduler) (next : List (ControlState σ))
    (h : Gives (complete c s index t concern data) k next k') (s' : ControlState σ)
    (hs' : s' ∈ next) : Completed c k.app k'.app concern s index t data s' := by
  unfold complete at h
  rw [gives_program_bind] at h
  rcases (gives_lookUp_bind _ _ _ _ _).mp h with ⟨threads, hfinish, h⟩
  rcases (gives_bind _ _ _ _ _).mp h with ⟨woken, k₃, hwoken, h⟩
  rw [gives_program_bind] at h
  rcases gives_mapM_lookUp _ woken k₃ k' next h with ⟨hturns, rfl⟩
  rcases mem_of_forall₂_right _ _ _ ((except_mapM_ok _ _ _).mp hturns) s' hs' with ⟨u, hu, hturn⟩
  exact .intro threads u hfinish (woken_of_gives_wakeAll c _ u concern k k₃ woken hwoken hu) hturn

/-- What comes of an outcome of a statement: the data analysis does its part,
    and the step is completed with each of its results. -/
theorem completed_of_gives_settle (c : Control σ) (index : Nat) (concern : Concern)
    (op : Operation) (s₁ : ControlState σ) (settled : Bool) (k k' : Scheduler)
    (next : List (ControlState σ)) (h : Gives (settle c index concern op (s₁, settled)) k next k')
    (s' : ControlState σ) (hs' : s' ∈ next) :
    ∃ t₁ states data app₁ app₂, s₁.thread index = .ok t₁
      ∧ dataAfter c s₁ settled t₁ op concern = .ok states ∧ data ∈ states
      ∧ k.app.Extends app₁ ∧ app₁.Extends app₂ ∧ Completed c app₁ app₂ concern s₁ index t₁ data s'
      ∧ app₂.Extends k'.app := by
  unfold settle at h
  dsimp only at h
  rcases (gives_lookUp_bind _ _ _ _ _).mp h with ⟨t₁, hthread, h⟩
  rcases (gives_lookUp_bind _ _ _ _ _).mp h with ⟨states, hdata, h⟩
  rcases (gives_bind _ _ _ _ _).mp h with ⟨found, k₃, hfound, h⟩
  rcases (gives_pure _ _ _ _).mp h with ⟨rfl, rfl⟩
  rcases List.mem_flatten.mp hs' with ⟨results, hresults, hmem⟩
  -- The state is among the results of one store, and the program may have grown before and after it
  -- was that store's turn.
  rcases gives_mapM_extends _ states (fun d _ => grows_complete c _ _ _ _ d) k k₃ found hfound
    results hresults with ⟨data, hmemData, k₄, k₅, hbefore, hcomplete, hafter⟩
  exact ⟨t₁, states, data, k₄.app, k₅.app, hthread, hdata, hmemData, hbefore,
    extends_of_gives _ (grows_complete c s₁ index t₁ concern data) k₄ k₅ results hcomplete,
    completed_of_gives_complete c s₁ index t₁ concern data k₄ k₅ results hcomplete s' hmem, hafter⟩

theorem step_of_gives_stepThread (c : Control σ) (s s' : ControlState σ) (index : Nat)
    (k k' : Scheduler) (next : List (ControlState σ)) (htarget : s.isTarget = false)
    (hrunning : s.running = [index]) (h : Gives (stepThread c s index) k next k')
    (hs' : s' ∈ next) : Step c k.app k'.app s s' := by
  unfold stepThread at h
  rw [gives_program_bind] at h
  rcases (gives_lookUp_bind _ _ _ _ _).mp h with ⟨t, hthread, h⟩
  rcases (gives_lookUp_bind _ _ _ _ _).mp h with ⟨actor, hactor, h⟩
  rcases (gives_lookUp_bind _ _ _ _ _).mp h with ⟨edges, hedges, h⟩
  split at h
  · rcases (gives_bind _ _ _ _ _).mp h with ⟨_, k₅, hthrow, _⟩
    exact absurd hthrow (not_gives_throw _ _ _ _)
  · rcases (gives_bind _ _ _ _ _).mp h with ⟨found, k₅, hfound, h⟩
    rcases (gives_pure _ _ _ _).mp h with ⟨rfl, rfl⟩
    rcases List.mem_flatten.mp hs' with ⟨results, hresults, hmem⟩
    rcases gives_mapM_extends _ edges (fun e _ => grows_takeEdge c s index _ e) k k₅ found hfound
      results hresults with ⟨edge, hedge, k₆, k₇, hbefore, htake, hafter⟩
    -- An edge leads to outcomes, each outcome to results of the analysis, and each of
    -- these to states.
    unfold takeEdge at htake
    rcases (gives_bind _ _ _ _ _).mp htake with ⟨outcomes, k₈, hfollow, htake⟩
    rcases (gives_bind _ _ _ _ _).mp htake with ⟨settledStates, k₉, hsettle, hflat⟩
    rcases (gives_pure _ _ _ _).mp hflat with ⟨rfl, rfl⟩
    rcases List.mem_flatten.mp hmem with ⟨final, hfinal, hlast⟩
    rcases gives_mapM_extends _ outcomes (fun o _ => grows_settle c _ _ _ o) k₈ k₉ settledStates
      hsettle final hfinal with ⟨⟨s₁, settled⟩, houtcome, k₁₀, k₁₁, hfirst, hone, hsecond⟩
    rcases completed_of_gives_settle c index actor.concern edge.1 s₁ settled k₁₀ k₁₁ final hone s'
      hlast with
      ⟨t₁, states, data, app₁, app₂, hmoved, hdata, hmemData, hstart, hwaking, hdone, hend⟩
    exact .intro index t t₁ actor edges edge k₆ k₈ app₁ app₂ outcomes s₁ settled states data
      htarget hrunning hthread hactor hedges hedge hbefore hfollow houtcome hmoved hdata hmemData
      (App.extends_trans _ _ _ hfirst hstart) hwaking hdone
      (App.extends_trans _ _ _ hend (App.extends_trans _ _ _ hsecond hafter))

/-- Every successor of a state has a record of how it came about. -/
theorem step_of_gives_successors (c : Control σ) (s s' : ControlState σ) (k k' : Scheduler)
    (next : List (ControlState σ)) (h : Gives (successors c s) k next k') (hs' : s' ∈ next) :
    Step c k.app k'.app s s' := by
  unfold successors at h
  split at h
  · rcases (gives_pure _ _ _ _).mp h with ⟨rfl, rfl⟩
    cases hs'
  next htarget =>
    split at h
    · exact absurd h (not_gives_throw _ _ _ _)
    · split at h
      · rcases (gives_pure _ _ _ _).mp h with ⟨rfl, rfl⟩
        cases hs'
      next index hrunning =>
        exact step_of_gives_stepThread c s s' index k k' next (by simpa using htarget) hrunning h
          hs'
      · exact absurd h (not_gives_throw _ _ _ _)

end Scheduler

end ActorCheck

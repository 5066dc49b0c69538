import ActorCheck.Proofs.Control.TurnChecks
import ActorCheck.Proofs.Control.WakeUps

/-!
# The Scheduler Is Never at Fault

Neither the start of a program nor a step from any state that was found ends in a fault.
The checks of the scheduler never fail: at most one thread runs, it has somewhere to go,
every index belongs to a thread, and nobody waits for two conditions at once.

`Steady` is what holds between two steps. The waits are as they should be, the check of
the turn succeeds, and every thread waits for one condition at most. During a step it is
replaced by `InStep`, which every phase keeps. A step that succeeds comes to a steady
state again, since the choice of the next thread leaves a state that passes the check. A
step that fails does so for a reason of the program, of the model or of the data analysis.

The data analysis is a guest. It may fail for reasons of its own, but it is assumed not
to report faults that only the scheduler can have. Of the program nothing is assumed but
that the numbers of its relations were drawn, as in every program that was built.

## Main definitions

* `App.Steady`: What holds between two steps.

## Theorems

* `Scheduler.faultless_pendingConditions`: Nobody waits for two conditions.
* `Scheduler.safe_takeEdge`: Taking an edge ends in no fault.
* `Scheduler.safe_successors`: A step from a steady state ends in no fault.
* `Scheduler.safe_startState`: The start of a program ends in no fault.
* `Scheduler.steady_of_step`: A step leads to steady states.
* `Session.no_faults`: No start and no step of an exploration ends in a fault.
-/

namespace ActorCheck

namespace App

variable {σ : Type} (app : App)

/-- What holds between two steps. -/
structure Steady (app : App) (s : ControlState σ) : Prop where
  awaiting : app.Awaiting s
  turn : app.checkTurn s = .ok ()
  single : s.SingleChecks

theorem checkTurn_of_extends (b : App) (h : app.Extends b) (hdrawn : app.RelationsDrawn)
    (s : ControlState σ) (hs : app.checkTurn s = .ok ()) : b.checkTurn s = .ok () := by
  rcases (checkTurn_ok app s).mp hs with ⟨hone, hleaves⟩
  refine (checkTurn_ok b s).mpr ⟨hone, fun i hi => ?_⟩
  rcases hleaves i hi with ⟨t, ht, hmore⟩
  exact ⟨t, ht, hasLeaving_of_extends app b h hdrawn t true hmore⟩

theorem steady_of_extends (b : App) (h : app.Extends b) (hdrawn : app.RelationsDrawn)
    (s : ControlState σ) (hs : app.Steady s) : b.Steady s :=
  ⟨Scheduler.awaiting_of_extends app b h hdrawn s hs.awaiting,
    checkTurn_of_extends app b h hdrawn s hs.turn, hs.single⟩

/-- Something leaves the place of the thread, so there is an edge to take. -/
theorem leaving_ne_nil (s : ControlState σ) (t : Thread) (edges : List (Operation × Place))
    (hmore : app.hasLeaving t = .ok true) (h : app.leaving s t = .ok edges) : edges ≠ [] := by
  unfold hasLeaving at hmore
  rcases (except_bind_ok _ _ _).mp hmore with ⟨r, hr, hedge⟩
  unfold leaving at h
  rcases (except_bind_ok _ _ _).mp h with ⟨r', hr', h⟩
  rw [hr] at hr'
  cases hr'
  rcases (except_bind_ok _ _ _).mp h with ⟨actor, _, h⟩
  rcases (except_bind_ok _ _ _).mp h with ⟨scope, _, h⟩
  rintro rfl
  have hnone := List.forall₂_nil_right_iff.mp ((except_mapM_ok _ _ _).mp h)
  -- An edge that leaves the place is listed among those that do.
  rcases List.any_eq_true.mp ((except_pure_ok _ _).mp hedge) with ⟨e, he, hsource⟩
  have hlisted : (e.op, e.target) ∈ r.edgesFrom t.place.location :=
    List.mem_map_of_mem (List.mem_filter.mpr ⟨he, hsource⟩)
  rw [hnone] at hlisted
  cases hlisted

end App

namespace Scheduler

variable {σ : Type}

section Statements

variable (k : Scheduler)

theorem faultless_broadcastAndWait (app : App) (s : ControlState σ) (index : Nat) (t : Thread)
    (m : Message) (hs : s.InStep index) : Faultless (broadcastAndWait app s index t m) := by
  rw [broadcastAndWait, faultless_bind]
  refine ⟨app.faultless_broadcast m s.threads, ?_⟩
  rintro ⟨threads, receivers⟩ hsent
  -- No thread is lost in a broadcast, so the sender is still there.
  have hnext := s.inStep_of_calmer _ index
    (s.calmer_of_threads threads (app.calmer_of_broadcast m s.threads threads receivers hsent)) hs
  dsimp only
  split
  · simp
  · split
    · exact faultless_pure _
    · simp [ControlState.faultless_thread _ index hnext.present]

theorem faultless_denotedActor (app : App) (s : ControlState σ) (t : Thread) (e : Expr) :
    Faultless (denotedActor app s t e) := by
  unfold denotedActor
  dsimp only
  split
  -- A variable or a name refers to an actor that is known, or to none.
  · split
    · exact faultless_ok _
    · exact (faultless_error _).mpr rfl
  · split
    · exact faultless_ok _
    · exact (faultless_error _).mpr rfl
  · exact (faultless_error _).mpr rfl
  · exact faultless_ok _
  · exact (faultless_error _).mpr rfl
  · exact (faultless_error _).mpr rfl

/-- The interpretation of a statement ends in no fault. -/
theorem safe_interpret (s : ControlState σ) (index : Nat) (t : Thread) (statement : Statement)
    (source target : Place) (hs : s.InStep index) :
    Safe (interpret s index t statement source target) k := by
  rw [interpret, safe_program_bind, safe_lookUp_bind]
  refine ⟨k.app.faultless_actorNamed _, fun actor _ => ?_⟩
  -- Only ending an atomic block and finding the actor of an assignment have checks of their own
  -- here. The rest is delegated or cannot fail.
  cases statement with
  | call method args result => exact safe_interpretCall k s index t actor method args result _ _
  | ret result => exact safe_leaveMethod k s index t actor result
  | broadcast m => simp
  | broadcastAndWait m => simp [faultless_broadcastAndWait k.app s index t m hs]
  | endAtomic =>
      dsimp only
      split
      · simp
      · exact safe_pure k _
  | store v e =>
      dsimp only
      split
      · simp [faultless_denotedActor]
      · exact safe_pure k _
  | waitUntil e => simp
  | waitSecs e => simp
  | _ => exact safe_pure k _

/-- Taking an edge, up to the outcomes of its statement, ends in no fault. -/
theorem safe_follow (s : ControlState σ) (index : Nat) (op : Operation) (target : Place)
    (hs : s.InStep index) : Safe (follow s index op target) k := by
  rw [follow, safe_lookUp_bind]
  refine ⟨s.faultless_thread index hs.present, fun t ht => ?_⟩
  rw [thread_ok] at ht
  rw [safe_program_bind, safe_lookUp_bind]
  refine ⟨k.app.faultless_loopMove _ _, fun action _ => ?_⟩
  exact safe_interpret k _ index _ op.statement _ _ (s.inStep_of_sameWait index t _ hs ht rfl)

end Statements

section Conditions

/-- Nobody waits for two conditions. -/
theorem faultless_pendingConditions (s : ControlState σ) (hs : s.SingleChecks) :
    Faultless (pendingConditions s) := by
  rw [pendingConditions, faultless_bind]
  refine ⟨faultless_mapM _ _ ?_, fun found _ => faultless_pure _⟩
  rintro ⟨t, index⟩ hentry
  have ht : t ∈ s.threads := List.mem_of_getElem? (List.mem_zipIdx_iff_getElem?.mp hentry)
  -- Whoever is in both sets is the number of a condition thread that is waited for.
  have hmem : ∀ id, id ∈ (t.waitingFor ∩ .ofList (s.conditions.map Thread.id)).toList →
      ∃ q ∈ s.conditions, q.id = id ∧ q.id ∈ t.waitingFor := by
    intro id hid
    rcases Std.ExtTreeSet.mem_inter_iff.mp (Std.ExtTreeSet.mem_toList.mp hid) with ⟨hwait, hcheck⟩
    rw [Std.ExtTreeSet.mem_ofList, List.contains_iff_mem] at hcheck
    rcases List.mem_map.mp hcheck with ⟨q, hq, rfl⟩
    exact ⟨q, hq, rfl, hwait⟩
  -- Two members of the intersection would be the numbers of two conditions that one thread waits
  -- for.
  unfold pendingOf
  dsimp only
  split
  · split
    next => exact faultless_ok none
    next => exact faultless_ok _
    next several hnone hone =>
      have hdistinct := Std.ExtTreeSet.distinct_toList
        (t := t.waitingFor ∩ .ofList (s.conditions.map Thread.id))
      rcases hlist : (t.waitingFor ∩ .ofList (s.conditions.map Thread.id)).toList with
        _ | ⟨a, _ | ⟨b, rest⟩⟩
      · exact absurd hlist hnone
      · exact absurd hlist (hone a)
      · rw [hlist] at hdistinct hmem
        rcases hmem a List.mem_cons_self with ⟨p, hp, hpa, hpt⟩
        rcases hmem b (List.mem_cons_of_mem _ List.mem_cons_self) with ⟨q, hq, hqb, hqt⟩
        have hab : a = b := hpa.symm.trans ((hs t ht p hp q hq hpt hqt).trans hqb)
        exact absurd (Std.LawfulEqCmp.compare_eq_iff_eq.mpr hab)
          ((List.pairwise_cons.mp hdistinct).1 b List.mem_cons_self)
  · exact faultless_ok none

variable (c : Control σ) (hanalysis : c.analysis.IsFaultless)

include hanalysis

theorem faultless_evaluateCondition (app : App) (s : ControlState σ) (waiter : Nat)
    (checkerId : ThreadId) : Faultless (evaluateCondition c app s waiter checkerId) := by
  have hsettle : ∀ (u : ControlState σ) (position : Nat) (checker : Thread),
      Faultless (settleCondition app u waiter position checker) := by
    intro u position checker
    unfold settleCondition
    dsimp only
    split
    · rw [faultless_bind]
      refine ⟨?_, fun v _ => faultless_pure _⟩
      unfold conditionHolds
      dsimp only
      split
      · exact app.faultless_wake _
      · exact faultless_ok _
    · exact faultless_pure _
  -- What can fail are the look-ups of the relation, the actor and the scope, and the data analysis.
  -- None of them reports a fault of the scheduler.
  unfold evaluateCondition
  split
  · exact faultless_ok _
  next checker position _ =>
    rw [faultless_bind]
    refine ⟨app.faultless_relationOf _, fun r _ => ?_⟩
    rw [faultless_bind]
    refine ⟨app.faultless_actorNamed _, fun actor _ => ?_⟩
    rw [faultless_bind]
    refine ⟨app.faultless_localScope _, fun scope _ => ?_⟩
    dsimp only
    rw [faultless_bind]
    refine ⟨Runner.faultless_runAlong _ hanalysis app.faultless_operationOf
      (fun op => faultless_ofScope _) r _ _, fun found _ => faultless_mapM _ _ ?_⟩
    rintro ⟨data, holds⟩ _
    dsimp only
    split
    · exact hsettle _ position checker
    · exact faultless_ok _

variable [DecidableEq σ]

/-- Evaluating the conditions ends in no fault. -/
theorem faultless_evaluateConditions (app : App) (s : ControlState σ) (hs : s.SingleChecks) :
    Faultless (evaluateConditions c app s) := by
  have hpending : ∀ (pending : List (Nat × ThreadId)) (alternatives : List (ControlState σ)),
      Faultless (evaluatePending c app pending alternatives) := by
    intro pending
    induction pending with
    | nil => exact fun alternatives => faultless_ok alternatives
    | cons p rest ih =>
        intro alternatives
        rw [evaluatePending, faultless_bind]
        exact ⟨faultless_mapM _ _ fun a _ => faultless_evaluateCondition c hanalysis app a _ _,
          fun found _ => ih _⟩
  simp [evaluateConditions, faultless_pendingConditions s hs, hpending]

theorem safe_runConditions (s : ControlState σ) (hs : s.SingleChecks) (k : Scheduler) :
    Safe (runConditions c s) k := by
  unfold runConditions
  split
  · exact safe_pure k _
  · split
    · rw [safe_program_bind, safe_lookUp]
      exact faultless_evaluateConditions c hanalysis k.app s hs
    · rw [safe_bind]
      refine ⟨safe_lift k _, fun known k₁ _ => ?_⟩
      dsimp only
      split
      next script a _ =>
        rw [safe_bind]
        refine ⟨safe_fastForward k₁ c hanalysis s script a, fun moved k₂ hmoved => ?_⟩
        rw [safe_program_bind, safe_bind]
        refine ⟨safe_mapM k₂ _ moved (fun u _ => grows_lookUp _) fun u hu k₃ _ => ?_,
          fun found k₃ _ => safe_pure k₃ _⟩
        -- The clock was moved, and nobody waits for more because of that.
        rcases data_of_gives_fastForward c s script a k₁ k₂ moved hmoved u hu with ⟨data, rfl⟩
        exact (safe_lookUp k₃ _).mpr (faultless_evaluateConditions c hanalysis k₂.app _ hs)
      next => simp

/-- Waking up ends in no fault. -/
theorem safe_wakeAll (s : ControlState σ) (concern : Concern) (hs : s.SingleChecks)
    (k : Scheduler) : Safe (wakeAll c s concern) k := by
  rw [wakeAll, safe_program_bind, safe_lookUp_bind]
  refine ⟨k.app.faultless_startMonitors concern _, fun started hstart => ?_⟩
  rw [safe_lookUp_bind]
  refine ⟨k.app.faultless_releaseWaiting started, fun released hrelease => ?_⟩
  have hcalmer := calmer_of_released k.app concern s started released hstart hrelease
  exact safe_runConditions c hanalysis _ (s.singleChecks_of_calmer _ hcalmer hs) k

end Conditions

section Steps

variable [DecidableEq σ] (c : Control σ) (hanalysis : c.analysis.IsFaultless)

include hanalysis

theorem safe_complete (s : ControlState σ) (index : Nat) (t : Thread) (concern : Concern)
    (data : σ) (hs : s.InStep index) (ht : s.threads[index]? = some t) (k : Scheduler) :
    Safe (complete c s index t concern data) k := by
  rw [complete, safe_program_bind, safe_lookUp_bind]
  refine ⟨k.app.faultless_finishThreads _, fun threads hfinish => ?_⟩
  have hafter := s.inStep_of_calmer _ index
    (calmer_afterStep k.app s index t threads data ht hfinish) hs
  rw [safe_bind]
  refine ⟨safe_wakeAll c hanalysis _ concern hafter.single k, fun woken k₁ hwoken => ?_⟩
  rw [safe_program_bind]
  refine safe_mapM k₁ _ woken (fun u _ => grows_lookUp _) fun u hu k₂ _ => ?_
  have hcalmer := calmer_of_woken c k.app k₁.app concern (afterStep s index threads data) u
    (woken_of_gives_wakeAll c _ u concern k k₁ woken hwoken hu)
  exact (safe_lookUp k₂ _).mpr
    (k₁.app.faultless_passTurn u index (ControlState.inStep_of_calmer _ u index hcalmer hafter))

theorem safe_settle (index : Nat) (concern : Concern) (op : Operation)
    (o : ControlState.Outcome σ) (hs : o.1.InStep index) (k : Scheduler) :
    Safe (settle c index concern op o) k := by
  have hdata : ∀ t, Faultless (dataAfter c o.1 o.2 t op concern) := by
    intro t
    unfold dataAfter
    split
    · simp
    · simp [c.analysis.faultless_run hanalysis]
  -- The thread is looked up again after its statement, and the statement has not removed it.
  rw [settle, safe_lookUp_bind]
  refine ⟨o.1.faultless_thread index hs.present, fun t ht => ?_⟩
  rw [thread_ok] at ht
  rw [safe_lookUp_bind]
  refine ⟨hdata t, fun states _ => ?_⟩
  rw [safe_bind]
  refine ⟨safe_mapM k _ states (fun data _ => grows_complete c _ _ _ _ data) fun data _ k₁ _ => ?_,
    fun found k₁ _ => safe_pure k₁ _⟩
  exact safe_complete c hanalysis o.1 index t concern data hs ht k₁

/-- Taking an edge ends in no fault. -/
theorem safe_takeEdge (s : ControlState σ) (index : Nat) (t : Thread) (concern : Concern)
    (edge : Operation × Place) (k : Scheduler) (hs : s.InStep index)
    (hlinked : k.app.Linked s.threads s.conditions) (ht : s.threads[index]? = some t)
    (hrun : t.status = .running) : Safe (takeEdge c s index concern edge) k := by
  rw [takeEdge, safe_bind]
  refine ⟨safe_follow k s index edge.1 edge.2 hs, fun outcomes k₁ hfollow => ?_⟩
  have houtcomes := inStep_of_gives_follow s index edge.1 edge.2 t k k₁ outcomes hs hlinked ht hrun
    hfollow
  rw [safe_bind]
  refine ⟨safe_mapM k₁ _ outcomes (fun o _ => grows_settle c _ _ _ o) fun o ho k₂ _ => ?_,
    fun found k₂ _ => safe_pure k₂ _⟩
  exact safe_settle c hanalysis index concern edge.1 o (houtcomes o ho) k₂

theorem safe_stepThread (s : ControlState σ) (index : Nat) (k : Scheduler)
    (hdrawn : k.app.RelationsDrawn) (hs : k.app.Steady s) (hrunning : s.running = [index]) :
    Safe (stepThread c s index) k := by
  have hstep := s.inStep_of_running index hs.single hrunning
  rw [stepThread, safe_program_bind, safe_lookUp_bind]
  refine ⟨s.faultless_thread index hstep.present, fun t ht => ?_⟩
  rw [thread_ok] at ht
  rw [safe_lookUp_bind]
  refine ⟨k.app.faultless_actorNamed _, fun actor _ => ?_⟩
  rw [safe_lookUp_bind]
  refine ⟨k.app.faultless_leaving s t, fun edges hedges => ?_⟩
  -- The check of the turn has seen to it that there is an edge.
  have hmore : k.app.hasLeaving t = .ok true := by
    rcases ((k.app.checkTurn_ok s).mp hs.turn).2 index (hrunning ▸ List.mem_singleton_self index)
      with ⟨u, hu, hmore⟩
    rw [ht] at hu
    cases hu
    exact hmore
  have hsome := k.app.leaving_ne_nil s t edges hmore hedges
  rw [if_neg (fun hnone => hsome (List.isEmpty_iff.mp hnone)), safe_bind]
  refine ⟨safe_mapM k _ edges (fun e _ => grows_takeEdge c s index _ e) fun e _ k₁ hext => ?_,
    fun found k₁ _ => safe_pure k₁ _⟩
  exact safe_takeEdge c hanalysis s index t _ e k₁ hstep
    (App.linked_of_extends k.app s.threads s.conditions k₁.app hext hdrawn hs.awaiting.linked) ht
    (s.isRunning_of_running index t hrunning ht)

/-- A step from a steady state ends in no fault. -/
theorem safe_successors (s : ControlState σ) (k : Scheduler) (hdrawn : k.app.RelationsDrawn)
    (hs : k.app.Steady s) : Safe (successors c s) k := by
  unfold successors
  split
  · exact safe_pure k _
  · split
    · simp
    · split
      next => exact safe_pure k _
      next index hrunning => exact safe_stepThread c hanalysis s index k hdrawn hs hrunning
      next hnone hone =>
        -- The check of the turn has seen to it that no two threads run.
        have hlength := ((k.app.checkTurn_ok s).mp hs.turn).1
        -- The remaining shape of the list has at least two members.
        rcases hrunning : s.running with _ | ⟨i, _ | ⟨j, rest⟩⟩
        · exact absurd hrunning hnone
        · exact absurd hrunning (hone i)
        · rw [hrunning] at hlength
          exact absurd hlength (by simp)

end Steps

section Starts

theorem idle_of_gives_initialThreads (k k' : Scheduler) (ts : List Thread)
    (h : Gives initialThreads k ts k') : ∀ t ∈ ts, t.status ≠ .running := by
  unfold initialThreads at h
  rcases (gives_bind _ _ _ _ _).mp h with ⟨app, k₁, happ, h⟩
  rcases (gives_bind _ _ _ _ _).mp h with ⟨found, k₂, hfound, h⟩
  rcases (gives_pure _ _ _ _).mp h with ⟨rfl, rfl⟩
  intro t ht
  rcases List.mem_flatten.mp ht with ⟨threads, hthreads, ht⟩
  rcases gives_mapM_extends _ _ (fun actor _ => grows_mapM _ _ fun script _ =>
    grows_initialThread actor script) k₁ k₂ found hfound threads hthreads with
    ⟨actor, _, k₃, k₄, _, hactor, _⟩
  rcases gives_mapM_extends _ _ (fun script _ => grows_initialThread actor script) k₃ k₄ threads
    hactor t ht with ⟨script, _, k₅, k₆, _, hone, _⟩
  unfold initialThread at hone
  rcases (gives_bind _ _ _ _ _).mp hone with ⟨app, k₇, _, hone⟩
  rcases (gives_bind _ _ _ _ _).mp hone with ⟨r, k₈, _, hone⟩
  rcases (gives_bind _ _ _ _ _).mp hone with ⟨entry, k₉, _, hone⟩
  rcases (gives_bind _ _ _ _ _).mp hone with ⟨id, k₁₀, _, hone⟩
  rcases (gives_pure _ _ _ _).mp hone with ⟨rfl, rfl⟩
  change initialStatus _ _ ≠ .running
  unfold initialStatus
  split
  · split
    · exact nofun
    · exact nofun
  · exact nofun
  · exact nofun

/-- The start of a program ends in no fault. -/
theorem safe_startState (data : σ) (k : Scheduler) : Safe (startState data) k := by
  have hthread : ∀ actor script k', Safe (initialThread actor script) k' := by
    intro actor script k'
    simp [initialThread]
  have hthreads : Safe initialThreads k := by
    rw [initialThreads, safe_program_bind, safe_bind]
    refine ⟨safe_mapM k _ _ (fun actor _ => grows_mapM _ _ fun script _ =>
      grows_initialThread actor script) fun actor _ k₁ _ => ?_, fun found k₁ _ => safe_pure k₁ _⟩
    exact safe_mapM k₁ _ _ (fun script _ => grows_initialThread actor script)
      fun script _ k₂ _ => hthread actor script k₂
  rw [startState, safe_bind]
  refine ⟨hthreads, fun threads k₁ hgives => ?_⟩
  rw [safe_program_bind, safe_lookUp_bind]
  refine ⟨k₁.app.faultless_grantTurn _ _, fun s hgrant => ?_⟩
  -- Nobody runs before the first turn is granted.
  have hturn := k₁.app.checkTurn_of_grantTurn (ControlState.new threads data) s _
    (idle_of_gives_initialThreads k k₁ threads hgives) hgrant
  rw [hturn]
  simp

theorem steady_of_gives_startState (data : σ) (k k' : Scheduler) (s : ControlState σ)
    (h : Gives (startState data) k s k') : k'.app.Steady s := by
  have hawaiting := awaiting_of_gives_startState data k k' s h
  unfold startState at h
  rcases (gives_bind _ _ _ _ _).mp h with ⟨threads, k₁, hthreads, h⟩
  rw [gives_program_bind] at h
  rcases (gives_lookUp_bind _ _ _ _ _).mp h with ⟨next, hgrant, h⟩
  rcases (gives_lookUp_bind _ _ _ _ _).mp h with ⟨_, hturn, h⟩
  rcases (gives_pure _ _ _ _).mp h with ⟨rfl, rfl⟩
  refine ⟨hawaiting, hturn, ?_⟩
  -- There are no conditions yet.
  have hnone : next.conditions = [] := by
    rcases App.turned_of_grantTurn k₁.app _ next _ hgrant with rfl | ⟨_, _, _, _, _, rfl⟩
    · rfl
    · rfl
  intro t _ p hp
  rw [hnone] at hp
  cases hp

end Starts

section Invariant

variable [DecidableEq σ]

/-- A completed step has passed the check of the turn. -/
theorem checkTurn_of_completed (c : Control σ) (before after : App) (concern : Concern)
    (s s' : ControlState σ) (index : Nat) (t : Thread) (data : σ) (hs : s.InStep index)
    (ht : s.threads[index]? = some t) (h : Completed c before after concern s index t data s') :
    after.checkTurn s' = .ok () ∧ s'.SingleChecks := by
  rcases h with ⟨threads, u, hfinish, hwoken, hturn⟩
  have hcalmer := s.calmer_trans _ u (calmer_afterStep before s index t threads data ht hfinish)
    (calmer_of_woken c before after concern _ u hwoken)
  have hsingle := s.singleChecks_of_calmer u hcalmer hs.single
  refine ⟨?_, after.singleChecks_of_passTurn u s' index hsingle hturn⟩
  rcases after.turned_of_passTurn u s' index hturn with ⟨_, _, _, _, hcheck, _⟩
  exact hcheck

/-- A step leads to steady states. -/
theorem steady_of_step (c : Control σ) (before after : App) (s s' : ControlState σ)
    (hdrawn : before.RelationsDrawn) (hs : before.Steady s) (h : Step c before after s s') :
    after.Steady s' := by
  have hawaiting := awaiting_of_step c before after s s' hdrawn hs.awaiting h
  rcases h with ⟨index, t, t₁, actor, edges, edge, k₁, k₂, app₁, app₂, outcomes, s₁, settled,
    states, data, _, hrunning, hthread, _, _, _, hedge, htaken, houtcome, hmoved, _, _, hend,
    hwaking, hcompleted, hafter⟩
  rw [thread_ok] at hthread hmoved
  have hlinked := App.linked_of_extends before s.threads s.conditions k₁.app hedge hdrawn
    hs.awaiting.linked
  have hs₁ := inStep_of_gives_follow s index edge.1 edge.2 t k₁ k₂ outcomes
    (s.inStep_of_running index hs.single hrunning) hlinked hthread
    (s.isRunning_of_running index t hrunning hthread) htaken (s₁, settled) houtcome
  rcases checkTurn_of_completed c app₁ app₂ actor.concern s₁ s' index t₁ data hs₁ hmoved hcompleted
    with ⟨hturn, hsingle⟩
  -- The check was made with a program that has grown since.
  have hdrawn₂ : app₂.RelationsDrawn := by
    refine App.relationsDrawn_of_extends before app₂ ?_ hdrawn
    exact App.extends_trans _ _ _ hedge (App.extends_trans _ _ _
      (extends_of_gives _ (grows_follow s index edge.1 edge.2) k₁ k₂ outcomes htaken)
      (App.extends_trans _ _ _ hend hwaking))
  exact ⟨hawaiting, app₂.checkTurn_of_extends after hafter hdrawn₂ s' hturn, hsingle⟩

end Invariant

end Scheduler

namespace Session

variable {σ : Type} [DecidableEq σ]

/-- Every state that was found is steady. -/
theorem steady_of_explored (c : Control σ) (app : App) (hdrawn : app.RelationsDrawn)
    (x : Session σ) (h : Explored c app x) : ∀ s ∈ x.found, x.scheduler.app.Steady s := by
  -- A state is steady when it comes about, and stays so while the program grows.
  refine invariant_of_explored c app (fun app s => app.Steady s) ?_ ?_ ?_ x h
  · intro a b s ha hab hs
    exact App.steady_of_extends a b hab (App.relationsDrawn_of_extends app a ha hdrawn) s hs
  · intro k k' data s _ hgives
    exact Scheduler.steady_of_gives_startState data k k' s hgives
  · intro k k' s next hk hs hgives s' hs'
    exact Scheduler.steady_of_step c k.app k'.app s s'
      (App.relationsDrawn_of_extends app k.app hk hdrawn) hs
      (Scheduler.step_of_gives_successors c s s' k k' next hgives hs')

/-- No start of a program and no step from a state that was found ends in a fault: that
    several threads run, that the thread that runs is stuck, that there is no thread at an
    index, or that a thread waits for several conditions. -/
theorem no_faults (c : Control σ) (app : App) (hdrawn : app.RelationsDrawn)
    (hanalysis : c.analysis.IsFaultless) (x : Session σ) (h : Explored c app x) :
    (∀ (data : σ) (violation : ContractViolation),
      ((Scheduler.startState data).run x.scheduler).1 = .error (.contract violation) →
        violation.isFault = false)
      ∧ ∀ s ∈ x.found, ∀ violation,
        ((Scheduler.successors c s).run x.scheduler).1 = .error (.contract violation) →
          violation.isFault = false := by
  refine ⟨fun data violation herror => ?_, fun s hs violation herror => ?_⟩
  · exact Scheduler.safe_startState data x.scheduler _ herror
  · exact Scheduler.safe_successors c hanalysis s x.scheduler
      (App.relationsDrawn_of_extends app _ (extends_of_explored c app x h) hdrawn)
      (steady_of_explored c app hdrawn x h s hs) _ herror

/-- A program that ends an atomic block it has not begun is told so, and that is no fault
    of the scheduler. -/
theorem no_faults_relay : ∃ s ∈ (relaySession .endAtomic [.epsilon] 1).found,
    ∃ violation, ((Scheduler.successors .indifferent s).run
        (relaySession .endAtomic [.epsilon] 1).scheduler).1 = .error (.contract violation)
      ∧ violation.isFault = false := by
  have hfound : ∃ s ∈ (relaySession .endAtomic [.epsilon] 1).found,
      ((Scheduler.successors .indifferent s).run
        (relaySession .endAtomic [.epsilon] 1).scheduler).1
        = .error (.contract (.unbalancedAtomic 29)) := by
    decide +kernel
  rcases hfound with ⟨s, hs, herror⟩
  exact ⟨s, hs, _, herror, (no_faults .indifferent _ (App.relationsDrawn_of_draft _ _)
    (fun _ _ _ => faultless_ok _) _ (explored_relaySession _ _ _)).2 s hs _ herror⟩

end Session

end ActorCheck

import ActorCheck.Proofs.Control.NoFaults

/-!
# Nobody Idles, and Observers Go First

Two things are promised about whose turn it is. If nobody runs, nobody could: every thread
that waits for its turn has come to the end of its relation. And as long as an observer can
run, no other thread does, unless that thread is in an atomic block.

Both are read off the search for the next thread. It goes once around, so it looks at every
thread, and it has three ways to end. `Search` lists them with what each says about the
threads that were looked at. In the middle of a step nobody but the thread that takes it can
be running, and that thread gives its turn away before the search begins. So the thread that
the search finds is the only one that runs.

Only a thread in an atomic block keeps its turn without a search, which is why its atomic
counter is part of the promise.

## Main definitions

* `App.observes`: The thread belongs to an observer.
* `App.Search`: The ways in which the search for the next thread can end.
* `App.WellTurned`: What is promised about whose turn it is.
* `patrol`, `patrolSession`: A program with an observer, and its steps.

## Theorems

* `App.mem_turnOrder`: The search looks at every thread.
* `App.search_of_firstRunnable`: The search ends in one of its ways.
* `App.searched_of_grantTurn`: The thread that runs next is one that the search has found.
* `App.wellTurned_of_passTurn`: The promise holds after the turn was passed.
* `Scheduler.passed_of_step`: A step ends with the turn being passed.
* `Session.observers_first`: The promise holds in every state that was found.
-/

namespace ActorCheck

namespace App

variable {σ : Type} (app : App)

/-- The thread belongs to an observer. -/
def observes (app : App) (t : Thread) : Except AnalysisError Bool := do
  return (← app.actorNamed t.actor).isObserver

/-- The ways in which the search for the next thread can end, among the threads at some
    indices and with `first` in mind. -/
inductive Search (app : App) (s : ControlState σ) (first : Option Nat) (order : List Nat) :
    Option Nat → Prop where
  | nobody (fresh : first = none)
      (idle : ∀ i ∈ order, ∀ t, s.threads[i]? = some t → app.canRun t = .ok false) :
      Search app s first order none
  | observer (index : Nat) (t : Thread) (there : s.threads[index]? = some t)
      (can : app.canRun t = .ok true) (observer : app.observes t = .ok true) :
      Search app s first order (some index)
  /-- The first one that can run, since no observer can. -/
  | other (index : Nat)
      (plain : ∀ i ∈ order, ∀ t, s.threads[i]? = some t →
        app.canRun t = .ok false ∨ app.observes t = .ok false)
      (choice : first = some index ∨ first = none ∧ ∃ before after, order = before ++ index :: after
        ∧ ∀ i ∈ before, ∀ t, s.threads[i]? = some t → app.canRun t = .ok false) :
      Search app s first order (some index)

/-- What is promised about whose turn it is. -/
structure WellTurned (app : App) (s : ControlState σ) : Prop where
  /-- If nobody runs, nothing leaves the places of those who wait for their turn. -/
  busy : (∀ t ∈ s.threads, t.status ≠ .running) →
    ∀ u ∈ s.threads, u.status = .yield → app.hasLeaving u = .ok false
  /-- If a thread runs that is neither an observer nor in an atomic block, nothing leaves the
      places of the observers that wait for their turn. -/
  observers : ∀ t ∈ s.threads, t.status = .running → app.observes t = .ok false → t.atomic = 0 →
    ∀ u ∈ s.threads, u.status = .yield → app.observes u = .ok true → app.hasLeaving u = .ok false

section Order

/-- The search looks at every thread. -/
theorem mem_turnOrder (count stepped i : Nat) : i ∈ turnOrder count stepped ↔ i < count := by
  unfold turnOrder
  rw [List.mem_map]
  constructor
  · rintro ⟨k, hk, rfl⟩
    exact Nat.mod_lt _ (Nat.zero_lt_of_lt (List.mem_range.mp hk))
  · intro hi
    have hcount : 0 < count := Nat.zero_lt_of_lt hi
    -- How far the index lies behind the one that the search begins with.
    refine ⟨(i + count - (stepped + 1) % count) % count,
      List.mem_range.mpr (Nat.mod_lt _ hcount), ?_⟩
    have hfirst : (stepped + 1) % count < count := Nat.mod_lt _ hcount
    have hround : (stepped + 1) % count + (i + count - (stepped + 1) % count) = i + count := by
      omega
    rw [Nat.add_mod_mod, ← Nat.mod_add_mod, hround, Nat.add_mod_right, Nat.mod_eq_of_lt hi]

end Order

theorem observes_of_extends (b : App) (h : app.Extends b) (t : Thread) :
    b.observes t = app.observes t := by
  unfold observes actorNamed actor
  rw [h.actors]

theorem canRun_yield (t : Thread) (h : t.status = .yield) : app.canRun t = app.hasLeaving t := by
  unfold canRun
  rw [if_pos h]

/-- The search ends in one of its ways. -/
theorem search_of_firstRunnable (s : ControlState σ) (order : List Nat) (first found : Option Nat)
    (h : app.firstRunnable s first order = .ok found) : app.Search s first order found := by
  -- The thread in mind changes on the way, so the search is described for any of them.
  induction order generalizing first with
  | nil =>
      have hfirst : first = found := Except.ok.inj h
      cases found with
      | none => exact .nobody hfirst fun i hi => absurd hi List.not_mem_nil
      | some index => exact .other index (fun i hi => absurd hi List.not_mem_nil) (Or.inl hfirst)
  | cons i rest ih =>
      -- If the first thread cannot run, the search among the others decides.
      have hskip : (∀ t, s.threads[i]? = some t → app.canRun t = .ok false) →
          app.firstRunnable s first rest = .ok found → app.Search s first (i :: rest) found := by
        intro hcan hrest
        cases ih first hrest with
        | nobody hfresh hidle => exact .nobody hfresh (List.forall_mem_cons.mpr ⟨hcan, hidle⟩)
        | observer index t ht hcan hobserver => exact .observer index t ht hcan hobserver
        | other index hplain hchoice =>
            refine .other index (List.forall_mem_cons.mpr ⟨fun t ht => Or.inl (hcan t ht), hplain⟩)
              (hchoice.imp_right ?_)
            rintro ⟨hfresh, before, after, rfl, hbefore⟩
            exact ⟨hfresh, i :: before, after, rfl, List.forall_mem_cons.mpr ⟨hcan, hbefore⟩⟩
      unfold firstRunnable at h
      split at h
      next hnone =>
        refine hskip (fun t ht => ?_) h
        rw [hnone] at ht
        cases ht
      next t ht =>
        have hsame : ∀ u, s.threads[i]? = some u → u = t := fun u hu =>
          Option.some.inj (hu.symm.trans ht)
        rcases (except_bind_ok _ _ _).mp h with ⟨more, hmore, h⟩
        cases more with
        | false => exact hskip (fun u hu => (hsame u hu).symm ▸ hmore) h
        | true =>
            rcases (except_bind_ok _ _ _).mp h with ⟨actor, hactor, h⟩
            have hobserves : app.observes t = .ok actor.isObserver :=
              (except_bind_ok _ _ _).mpr ⟨actor, hactor, rfl⟩
            split at h
            next hobserver =>
              cases (except_pure_ok _ _).mp h
              exact .observer i t ht hmore (hobserves.trans (congrArg Except.ok hobserver))
            next hnot =>
              have hplain : ∀ u, s.threads[i]? = some u →
                  app.canRun u = .ok false ∨ app.observes u = .ok false := fun u hu =>
                Or.inr ((hsame u hu).symm ▸
                  hobserves.trans (congrArg Except.ok (by simpa using hnot)))
              -- The thread is in mind from here on, unless one was before.
              cases ih _ h with
              | nobody hfresh _ =>
                  cases first with
                  | none => cases hfresh
                  | some j => cases hfresh
              | observer index u hu hcan hobserver => exact .observer index u hu hcan hobserver
              | other index hothers hchoice =>
                  refine .other index (List.forall_mem_cons.mpr ⟨hplain, hothers⟩) ?_
                  cases first with
                  | some j => exact hchoice.imp_right fun hnone => nomatch hnone.1
                  | none =>
                      rcases hchoice with hchoice | ⟨hfresh, _⟩
                      · cases hchoice
                        exact Or.inr ⟨rfl, [], rest, rfl, fun k hk => absurd hk List.not_mem_nil⟩
                      · cases hfresh

/-- The promise survives additions to the program. -/
theorem wellTurned_of_extends (b : App) (h : app.Extends b) (hdrawn : app.RelationsDrawn)
    (s : ControlState σ) (hs : app.WellTurned s) : b.WellTurned s := by
  refine ⟨fun hidle u hu hyield => ?_, fun t ht hrun hplain hatomic u hu hyield hobserver => ?_⟩
  · exact hasLeaving_of_extends app b h hdrawn u false (hs.busy hidle u hu hyield)
  · rw [observes_of_extends app b h] at hplain hobserver
    exact hasLeaving_of_extends app b h hdrawn u false
      (hs.observers t ht hrun hplain hatomic u hu hyield hobserver)

/-- Every thread is looked at in the search. -/
theorem place_in_turnOrder (s : ControlState σ) (stepped : Nat) (u : Thread) (hu : u ∈ s.threads) :
    ∃ i ∈ turnOrder s.threads.length stepped, s.threads[i]? = some u := by
  rcases List.getElem?_of_mem hu with ⟨i, hi⟩
  exact ⟨i, (mem_turnOrder _ _ i).mpr (List.getElem?_eq_some_iff.mp hi).1, hi⟩

/-- If nobody runs, the next thread is one that the search has found, or there is none because
    nobody can run. -/
theorem searched_of_grantTurn (s s' : ControlState σ) (stepped : Nat)
    (hidle : ∀ t ∈ s.threads, t.status ≠ .running) (h : app.grantTurn s stepped = .ok s') :
    (s' = s ∧ ∀ u ∈ s.threads, u.status = .yield → app.hasLeaving u = .ok false)
      ∨ ∃ index t, s.threads[index]? = some t
        ∧ app.Search s none (turnOrder s.threads.length stepped) (some index)
        ∧ s' = s.setThread index { t with status := .running } := by
  unfold grantTurn at h
  rcases (except_bind_ok _ _ _).mp h with ⟨found, hfound, h⟩
  have hnext := hfound
  unfold nextThread at hfound
  rcases (except_bind_ok _ _ _).mp hfound with ⟨chosen, hsearch, hfound⟩
  cases chosen with
  | some index =>
      cases (except_pure_ok _ _).mp hfound
      cases (except_pure_ok _ _).mp h
      rcases runnable_of_nextThread app s stepped index hnext with ⟨t, ht, _, _⟩
      exact Or.inr ⟨index, t, ht, search_of_firstRunnable app s _ none _ hsearch,
        withStatus_eq s index t .running ht⟩
  | none =>
      have hstill : ∀ u ∈ s.threads, u.status = .yield → app.hasLeaving u = .ok false := by
        intro u hu hyield
        rcases place_in_turnOrder s stepped u hu with ⟨i, hi, hiu⟩
        cases search_of_firstRunnable app s _ none none hsearch with
        | nobody _ hnobody => exact (canRun_yield app u hyield).symm.trans (hnobody i hi u hiu)
      rcases (except_bind_ok _ _ _).mp hfound with ⟨more, hmore, hfound⟩
      cases more with
      | false =>
          cases (except_pure_ok _ _).mp hfound
          cases (except_pure_ok _ _).mp h
          exact Or.inl ⟨rfl, hstill⟩
      | true =>
          -- The thread that took the step could not go on without being found.
          unfold canGoOn at hmore
          split at hmore
          next t ht =>
            split at hmore
            next hstatus =>
              have htmem := List.mem_of_getElem? ht
              rw [hstill t htmem (hstatus.resolve_left (hidle t htmem))] at hmore
              cases hmore
            next => cases hmore
          next => cases hmore

/-- If nobody runs, the promise holds once the next thread was chosen. -/
theorem wellTurned_of_grantTurn (s s' : ControlState σ) (stepped : Nat)
    (hidle : ∀ t ∈ s.threads, t.status ≠ .running) (h : app.grantTurn s stepped = .ok s') :
    app.WellTurned s' := by
  rcases searched_of_grantTurn app s s' stepped hidle h with
    ⟨rfl, hnobody⟩ | ⟨index, t, ht, hsearch, rfl⟩
  · exact ⟨fun _ => hnobody, fun t ht hrun => absurd hrun (hidle t ht)⟩
  -- The chosen thread is the only one that runs, and the others are as they were.
  have hruns : { t with status := .running } ∈ s.threads.set index { t with status := .running } :=
    List.mem_set (List.getElem?_eq_some_iff.mp ht).1 _
  refine ⟨fun hnone => absurd rfl (hnone _ hruns),
    fun v hv hrun hplain _ u hu hyield hobserver => ?_⟩
  rcases List.mem_or_eq_of_mem_set hv with hv | rfl
  · exact absurd hrun (hidle v hv)
  -- If the chosen thread is an observer there is nothing to show. If not, the search has looked at
  -- all observers.
  cases hsearch with
  | observer _ w hw _ hobserves =>
      rw [ht] at hw
      cases hw
      change app.observes t = _ at hplain
      rw [hobserves] at hplain
      cases hplain
  | other _ hothers _ =>
      rcases List.mem_or_eq_of_mem_set hu with hu | rfl
      · rcases place_in_turnOrder s stepped u hu with ⟨i, hi, hiu⟩
        rcases hothers i hi u hiu with hcan | hnot
        · exact (canRun_yield app u hyield).symm.trans hcan
        · rw [hobserver] at hnot
          cases hnot
      · cases hyield

/-- The promise holds once the turn was passed in the middle of a step. -/
theorem wellTurned_of_passTurn (s s' : ControlState σ) (index : Nat) (hs : s.InStep index)
    (h : app.passTurn s index = .ok s') : app.WellTurned s' := by
  rcases turned_of_passTurn app s s' index h with
    ⟨t, more, ht, _, _, ⟨rfl, hrun, hatomic, _⟩ | hgrant⟩
  -- In an atomic block the thread goes on.
  · have htmem := List.mem_of_getElem? ht
    refine ⟨fun hnone => absurd (beq_iff_eq.mp hrun) (hnone t htmem), fun v hv hvrun _ hfree => ?_⟩
    rcases List.getElem?_of_mem hv with ⟨i, hi⟩
    rw [hs.alone i v hi hvrun, ht] at hi
    cases hi
    exact absurd hatomic (hfree ▸ Nat.lt_irrefl 0)
  · exact wellTurned_of_grantTurn app _ s' index (idle_of_giveTurnAway s index t more hs) hgrant

end App

namespace Scheduler

variable {σ : Type}

theorem wellTurned_of_gives_startState (data : σ) (k k' : Scheduler) (s : ControlState σ)
    (h : Gives (startState data) k s k') : k'.app.WellTurned s := by
  unfold startState at h
  rcases (gives_bind _ _ _ _ _).mp h with ⟨threads, k₁, hthreads, h⟩
  rw [gives_program_bind] at h
  rcases (gives_lookUp_bind _ _ _ _ _).mp h with ⟨next, hgrant, h⟩
  rcases (gives_lookUp_bind _ _ _ _ _).mp h with ⟨_, _, h⟩
  rcases (gives_pure _ _ _ _).mp h with ⟨rfl, rfl⟩
  exact k₁.app.wellTurned_of_grantTurn _ next _ (idle_of_gives_initialThreads k k₁ threads hthreads)
    hgrant

variable [DecidableEq σ]

/-- A step ends with the turn being passed, in the middle of the step. -/
theorem passed_of_step (c : Control σ) (before after : App) (s s' : ControlState σ)
    (hdrawn : before.RelationsDrawn) (hs : before.Steady s) (h : Step c before after s s') :
    ∃ (app : App) (u : ControlState σ) (index : Nat), s.running = [index] ∧ before.Extends app
      ∧ app.Extends after ∧ u.InStep index ∧ app.passTurn u index = .ok s' := by
  rcases h with ⟨index, t, t₁, actor, edges, edge, k₁, k₂, app₁, app₂, outcomes, s₁, settled,
    states, data, _, hrunning, hthread, _, _, _, hedge, htaken, houtcome, hmoved, _, _, hend,
    hwaking, ⟨threads, u, hfinish, hwoken, hturn⟩, hafter⟩
  rw [thread_ok] at hthread hmoved
  have hs₁ := inStep_of_gives_follow s index edge.1 edge.2 t k₁ k₂ outcomes
    (s.inStep_of_running index hs.single hrunning)
    (App.linked_of_extends before s.threads s.conditions k₁.app hedge hdrawn hs.awaiting.linked)
    hthread (s.isRunning_of_running index t hrunning hthread) htaken (s₁, settled) houtcome
  have hcalmer :=
    s₁.calmer_trans _ u (calmer_afterStep app₁ s₁ index t₁ threads data hmoved hfinish)
    (calmer_of_woken c app₁ app₂ actor.concern _ u hwoken)
  refine ⟨app₂, u, index, hrunning, ?_, hafter, s₁.inStep_of_calmer u index hcalmer hs₁, hturn⟩
  exact App.extends_trans _ _ _ hedge (App.extends_trans _ _ _
    (extends_of_gives _ (grows_follow s index edge.1 edge.2) k₁ k₂ outcomes htaken)
    (App.extends_trans _ _ _ hend hwaking))

end Scheduler

/-- An observer that reacts to a message. -/
def watcher : ActorDraft :=
  ⟨"watcher", .specification, none, [], [], [], [(.messageReceived "go" "app", 0)]⟩

/-- An actor that sends the message twice. -/
def sender : ActorDraft := ⟨"sender", .program, none, [], [], [], [(.bootstrap, 1)]⟩

/-- An actor that has nothing to do with the message. -/
def bystander (name : String) : ActorDraft :=
  ⟨name, .program, none, [], [], [], [(.bootstrap, 2)]⟩

/-- A watcher that has its place before the sender. -/
def watchful : List ActorDraft := [watcher, sender, bystander "guest"]

/-- A watcher that has its place behind the sender. -/
def crowded : List ActorDraft := [sender, watcher, bystander "guest", bystander "host"]

/-- The program of some of these actors. -/
def patrol (actors : List ActorDraft) : App :=
  (AppDraft.build
    { name := "patrol"
      relations := [
        .sequence [.epsilon],
        .sequence [.broadcast ⟨.str "app", .str "go"⟩, .broadcast ⟨.str "app", .str "go"⟩],
        .sequence [.epsilon, .epsilon, .epsilon]]
      actors := actors }).run (App.new "patrol") |>.2

/-- The patrol after a number of steps. -/
def patrolSession (actors : List ActorDraft) : Nat → Session Unit
  | 0 => (Session.new (patrol actors)).start ()
  | n + 1 => (patrolSession actors n).expandLast .indifferent

theorem explored_patrolSession (actors : List ActorDraft) (n : Nat) :
    Session.Explored .indifferent (patrol actors) (patrolSession actors n) := by
  induction n with
  | zero => exact .start _ () .new
  | succ n ih => exact Session.explored_of_expandLast _ _ _ ih

namespace Session

variable {σ : Type} [DecidableEq σ]

/-- In every state that was found, nobody who could run is idle, and observers go first. -/
theorem observers_first (c : Control σ) (app : App) (hdrawn : app.RelationsDrawn)
    (x : Session σ) (h : Explored c app x) : ∀ s ∈ x.found, x.scheduler.app.WellTurned s := by
  have hboth := invariant_of_explored c app (fun app s => app.Steady s ∧ app.WellTurned s) ?_ ?_ ?_
    x h
  · exact fun s hs => (hboth s hs).2
  · rintro a b s ha hab ⟨hsteady, hturned⟩
    have hdrawnA := App.relationsDrawn_of_extends app a ha hdrawn
    exact ⟨App.steady_of_extends a b hab hdrawnA s hsteady,
      App.wellTurned_of_extends a b hab hdrawnA s hturned⟩
  · intro k k' data s _ hgives
    exact ⟨Scheduler.steady_of_gives_startState data k k' s hgives,
      Scheduler.wellTurned_of_gives_startState data k k' s hgives⟩
  · rintro k k' s next hk ⟨hsteady, _⟩ hgives s' hs'
    have hdrawnK := App.relationsDrawn_of_extends app k.app hk hdrawn
    have hstep := Scheduler.step_of_gives_successors c s s' k k' next hgives hs'
    rcases Scheduler.passed_of_step c k.app k'.app s s' hdrawnK hsteady hstep with
      ⟨b, u, index, _, hbefore, hafter, hmiddle, hturn⟩
    exact ⟨Scheduler.steady_of_step c k.app k'.app s s' hdrawnK hsteady hstep,
      b.wellTurned_of_extends k'.app hafter (App.relationsDrawn_of_extends k.app b hbefore hdrawnK)
        s'
        (b.wellTurned_of_passTurn u s' index hmiddle hturn)⟩

/-- After its first message the sender has to let the watcher run first. -/
theorem observers_first_patrol : ∃ s ∈ (patrolSession watchful 1).found,
    (∃ t ∈ s.threads, t.status = .running ∧ t.actor = "watcher")
      ∧ (∃ u ∈ s.threads, u.status = .yield ∧ u.actor = "sender")
      ∧ (patrolSession watchful 1).scheduler.app.WellTurned s := by
  have hfound : ∃ s ∈ (patrolSession watchful 1).found,
      (∃ t ∈ s.threads, t.status = .running ∧ t.actor = "watcher")
        ∧ ∃ u ∈ s.threads, u.status = .yield ∧ u.actor = "sender" := by
    decide +kernel
  rcases hfound with ⟨s, hs, hruns, hwaits⟩
  exact ⟨s, hs, hruns, hwaits, observers_first .indifferent _ (App.relationsDrawn_of_draft _ _) _
    (explored_patrolSession _ 1) s hs⟩

end Session

end ActorCheck

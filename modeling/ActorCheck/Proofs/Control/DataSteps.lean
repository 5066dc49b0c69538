import ActorCheck.Proofs.Control.Courses
import ActorCheck.Proofs.Control.NoFaults
import ActorCheck.Proofs.Control.Priority

/-!
# Steps That Only Concern the Data

Most statements are none of the scheduler's business: it moves the thread along the edge and hands
the statement to the data analysis. If besides nobody waits for anybody, no script is a monitor and
no condition is pending, then finishing, starting, releasing and evaluating change nothing but the
status of the thread that has moved. What is left of a step is known exactly.

`looksUp_successors` is that account. It is an equation and not one of the usual statements about
steps that succeed, since it also has to say when a step fails: if the operations that leave the
place cannot be given their scopes, or if the data analysis fails for one of them, and in no other
case. A step of this kind adds nothing to the program. `LooksUp` says of a part of a step that it
is a mere look-up, and has a rule for each of the ways in which steps are put together.

Who runs next is left open here. The equation is for any program of which that is known, and
`nextThread_eq` is a way to know it, if no observer can run, and `nextThread_single` is another, if
there is only one thread.

## Main definitions

* `Statement.OfData`: A statement is none of the scheduler's business.
* `Scheduler.LooksUp`: A part of a step is a mere look-up.
* `App.Quiet`: Nothing is going on but the step of one thread.
* `App.landed`, `App.rested`: The state after a thread has moved along an edge, and after it has
  given its turn away.
* `App.edgeAt`: An edge the way a thread takes it.

## Theorems

* `Scoping.ofData_of_statement`: Scoping keeps statements that concern the data.
* `Scheduler.looksUp_bind`, `Scheduler.looksUp_mapM`: The rules for look-ups.
* `App.nextThread_eq`: Who runs next, among threads that are no observers.
* `App.nextThread_single`: Who runs next, among one thread.
* `App.passTurn_landed`: The turn passes after a thread has moved.
* `Scheduler.looksUp_follow`: A thread moves along an edge.
* `Scheduler.looksUp_complete`: How such a step ends.
* `Scheduler.looksUp_successors`: The successors of a state.
* `Scheduler.looksUp_successors_idle`: There are none if it is nobody's turn.
-/

namespace ActorCheck

/-- The statement is none of the scheduler's business when an actor executes it. Calls of methods
    that the system provides are such statements, apart from the built-in waits and signals. -/
def Statement.OfData (a : Actor) : Statement → Prop
  | .epsilon => True
  | .assume _ => True
  | .evaluate _ => True
  | .declare v => v.type ≠ .actor
  | .store v _ => v.type ≠ .actor
  | .call method _ _ => method ≠ Builtin.waitSeconds ∧ method ≠ Builtin.signalFailure
      ∧ (method = Builtin.micros ∨ a.isExternal method = true)
  | _ => False

instance (a : Actor) (s : Statement) : Decidable (s.OfData a) :=
  match s with
  | .epsilon | .assume _ | .evaluate _ => inferInstanceAs (Decidable True)
  | .declare v | .store v _ => inferInstanceAs (Decidable (v.type ≠ .actor))
  | .call method _ _ => inferInstanceAs (Decidable (method ≠ Builtin.waitSeconds
      ∧ method ≠ Builtin.signalFailure ∧ (method = Builtin.micros ∨ a.isExternal method = true)))
  | .ret _ | .beginAtomic | .endAtomic | .signal _ | .broadcast _ | .broadcastAndWait _
  | .waitUntil _ | .waitSecs _ => inferInstanceAs (Decidable False)

namespace Scoping

theorem type_target (scoping : Scoping) (v : Variable) : (scoping.target v).type = v.type := by
  unfold target place
  split
  · rfl
  · rfl

/-- Scoping keeps statements that concern the data. -/
theorem ofData_of_statement (scoping : Scoping) (a : Actor) (s s' : Statement) (h : s.OfData a)
    (hs : scoping.statement s = .ok s') : s'.OfData a := by
  -- Scoping goes into the expressions of a statement and moves its variable, but neither the kind
  -- of statement nor the type of the variable changes.
  cases s with
  | epsilon =>
      cases hs
      exact h
  | assume e =>
      rcases (except_bind_ok _ _ _).mp hs with ⟨e', _, hs⟩
      cases (except_pure_ok _ _).mp hs
      exact h
  | evaluate e =>
      rcases (except_bind_ok _ _ _).mp hs with ⟨e', _, hs⟩
      cases (except_pure_ok _ _).mp hs
      exact h
  | declare v =>
      cases hs
      exact fun htype => h ((scoping.type_target v).symm.trans htype)
  | store v e =>
      rcases (except_bind_ok _ _ _).mp hs with ⟨e', _, hs⟩
      cases (except_pure_ok _ _).mp hs
      exact fun htype => h ((scoping.type_target v).symm.trans htype)
  | call method args result =>
      rcases (except_bind_ok _ _ _).mp hs with ⟨args', _, hs⟩
      cases (except_pure_ok _ _).mp hs
      exact h
  | _ => exact absurd h id

end Scoping

section Maps

variable {ε α : Type}

/-- A map of look-ups that find what they were given. -/
theorem except_mapM_same (f : α → Except ε α) (xs : List α) (h : ∀ x ∈ xs, f x = .ok x) :
    xs.mapM f = .ok xs :=
  (except_mapM_ok f xs xs).mpr (List.forall₂_same.mpr h)

/-- The same if that fails at one index only. -/
theorem except_mapM_set (f : α → Except ε α) (xs : List α) (i : Nat) (x y : α)
    (hx : f x = .ok y) (h : ∀ j u, xs[j]? = some u → j ≠ i → f u = .ok u) :
    (xs.set i x).mapM f = .ok (xs.set i y) := by
  rw [except_mapM_ok]
  -- The index goes down along the list until it meets the head. From there on nothing fails any
  -- more.
  induction xs generalizing i with
  | nil => exact .nil
  | cons z zs ih =>
      cases i with
      | zero =>
          refine .cons hx (List.forall₂_same.mpr fun u hu => ?_)
          rcases List.getElem?_of_mem hu with ⟨j, hj⟩
          exact h (j + 1) u hj (Nat.succ_ne_zero j)
      | succ i =>
          refine .cons (h 0 z rfl (Nat.succ_ne_zero i).symm) (ih i fun j u hj hne => ?_)
          exact h (j + 1) u hj fun heq => hne (Nat.succ.inj heq)

end Maps

namespace Scheduler

section LookUps

variable {α β : Type} (k : Scheduler)

/-- A part of a step is a mere look-up: it leaves the scheduler as it was. -/
def LooksUp (x : Scheduling α) (k : Scheduler) (e : Except AnalysisError α) : Prop :=
  x.run k = (e, k)

theorem looksUp_pure (a : α) : LooksUp (pure a) k (.ok a) := rfl

theorem looksUp_lookUp (e : Except AnalysisError α) : LooksUp (liftM e) k e := by
  cases e with
  | error e => rfl
  | ok a => rfl

theorem looksUp_bind (x : Scheduling α) (f : α → Scheduling β) (e : Except AnalysisError α)
    (g : α → Except AnalysisError β) (hx : LooksUp x k e)
    (hf : ∀ a, e = .ok a → LooksUp (f a) k (g a)) : LooksUp (x >>= f) k (e >>= g) := by
  unfold LooksUp at *
  rw [run_bind, hx]
  -- If the first look-up fails the second one is not made, and the scheduler is the same in any
  -- case.
  cases e with
  | error e => rfl
  | ok a => exact hf a rfl

/-- What comes after a look-up that succeeds. -/
theorem looksUp_bind_ok (x : Scheduling α) (f : α → Scheduling β) (a : α)
    (e : Except AnalysisError β) (hx : LooksUp x k (.ok a)) (hf : LooksUp (f a) k e) :
    LooksUp (x >>= f) k e :=
  looksUp_bind k x f (.ok a) (fun _ => e) hx fun b hb => by
    cases hb
    exact hf

/-- Nothing comes after a look-up that fails. -/
theorem looksUp_bind_error (x : Scheduling α) (f : α → Scheduling β) (e : AnalysisError)
    (hx : LooksUp x k (.error e)) : LooksUp (x >>= f) k (.error e) := by
  unfold LooksUp at *
  rw [run_bind, hx]

theorem looksUp_lookUp_bind (x : Except AnalysisError α) (f : α → Scheduling β) (a : α)
    (e : Except AnalysisError β) (hx : x = .ok a) (hf : LooksUp (f a) k e) :
    LooksUp (liftM x >>= f) k e :=
  looksUp_bind_ok k _ f a e (hx ▸ looksUp_lookUp k x) hf

theorem looksUp_program_bind (f : App → Scheduling β) (e : Except AnalysisError β) :
    LooksUp (liftM program >>= f) k e ↔ LooksUp (f k.app) k e := Iff.rfl

theorem looksUp_mapM (f : α → Scheduling β) (g : α → Except AnalysisError β) (xs : List α)
    (h : ∀ x ∈ xs, LooksUp (f x) k (g x)) : LooksUp (xs.mapM f) k (xs.mapM g) := by
  induction xs with
  | nil => exact looksUp_pure k _
  | cons x xs ih =>
      rw [List.mapM_cons, List.mapM_cons]
      refine looksUp_bind k _ _ _ _ (h x List.mem_cons_self) fun y _ => ?_
      refine looksUp_bind k _ _ _ _ (ih fun z hz => h z (List.mem_cons_of_mem _ hz)) fun ys _ => ?_
      exact looksUp_pure k _

/-- The same if every member succeeds. -/
theorem looksUp_mapM_ok (f : α → Scheduling β) (g : α → β) (xs : List α)
    (h : ∀ x ∈ xs, LooksUp (f x) k (.ok (g x))) : LooksUp (xs.mapM f) k (.ok (xs.map g)) := by
  have hmap : xs.mapM (fun x => (.ok (g x) : Except AnalysisError β)) = .ok (xs.map g) := by
    rw [except_mapM_ok, List.forall₂_map_right_iff]
    exact List.forall₂_same.mpr fun x _ => rfl
  rw [← hmap]
  exact looksUp_mapM k f _ xs h

end LookUps

end Scheduler

/-- The state in which a thread runs that was chosen, if one was. -/
def ControlState.granted {σ : Type} (s : ControlState σ) : Option Nat → ControlState σ
  | some index => s.withStatus index .running
  | none => s

namespace App

variable {σ : Type} (app : App)

/-- Nothing is going on but the step of the thread at an index. Nobody waits, no script is a
    monitor, no condition is pending, and all other threads that are at the end of their relations
    are done. -/
structure Quiet (app : App) (s : ControlState σ) (index : Nat) (t : Thread) (actor : Actor) :
    Prop where
  noTarget : s.isTarget = false
  running : s.running = [index]
  thread : s.threads[index]? = some t
  acting : app.actorNamed t.actor = .ok actor
  free : s.conditions = []
  unbound : s.actorScopes = ∅
  operations : t.operations = []
  waits : ∀ u ∈ s.threads, u.waitingFor = ∅
  plain : ∀ u ∈ s.threads, app.NoMonitor u
  going : ∀ i u, s.threads[i]? = some u → i ≠ index → app.finishThread u = .ok u

/-- The stack of loops of a thread after it has moved to a place. -/
def loopsAfter (app : App) (t : Thread) (target : Place) : List Place :=
  match app.loopMove t.place target with
  | .ok action => action.apply t.place t.loops
  | .error _ => t.loops

/-- A thread that has moved to a place. -/
def movedTo (app : App) (t : Thread) (target : Place) : Thread :=
  { t with loops := app.loopsAfter t target, place := target }

/-- A thread that has moved to a place, and is done if nothing leaves it. -/
def arrivedAt (app : App) (t : Thread) (target : Place) : Thread :=
  match app.hasLeaving (app.movedTo t target) with
  | .ok false => { app.movedTo t target with status := .done }
  | _ => app.movedTo t target

/-- The state after the thread at an index has moved along an edge and the data analysis has done
    its part, before the turn is passed. -/
def landed (app : App) (s : ControlState σ) (index : Nat) (t : Thread) (target : Place) (data : σ) :
    ControlState σ :=
  Scheduler.afterStep s index (s.threads.set index (app.arrivedAt t target)) data

/-- A thread that has moved to a place and has given its turn away. -/
def restedAt (app : App) (t : Thread) (target : Place) : Thread :=
  match app.hasLeaving (app.movedTo t target) with
  | .ok false => { app.movedTo t target with status := .done }
  | _ => { app.movedTo t target with status := .yield }

/-- The state after the thread at an index has moved along an edge and has given its turn away. -/
def rested (app : App) (s : ControlState σ) (index : Nat) (t : Thread) (target : Place) (data : σ) :
    ControlState σ :=
  Scheduler.afterStep s index (s.threads.set index (app.restedAt t target)) data

/-- A thread is the same wherever it has moved to. -/
theorem same_arrivedAt (t : Thread) (target : Place) :
    t.Same (app.arrivedAt t target) ∧ (app.arrivedAt t target).waitingFor = t.waitingFor
      ∧ (app.arrivedAt t target).place = target ∧ (app.arrivedAt t target).operations = t.operations
      ∧ (app.arrivedAt t target).atomic = t.atomic := by
  unfold arrivedAt
  split
  · exact ⟨⟨rfl, rfl, rfl⟩, rfl, rfl, rfl, rfl⟩
  · exact ⟨⟨rfl, rfl, rfl⟩, rfl, rfl, rfl, rfl⟩

theorem loopMove_ok (source target : Place) (r : Relation)
    (hr : app.relationOf source.relation = .ok r) :
    ∃ action, app.loopMove source target = .ok action := by
  unfold loopMove
  split
  · exact ⟨_, rfl⟩
  · rw [hr]
    -- Whether the place lies in a loop or not, there is a move.
    rcases hbody : r.loopBody? source.location with _ | body
    · exact ⟨.none, (except_bind_ok _ _ _).mpr ⟨r, rfl, by rw [hbody]; rfl⟩⟩
    · exact ⟨_, (except_bind_ok _ _ _).mpr ⟨r, rfl, by rw [hbody]; rfl⟩⟩

theorem hasLeaving_eq (t : Thread) (r : Relation) (hr : app.relationOf t.place.relation = .ok r) :
    app.hasLeaving t = .ok (r.hasEdgesFrom t.place.location) := by
  unfold hasLeaving
  rw [hr]
  rfl

/-- An edge the way a thread at a place of the relation takes it. All variables of the operation
    are in their places, and none of them refers to an actor. -/
def edgeAt (app : App) (actor : Actor) (r : Relation) (p : Place)
    (edge : OperationId × LocationId) : Except AnalysisError (Operation × Place) := do
  let op ← app.operationOf edge.1
  let scoping := Scoping.new actor [p.actor, r.name]
  return (← ofScope (scoping.operation op), { p with location := edge.2 })

theorem leaving_eq (s : ControlState σ) (t : Thread) (r : Relation) (actor : Actor)
    (hr : app.relationOf t.place.relation = .ok r) (hactor : app.actorNamed t.actor = .ok actor)
    (hscopes : s.actorScopes = ∅) :
    app.leaving s t = (r.edgesFrom t.place.location).mapM (app.edgeAt actor r t.place) := by
  -- Without actors bound to variables the edges are read under a scoping that depends on the place
  -- only.
  have hscope : app.localScope t.place = .ok [t.place.actor, r.name] := by
    unfold localScope
    rw [hr]
    rfl
  have hresolve : (fun v : Variable => s.actorScopes[v]?) = fun _ => none := by
    funext v
    rw [hscopes]
    rfl
  unfold leaving
  rw [hr, hactor, hscope, hresolve]
  rfl

theorem edgeAt_ok (actor : Actor) (r : Relation) (p : Place) (edge : OperationId × LocationId)
    (found : Operation × Place) (h : app.edgeAt actor r p edge = .ok found) :
    ∃ op, app.operation edge.1 = .ok op
      ∧ (Scoping.new actor [p.actor, r.name]).operation op = .ok found.1
      ∧ found.2 = { p with location := edge.2 } := by
  rcases (except_bind_ok _ _ _).mp h with ⟨op, hop, h⟩
  rcases (except_bind_ok _ _ _).mp h with ⟨placed, hplaced, h⟩
  cases (except_pure_ok _ _).mp h
  exact ⟨op, (ofModel_ok _ _).mp hop, (ofScope_ok _ _).mp hplaced, rfl⟩

/-- A thread that has moved within its relation, and what finishing makes of it. -/
theorem finishThread_movedTo (t : Thread) (target : Place) (r : Relation)
    (hr : app.relationOf target.relation = .ok r) (hruns : t.status = .running) :
    app.finishThread (app.movedTo t target) = .ok (app.arrivedAt t target) := by
  have hstatus : (app.movedTo t target).status = .running := hruns
  have hleaves := app.hasLeaving_eq (app.movedTo t target) r hr
  unfold finishThread arrivedAt
  rw [hstatus, if_neg (by decide), hleaves]
  -- A thread that runs is stopped exactly if nothing leaves its new place.
  cases r.hasEdgesFrom (app.movedTo t target).place.location with
  | true => rfl
  | false => rfl

theorem startMonitors_same (concern : Concern) (ts : List Thread)
    (h : ∀ u ∈ ts, app.NoMonitor u) : app.startMonitors concern ts = .ok ts := by
  unfold startMonitors
  split
  · refine except_mapM_same _ ts fun u hu => ?_
    rcases h u hu with ⟨script, hscript, hevent⟩
    unfold startMonitor
    -- Monitors are started at the end of steps of the program, and there are none.
    split
    · rfl
    · rw [hscript]
      change (if script.event = .afterStatement then _ else _) = _
      rw [if_neg hevent]
      rfl
  · rfl

theorem releaseWaiting_same (ts : List Thread) (h : ∀ u ∈ ts, u.waitingFor = ∅) :
    app.releaseWaiting ts = .ok ts := by
  refine except_mapM_same _ ts fun u hu => ?_
  unfold releaseThread
  rw [if_pos (Std.ExtTreeSet.isEmpty_iff.mpr (h u hu))]

section Turns

/-- The search for the next thread, if it is known of every thread whether it can run, and if no
    observer can. -/
theorem firstRunnable_eq (s : ControlState σ) (can : Nat → Bool) (first : Option Nat)
    (order : List Nat)
    (h : ∀ i ∈ order, ∃ t, s.threads[i]? = some t ∧ app.canRun t = .ok (can i)
      ∧ (can i = true → app.observes t = .ok false)) :
    app.firstRunnable s first order = .ok (first.or (order.find? can)) := by
  -- By induction on the order of the search, for whatever was found before. The first one that can
  -- run stays found.
  induction order generalizing first with
  | nil => exact congrArg Except.ok (Option.or_none).symm
  | cons i rest ih =>
      rcases h i List.mem_cons_self with ⟨t, ht, hcan, hplain⟩
      have hrest := fun first => ih first fun j hj => h j (List.mem_cons_of_mem _ hj)
      unfold firstRunnable
      rw [ht]
      dsimp only
      rw [hcan]
      cases hi : can i with
      | false =>
          rw [List.find?_cons_of_neg (by rw [hi]; exact Bool.false_ne_true)]
          exact hrest first
      | true =>
          rcases (except_bind_ok _ _ _).mp (hplain hi) with ⟨actor, hactor, hobserver⟩
          rw [List.find?_cons_of_pos hi, hactor]
          change (if actor.isObserver = true then _ else _) = _
          rw [(except_pure_ok _ _).mp hobserver, if_neg Bool.false_ne_true, hrest]
          cases first with
          | none => rfl
          | some j => rfl

/-- The thread that runs next, under the same conditions and if nobody runs. -/
theorem nextThread_eq (s : ControlState σ) (can : Nat → Bool) (stepped : Nat)
    (hstepped : stepped < s.threads.length)
    (h : ∀ i t, s.threads[i]? = some t → t.status ≠ .running ∧ app.canRun t = .ok (can i)
      ∧ (can i = true → app.observes t = .ok false)) :
    app.nextThread s stepped = .ok ((turnOrder s.threads.length stepped).find? can) := by
  have hsearch := app.firstRunnable_eq s can none (turnOrder s.threads.length stepped) (by
    intro i hi
    have ht := List.getElem?_eq_getElem ((mem_turnOrder _ _ _).mp hi)
    exact ⟨_, ht, (h i _ ht).2⟩)
  unfold nextThread
  rw [hsearch, Option.none_or]
  -- If nobody is found, the thread that took the step might go on, in case it still runs.
  cases hfind : (turnOrder s.threads.length stepped).find? can with
  | some i => rfl
  | none =>
      -- The thread that took the step comes last in the search, so it cannot run either.
      have hcan := List.find?_eq_none.mp hfind stepped ((mem_turnOrder _ _ _).mpr hstepped)
      have ht := List.getElem?_eq_getElem hstepped
      rcases h stepped _ ht with ⟨hidle, hrun, _⟩
      rw [Bool.eq_false_iff.mpr hcan] at hrun
      have hnot : app.canGoOn s stepped = .ok false := by
        unfold canGoOn
        rw [ht]
        exact (if_congr (or_iff_right hidle) rfl rfl).trans hrun
      change (do return if ← app.canGoOn s stepped then some stepped else none) = _
      rw [hnot]
      rfl

/-- The only thread is next if it can run, whether it belongs to an observer or not. -/
theorem nextThread_single (s : ControlState σ) (t : Thread) (hs : s.threads = [t])
    (hidle : t.status ≠ .running) (can : Bool) (hcan : app.canRun t = .ok can) (observer : Bool)
    (hobserves : app.observes t = .ok observer) :
    app.nextThread s 0 = .ok (if can then some 0 else none) := by
  rcases (except_bind_ok _ _ _).mp hobserves with ⟨actor, hactor, hkind⟩
  have hsearch : app.firstRunnable s none (turnOrder s.threads.length 0)
      = .ok (if can then some 0 else none) := by
    -- There is only one index to be asked, and no later one that could come before it.
    have horder : turnOrder 1 0 = [0] := by decide
    rw [hs, List.length_singleton, horder]
    unfold firstRunnable
    rw [hs]
    dsimp only [List.getElem?_cons_zero]
    rw [hcan]
    cases can with
    | false => rfl
    | true =>
        rw [hactor]
        change (if actor.isObserver = true then _ else _) = _
        split
        · rfl
        · rfl
  have hnot : can = false → app.canGoOn s 0 = .ok false := by
    rintro rfl
    unfold canGoOn
    rw [hs]
    exact (if_congr (or_iff_right hidle) rfl rfl).trans hcan
  unfold nextThread
  rw [hsearch]
  cases can with
  | true => rfl
  | false =>
      change (do return if ← app.canGoOn s 0 then some 0 else none) = _
      rw [hnot rfl]
      rfl

theorem grantTurn_eq (s : ControlState σ) (stepped : Nat) (who : Option Nat)
    (h : app.nextThread s stepped = .ok who) : app.grantTurn s stepped = .ok (s.granted who) := by
  unfold grantTurn
  rw [h]
  cases who with
  | none => rfl
  | some next => rfl

theorem giveTurnAway_arrivedAt (t : Thread) (target : Place) (r : Relation)
    (hr : app.relationOf target.relation = .ok r) (hruns : t.status = .running) :
    giveTurnAway (r.hasEdgesFrom target.location) (app.arrivedAt t target)
      = app.restedAt t target := by
  have hstatus : (app.movedTo t target).status = .running := hruns
  have hleaves : app.hasLeaving (app.movedTo t target) = .ok (r.hasEdgesFrom target.location) :=
    app.hasLeaving_eq (app.movedTo t target) r hr
  unfold arrivedAt restedAt
  rw [hleaves]
  cases r.hasEdgesFrom target.location with
  -- A thread that has somewhere to go still runs when it arrives, and is paused now.
  | true =>
      unfold giveTurnAway Thread.isRunning
      rw [hstatus]
      rfl
  | false => rfl

/-- The turn passes after a thread has moved: the thread gives it away, and the one that is next
    gets it. -/
theorem passTurn_landed (s : ControlState σ) (index : Nat) (t : Thread) (actor : Actor)
    (h : app.Quiet s index t actor) (hatomic : t.atomic = 0) (target : Place) (data : σ)
    (r : Relation) (hr : app.relationOf target.relation = .ok r) (who : Option Nat)
    (hwho : app.nextThread (app.rested s index t target data) index = .ok who) :
    app.passTurn (app.landed s index t target data) index
      = .ok ((app.rested s index t target data).granted who) := by
  have hlt := (List.getElem?_eq_some_iff.mp h.thread).1
  have hruns := s.isRunning_of_running index t h.running h.thread
  rcases app.same_arrivedAt t target with ⟨_, _, hplace, _, hopen⟩
  have hmore : app.hasLeaving (app.arrivedAt t target)
      = .ok (r.hasEdgesFrom target.location) := by
    rw [app.hasLeaving_eq _ r (by rw [hplace]; exact hr), hplace]
  have hthread : (app.landed s index t target data).thread index
      = .ok (app.arrivedAt t target) := (thread_ok _ _ _).mpr (List.getElem?_set_self hlt)
  -- To give the turn away is to set the same thread for the second time.
  have hrested : (app.landed s index t target data).setThread index
        (giveTurnAway (r.hasEdgesFrom target.location) (app.arrivedAt t target))
      = app.rested s index t target data := by
    rw [app.giveTurnAway_arrivedAt t target r hr hruns]
    unfold landed rested ControlState.setThread Scheduler.afterStep
    dsimp only
    rw [List.set_set]
  -- Nobody else runs, since nobody else did before the step, and there are no conditions that could
  -- be met.
  have hmiddle : (app.landed s index t target data).InStep index := by
    refine ⟨by rw [landed, Scheduler.afterStep, List.length_set]; exact hlt, fun i u hu hrun => ?_,
      fun u _ p hp => ?_⟩
    · by_contra hne
      have hold : s.threads[i]? = some u :=
        (List.getElem?_set_ne (fun heq => hne heq.symm)).symm.trans hu
      have hi := (s.mem_running i).mpr ⟨u, hold, hrun⟩
      rw [h.running] at hi
      exact hne (List.mem_singleton.mp hi)
    · have hnone : (app.landed s index t target data).conditions = [] := h.free
      rw [hnone] at hp
      exact absurd hp List.not_mem_nil
  have hgrant := app.grantTurn_eq _ index who hwho
  have hcheck : app.checkTurn ((app.rested s index t target data).granted who) = .ok () := by
    refine app.checkTurn_of_grantTurn _ _ index ?_ hgrant
    rw [← hrested]
    exact idle_of_giveTurnAway _ index _ _ hmiddle
  unfold passTurn
  refine (except_bind_ok _ _ _).mpr ⟨_, hthread, (except_bind_ok _ _ _).mpr ⟨_, hmore, ?_⟩⟩
  rw [hopen, hatomic, hrested]
  dsimp only
  rw [if_neg (by simp)]
  refine (except_bind_ok _ _ _).mpr ⟨_, hgrant, (except_bind_ok _ _ _).mpr ⟨(), hcheck, rfl⟩⟩

end Turns

end App

namespace Scheduler

variable {σ : Type} (k : Scheduler)

/-- A statement that only concerns the data changes nothing else. -/
theorem looksUp_interpret (s : ControlState σ) (index : Nat) (t : Thread) (statement : Statement)
    (source target : Place) (actor : Actor) (hactor : k.app.actorNamed t.actor = .ok actor)
    (h : statement.OfData actor) :
    LooksUp (interpret s index t statement source target) k (.ok [(s, false)]) := by
  unfold interpret
  rw [looksUp_program_bind]
  refine looksUp_lookUp_bind k _ _ actor _ hactor ?_
  -- Such a statement falls through to the end, where the state is passed on as it is. Only for
  -- calls and variables something is looked up first.
  cases statement with
  | epsilon => exact looksUp_pure k _
  | assume e => exact looksUp_pure k _
  | evaluate e => exact looksUp_pure k _
  | declare v =>
      have htype : (v.type == DataType.actor) = false := beq_eq_false_iff_ne.mpr h
      dsimp only
      rw [htype]
      exact looksUp_pure k _
  | store v e =>
      dsimp only
      rw [if_neg h]
      exact looksUp_pure k _
  | call method args result =>
      rcases h with ⟨hwait, hsignal, hprovided⟩
      dsimp only
      unfold interpretCall
      rw [if_neg hwait, if_neg hsignal, if_pos hprovided]
      exact looksUp_pure k _
  | _ => exact absurd h id

/-- A thread moves along an edge with such a statement. -/
theorem looksUp_follow (s : ControlState σ) (index : Nat) (t : Thread) (op : Operation)
    (target : Place) (actor : Actor) (r : Relation) (ht : s.threads[index]? = some t)
    (hactor : k.app.actorNamed t.actor = .ok actor)
    (hr : k.app.relationOf t.place.relation = .ok r) (h : op.statement.OfData actor) :
    LooksUp (follow s index op target) k
      (.ok [(s.setThread index (k.app.movedTo t target), false)]) := by
  rcases k.app.loopMove_ok t.place target r hr with ⟨action, haction⟩
  unfold follow
  refine looksUp_lookUp_bind k _ _ t _ ((thread_ok s index t).mpr ht) ?_
  rw [looksUp_program_bind]
  refine looksUp_lookUp_bind k _ _ action _ haction ?_
  -- The stack of loops was defined by the very move that is made.
  have hloops : k.app.loopsAfter t target = action.apply t.place t.loops := by
    unfold App.loopsAfter
    rw [haction]
  unfold App.movedTo
  rw [hloops]
  exact looksUp_interpret k _ index _ op.statement t.place target actor hactor h

variable [DecidableEq σ]

/-- Nobody is woken up if nobody waits, no script is a monitor and no condition is pending. -/
theorem looksUp_wakeAll (c : Control σ) (s : ControlState σ) (concern : Concern)
    (hfree : s.conditions = []) (hwaits : ∀ u ∈ s.threads, u.waitingFor = ∅)
    (hplain : ∀ u ∈ s.threads, k.app.NoMonitor u) :
    LooksUp (wakeAll c s concern) k (.ok [s]) := by
  unfold wakeAll
  rw [looksUp_program_bind]
  refine looksUp_lookUp_bind k _ _ _ _ (k.app.startMonitors_same concern _ hplain) ?_
  refine looksUp_lookUp_bind k _ _ _ _ (k.app.releaseWaiting_same _ hwaits) ?_
  unfold runConditions
  rw [if_pos (List.isEmpty_iff.mpr hfree)]
  exact looksUp_pure k _

/-- Nobody goes on if it is nobody's turn. -/
theorem looksUp_successors_idle (c : Control σ) (s : ControlState σ)
    (hplain : c.config.aggregateAtomicTransitions = false) (htarget : s.isTarget = false)
    (hidle : s.running = []) : LooksUp (successors c s) k (.ok []) := by
  unfold successors
  rw [htarget, if_neg Bool.false_ne_true, hplain, if_neg Bool.false_ne_true, hidle]
  exact looksUp_pure k _

section Quiet

variable (c : Control σ) (s : ControlState σ) (index : Nat) (t : Thread) (actor : Actor)
  (h : k.app.Quiet s index t actor)

include h

/-- The end of a step that only concerns the data. -/
theorem looksUp_complete (target : Place) (data : σ) (concern : Concern) (r : Relation)
    (hr : k.app.relationOf target.relation = .ok r) (next : ControlState σ)
    (hturn : k.app.passTurn (k.app.landed s index t target data) index = .ok next) :
    LooksUp (complete c (s.setThread index (k.app.movedTo t target)) index (k.app.movedTo t target)
      concern data) k (.ok [next]) := by
  have hruns := s.isRunning_of_running index t h.running h.thread
  have hmem := List.mem_of_getElem? h.thread
  rcases k.app.same_arrivedAt t target with ⟨hsame, hwaits, _⟩
  -- The thread has brought no operations along, so there are none to forget.
  have hcleared : { k.app.movedTo t target with operations := [] } = k.app.movedTo t target := by
    have hnone : (k.app.movedTo t target).operations = [] := h.operations
    rw [← hnone]
  -- Only one thread has changed, so what holds of all others still holds.
  have hall : ∀ (P : Thread → Prop), (∀ u ∈ s.threads, P u) → P (k.app.arrivedAt t target) →
      ∀ u ∈ s.threads.set index (k.app.arrivedAt t target), P u := by
    intro P hold hnew u hu
    rcases List.mem_or_eq_of_mem_set hu with hu | rfl
    · exact hold u hu
    · exact hnew
  unfold complete
  rw [looksUp_program_bind, hcleared]
  refine looksUp_lookUp_bind k _ _ (s.threads.set index (k.app.arrivedAt t target)) _ ?_ ?_
  · unfold ControlState.setThread
    dsimp only
    rw [List.set_set]
    exact except_mapM_set _ s.threads index _ _ (k.app.finishThread_movedTo t target r hr hruns)
      h.going
  · have hwoken : LooksUp (wakeAll c (k.app.landed s index t target data) concern) k
        (.ok [k.app.landed s index t target data]) := by
      refine looksUp_wakeAll k c _ concern h.free ?_ ?_
      · exact hall _ h.waits (hwaits.trans (h.waits t hmem))
      · exact hall _ h.plain (k.app.noMonitor_of_same t _ hsame (h.plain t hmem))
    refine looksUp_bind_ok k _ _ _ _ hwoken ?_
    rw [looksUp_program_bind, List.mapM_cons, List.mapM_nil]
    exact looksUp_lookUp_bind k _ _ next _ hturn (looksUp_pure k _)

/-- A step along one edge, up to the passing of the turn. -/
theorem looksUp_takeEdge (edge : Operation × Place) (r : Relation)
    (hsource : k.app.relationOf t.place.relation = .ok r)
    (hsame : edge.2.relation = t.place.relation) (hdata : edge.1.statement.OfData actor)
    (next : σ → ControlState σ)
    (hturn : ∀ data, k.app.passTurn (k.app.landed s index t edge.2 data) index = .ok (next data)) :
    LooksUp (takeEdge c s index actor.concern edge) k (do
      let states ← c.analysis.run s.data [edge.1] actor.concern
      return (states.filter c.analysis.isFeasible).map next) := by
  let moved := s.setThread index (k.app.movedTo t edge.2)
  have hmoved : moved.thread index = .ok (k.app.movedTo t edge.2) :=
    (thread_ok _ _ _).mpr (List.getElem?_set_self (List.getElem?_eq_some_iff.mp h.thread).1)
  have hnone : (k.app.movedTo t edge.2).operations = [] := h.operations
  have htarget : k.app.relationOf edge.2.relation = .ok r := hsame ▸ hsource
  have hsettle : LooksUp (settle c index actor.concern edge.1 (moved, false)) k (do
      let states ← c.analysis.run s.data [edge.1] actor.concern
      return (states.filter c.analysis.isFeasible).map next) := by
    -- There are no operations besides the one on the edge.
    have hafter : dataAfter c moved false (k.app.movedTo t edge.2) edge.1 actor.concern
        = (do
          let states ← c.analysis.run s.data [edge.1] actor.concern
          return states.filter c.analysis.isFeasible) := by
      unfold dataAfter dataOperations
      rw [hnone]
      rfl
    unfold settle
    refine looksUp_lookUp_bind k _ _ _ _ hmoved ?_
    rw [hafter]
    -- An error of the data analysis is the error of the step. Otherwise there is one state for each
    -- outcome that is feasible.
    cases hrun : c.analysis.run s.data [edge.1] actor.concern with
    | error e => exact looksUp_bind_error k _ _ e (looksUp_lookUp k _)
    | ok states =>
        refine looksUp_lookUp_bind k _ _ (states.filter c.analysis.isFeasible) _ rfl ?_
        refine looksUp_bind_ok k _ _ _ _ (looksUp_mapM_ok k _ (fun data => [next data]) _
          fun data _ => looksUp_complete k c s index t actor h edge.2 data actor.concern r htarget
            (next data) (hturn data)) ?_
        change LooksUp (pure (List.flatMap (fun data => [next data]) _)) k (.ok (List.map next _))
        rw [List.map_eq_flatMap]
        exact looksUp_pure k _
  unfold takeEdge
  refine looksUp_bind_ok k _ _ _ _ (looksUp_follow k s index t edge.1 edge.2 actor r h.thread
    h.acting hsource hdata) ?_
  rw [List.mapM_cons, List.mapM_nil]
  cases hrun : c.analysis.run s.data [edge.1] actor.concern with
  | error e =>
      rw [hrun] at hsettle
      exact looksUp_bind_error k _ _ e (looksUp_bind_error k _ _ e hsettle)
  | ok states =>
      rw [hrun] at hsettle
      refine looksUp_bind_ok k _ _ [(states.filter c.analysis.isFeasible).map next] _ ?_ ?_
      · exact looksUp_bind_ok k _ _ _ _ hsettle (looksUp_pure k _)
      · rw [List.flatten_singleton]
        exact looksUp_pure k _

/-- The successors of a state, if the step of the thread that runs only concerns the data. -/
theorem looksUp_successors (haggregate : c.config.aggregateAtomicTransitions = false)
    (hatomic : t.atomic = 0) (r : Relation) (hr : k.app.relationOf t.place.relation = .ok r)
    (hleaves : r.hasEdgesFrom t.place.location = true)
    (hdata : ∀ edge ∈ r.edgesFrom t.place.location, ∀ op, k.app.operation edge.1 = .ok op →
      op.statement.OfData actor)
    (who : Place → Option Nat)
    (hwho : ∀ edge ∈ r.edgesFrom t.place.location, ∀ data,
      k.app.nextThread (k.app.rested s index t { t.place with location := edge.2 } data) index
        = .ok (who { t.place with location := edge.2 })) :
    LooksUp (successors c s) k (do
      let edges ← (r.edgesFrom t.place.location).mapM (k.app.edgeAt actor r t.place)
      let found ← edges.mapM fun edge => do
        let states ← c.analysis.run s.data [edge.1] actor.concern
        return (states.filter c.analysis.isFeasible).map fun data =>
          (k.app.rested s index t edge.2 data).granted (who edge.2)
      return found.flatten) := by
  have hleaving := k.app.leaving_eq s t r actor hr h.acting h.unbound
  unfold successors
  rw [h.noTarget, if_neg Bool.false_ne_true, haggregate, if_neg Bool.false_ne_true, h.running]
  dsimp only
  unfold stepThread
  rw [looksUp_program_bind]
  refine looksUp_lookUp_bind k _ _ t _ ((thread_ok s index t).mpr h.thread) ?_
  refine looksUp_lookUp_bind k _ _ actor _ h.acting ?_
  rw [hleaving]
  refine looksUp_bind k _ _ _ _ (looksUp_lookUp k _) fun edges hedges => ?_
  -- The check for a dead end is passed.
  have hsome : edges ≠ [] := by
    refine App.leaving_ne_nil k.app s t edges ?_ (hleaving.trans hedges)
    rw [k.app.hasLeaving_eq t r hr, hleaves]
  rw [if_neg (fun hempty => hsome (List.isEmpty_iff.mp hempty))]
  refine looksUp_bind k _ _ _ _ (looksUp_mapM k _ _ _ fun edge hedge => ?_) fun found _ => ?_
  -- Each of the edges is one of the relation, with its statement in place. So it only concerns the
  -- data as well, and its place decides who comes next.
  · rcases mem_of_forall₂_right _ _ _ ((except_mapM_ok _ _ _).mp hedges) edge hedge with
      ⟨e, he, hfound⟩
    rcases k.app.edgeAt_ok actor r t.place e edge hfound with ⟨op, hop, hplaced, hplace⟩
    rcases (except_bind_ok _ _ _).mp hplaced with ⟨statement, hstatement, hpure⟩
    refine looksUp_takeEdge k c s index t actor h edge r hr (by rw [hplace]) ?_ _ fun data => ?_
    · rw [← (except_pure_ok _ _).mp hpure]
      exact Scoping.ofData_of_statement _ actor _ statement (hdata e he op hop) hstatement
    · rw [hplace]
      exact k.app.passTurn_landed s index t actor h hatomic { t.place with location := e.2 } data r
        hr _ (hwho e he data)
  · exact looksUp_pure k _

/-- The only move that such a step makes, if one edge leaves the place. -/
theorem move_of_passage (m : Move σ) (k' : Scheduler) (w : Passage c k k' m) (hm : m.source = s)
    (edge : Operation × Place) (hedge : k.app.leaving s t = .ok [edge]) (r : Relation)
    (hr : k.app.relationOf t.place.relation = .ok r) (hdata : edge.1.statement.OfData actor) :
    m.index = index ∧ m.operations = [edge.1] := by
  subst hm
  rcases edge_of_passage c k k' m w index t [edge] h.running h.thread hedge with
    ⟨hindex, ht, hmem⟩
  have hhere : m.edge = edge := List.mem_singleton.mp hmem
  have hleaving := w.leaving
  rw [ht, hedge, hhere] at hleaving
  -- There is one edge in all, so it stands first.
  have hfirst : w.edges = [] := by
    have hlength := congrArg List.length (Except.ok.inj hleaving)
    rw [List.length_append, List.length_cons, List.length_cons, List.length_nil] at hlength
    exact List.eq_nil_of_length_eq_zero (by omega)
  -- No edge was tried before, so the statement is interpreted with the program as it is.
  have hk : k = w.k₁ := by
    have htried := w.triedEdges
    rw [hfirst, List.mapM_nil, gives_pure] at htried
    exact htried.2
  have hfollowed : (follow m.source index m.edge.1 m.edge.2).run k
      = (.ok (w.outcomes ++ (w.s₁, w.settled) :: w.outcomes'), w.k₂) := by
    have hgives := w.followed
    rw [hindex, ← hk] at hgives
    exact hgives
  have honly := looksUp_follow k m.source index t edge.1 edge.2 actor r h.thread h.acting hr hdata
  rw [← hhere] at honly
  have houtcome : (w.s₁, w.settled) ∈ w.outcomes ++ (w.s₁, w.settled) :: w.outcomes' :=
    List.mem_append_right _ List.mem_cons_self
  -- What the move found and what a step with this statement finds are the same, and that is a
  -- single state.
  rw [Except.ok.inj (congrArg Prod.fst (hfollowed.symm.trans honly))] at houtcome
  rcases Prod.mk.inj (List.mem_singleton.mp houtcome) with ⟨hs₁, hsettled⟩
  have hmoved := w.moved
  rw [hs₁, hindex] at hmoved
  unfold ControlState.setThread at hmoved
  rw [List.getElem?_set_self (List.getElem?_eq_some_iff.mp h.thread).1] at hmoved
  have hnone : w.t₁.operations = [] := by
    rw [← Option.some.inj hmoved]
    exact h.operations
  refine ⟨hindex, ?_⟩
  rw [w.operations, hsettled, if_neg Bool.false_ne_true, dataOperations, hnone, hhere]
  rfl

end Quiet

end Scheduler

end ActorCheck

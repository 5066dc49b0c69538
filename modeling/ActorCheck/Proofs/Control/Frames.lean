import ActorCheck.Proofs.Control.Rosters
import ActorCheck.Proofs.Data.Along

/-!
# Pending Calls

What the frames on the stack of a thread say. A frame names the place of a call and the place at
which it continues. Both are ends of one edge that calls a method of the actor, and the relation of
this method is the one in which the next call was made, or in which the thread stands if no call is
left. Below all calls lies the relation of the script. So a stack of calls leads from the script to
the place of the thread, and `App.Nested` goes down along it.

What a statement does to the stack is said once, by `App.Went`. A call puts a frame on it, a return
takes the innermost one off and goes to where it says, a message that reaches its own sender empties
it, and everything else leaves it alone.

## Main definitions

* `Actor.Offers`: A method that an actor declares itself.
* `App.Lies`: A place lies in a relation of an actor.
* `App.Joins`: An edge from one place to another one.
* `App.Calls`: A frame belongs to a call of a method.
* `App.Nested`: A stack of calls leads to a place.
* `App.Stacked`: A thread whose calls lead from its script to its place.
* `App.Went`: The calls of a thread after its statement was interpreted.

## Theorems

* `App.nested_of_extends`: Calls stay nested when the program grows.
* `App.nested_of_joins`: An edge does not lead out of what is called.
* `App.joins_of_leaving`: An edge that leaves the place of a thread.
* `Scheduler.went_of_gives_follow`: Every statement changes the stack in one of these ways.
-/

namespace ActorCheck

/-- The actor declares the method itself, and calling it is not the business of the system. -/
structure Actor.Offers (a : Actor) (method : Method) : Prop where
  declared : a.method method.name = .ok method
  noWait : method.name ≠ Builtin.waitSeconds
  noSignal : method.name ≠ Builtin.signalFailure
  noClock : method.name ≠ Builtin.micros
  ours : a.isExternal method.name = false

theorem Actor.name_of_method (a : Actor) (name : String) (method : Method)
    (h : a.method name = .ok method) : method.name = name := by
  unfold Actor.method at h
  split at h
  next found hfound =>
    cases h
    exact beq_iff_eq.mp (List.find?_some (p := fun m : Method => m.name == name) hfound)
  next => cases h

namespace App

/-- A place of an actor is a location of a relation. -/
structure Lies (app : App) (actor : Actor) (id : RelationId) (p : Place) : Prop where
  actor : p.actor = actor.name
  relation : p.relation = id
  location : ∃ r, app.relationOf id = .ok r ∧ p.location ∈ r.locations

/-- An edge with an operation leads from one place to another one in the same relation. -/
structure Joins (app : App) (p q : Place) (op : Operation) : Prop where
  within : q = { p with location := q.location }
  edge : ∃ r id, app.relationOf p.relation = .ok r ∧ (id, q.location) ∈ r.edgesFrom p.location
    ∧ app.operationOf id = .ok op

/-- A frame of an actor belongs to a call of a method. -/
structure Calls (app : App) (actor : Actor) (frame : Frame) (method : Method) : Prop where
  offered : actor.Offers method
  edge : ∃ op args result, app.Joins frame.callFrom frame.returnTo op
    ∧ op.statement = .call method.name args result

/-- A stack of calls leads from a relation to a place. Each call was made in the relation of the
    method that was called before, the first one in the relation that is named. -/
def Nested (app : App) (actor : Actor) (id : RelationId) : List Frame → Place → Prop
  | [], p => app.Lies actor id p
  | frame :: calls, p =>
    (∃ method, app.Calls actor frame method ∧ app.Lies actor method.relation p)
      ∧ app.Nested actor id calls frame.callFrom

/-- The thread of a script. Its calls lead from the relation of the script to its place. -/
structure Stacked (app : App) (entry : Actor × Script) (t : Thread) : Prop where
  isOf : t.IsOf entry
  nested : app.Nested entry.1 entry.2.relation t.calls t.place

section Growth

variable (a b : App) (h : a.Extends b) (hdrawn : a.RelationsDrawn) (actor : Actor)

include h hdrawn

theorem relationOf_of_extends (id : RelationId) (r : Relation) (hr : a.relationOf id = .ok r) :
    b.relationOf id = .ok r :=
  (ofModel_ok _ _).mpr (relation_of_extends a b h hdrawn id r ((ofModel_ok _ _).mp hr))

theorem lies_of_extends (id : RelationId) (p : Place) (hp : a.Lies actor id p) :
    b.Lies actor id p := by
  rcases hp with ⟨hactor, hrelation, r, hr, hlocation⟩
  exact ⟨hactor, hrelation, r, relationOf_of_extends a b h hdrawn id r hr, hlocation⟩

theorem begins_of_extends (entry : Actor × Script) (t : Thread) (ht : a.Begins entry t) :
    b.Begins entry t := by
  rcases ht with ⟨r, l, hr, hl, ht⟩
  exact ⟨r, l, relationOf_of_extends a b h hdrawn _ r hr, hl, ht⟩

variable (hoperations : a.OperationsDrawn)

include hoperations

theorem joins_of_extends (p q : Place) (op : Operation) (hjoins : a.Joins p q op) :
    b.Joins p q op := by
  rcases hjoins with ⟨hwithin, r, id, hr, hedge, hop⟩
  have hop' := operation_of_extends a b h hoperations id op ((ofModel_ok _ _).mp hop)
  exact ⟨hwithin, r, id, relationOf_of_extends a b h hdrawn _ r hr, hedge,
    (ofModel_ok _ _).mpr hop'⟩

theorem calls_of_extends (frame : Frame) (method : Method) (hf : a.Calls actor frame method) :
    b.Calls actor frame method := by
  rcases hf with ⟨hoffered, op, args, result, hjoins, hcall⟩
  exact ⟨hoffered, op, args, result, joins_of_extends a b h hdrawn hoperations _ _ op hjoins, hcall⟩

/-- Calls that are nested stay so when the program grows. -/
theorem nested_of_extends (id : RelationId) (calls : List Frame) (p : Place)
    (hn : a.Nested actor id calls p) : b.Nested actor id calls p := by
  -- From the innermost call outwards. The place is generalized, as further out it is the one from
  -- which the call was made.
  induction calls generalizing p with
  | nil => exact lies_of_extends a b h hdrawn actor id p hn
  | cons frame calls ih =>
      rcases hn with ⟨⟨method, hcalls, hp⟩, hrest⟩
      exact ⟨⟨method, calls_of_extends a b h hdrawn actor hoperations frame method hcalls,
        lies_of_extends a b h hdrawn actor method.relation p hp⟩, ih frame.callFrom hrest⟩

omit actor in
theorem stacked_of_extends (entry : Actor × Script) (t : Thread) (ht : a.Stacked entry t) :
    b.Stacked entry t :=
  ⟨ht.isOf, nested_of_extends a b h hdrawn entry.1 hoperations _ _ _ ht.nested⟩

end Growth

section Places

variable (app : App) (actor : Actor)

/-- Only where the place lies matters to the calls that lead to it. -/
theorem nested_of_lies (id : RelationId) (calls : List Frame) (p q : Place)
    (hq : ∀ id, app.Lies actor id p → app.Lies actor id q) (h : app.Nested actor id calls p) :
    app.Nested actor id calls q := by
  -- The place only matters to the innermost call, or to the script if there is none.
  cases calls with
  | nil => exact hq id h
  | cons frame calls =>
      rcases h with ⟨⟨method, hcalls, hp⟩, hrest⟩
      exact ⟨⟨method, hcalls, hq method.relation hp⟩, hrest⟩

variable (hfiled : app.Filed)

include hfiled

/-- An edge does not lead out of its relation. -/
theorem lies_of_joins (id : RelationId) (p q : Place) (op : Operation) (hjoins : app.Joins p q op)
    (h : app.Lies actor id p) : app.Lies actor id q := by
  rcases h with ⟨hactor, hrelation, _⟩
  rcases hjoins with ⟨hwithin, r, opId, hr, hedge, _⟩
  -- It is the relation of the place that has the edge, and in a well-formed one both ends are
  -- locations.
  rw [hrelation] at hr
  rw [hwithin]
  have hwell := (hfiled id r ((ofModel_ok _ _).mp hr)).2
  exact ⟨hactor, hrelation, r, hr,
    (r.toFlow.mem_locations_of_edge _ hwell ((Flow.mem_edgesFrom _ _ _ _).mp hedge)).2⟩

/-- What leads to a place also leads to where an edge goes from there. -/
theorem nested_of_joins (id : RelationId) (calls : List Frame) (p q : Place) (op : Operation)
    (hjoins : app.Joins p q op) (h : app.Nested actor id calls p) :
    app.Nested actor id calls q :=
  app.nested_of_lies actor id calls p q
    (fun id' => app.lies_of_joins actor hfiled id' p q op hjoins) h

/-- A method begins in its own relation. -/
theorem lies_of_entry (id : RelationId) (r : Relation) (l : LocationId)
    (hr : app.relationOf id = .ok r) (hl : l ∈ r.entries) :
    app.Lies actor id ⟨actor.name, r.id, l⟩ := by
  rcases hfiled id r ((ofModel_ok _ _).mp hr) with ⟨hid, hwell⟩
  exact ⟨rfl, hid, r, hr, r.toFlow.mem_locations_of_entry l hwell hl⟩

/-- A thread that begins is in the relation of its script. -/
theorem stacked_of_begins (entry : Actor × Script) (t : Thread) (h : app.Begins entry t) :
    app.Stacked entry t := by
  refine ⟨app.isOf_of_begins entry t h, ?_⟩
  rcases h with ⟨r, l, hr, hl, ht⟩
  rw [ht]
  exact app.lies_of_entry entry.1 hfiled _ r l hr (r.mem_entries_of_soleEntry l hl)

/-- A thread that starts again is in the relation of its script. -/
theorem lies_of_entryPlace (hd : app.Distinct) (entry : Actor × Script)
    (hentry : entry ∈ app.roster) (t : Thread) (ht : t.IsOf entry) (p : Place)
    (h : app.entryPlace t = .ok p) :
    app.Lies entry.1 entry.2.relation p := by
  unfold entryPlace at h
  rcases (except_bind_ok _ _ _).mp h with ⟨script, hscript, h⟩
  rw [app.scriptOf_of_isOf hd entry hentry t ht] at hscript
  cases hscript
  rcases (except_bind_ok _ _ _).mp h with ⟨r, hr, h⟩
  rcases (except_bind_ok _ _ _).mp h with ⟨l, hl, h⟩
  cases (except_pure_ok _ _).mp h
  rw [ht.actor]
  exact app.lies_of_entry entry.1 hfiled _ r l hr
    (r.mem_entries_of_soleEntry l ((ofModel_ok _ _).mp hl))

end Places

end App

/-- A call keeps its method when its variables are put in their places. -/
theorem Scoping.call_of_statement (scoping : Scoping) (s : Statement) (method : String)
    (args : List Expr) (result : Option Variable)
    (h : scoping.statement s = .ok (.call method args result)) :
    ∃ args' result', s = .call method args' result' := by
  -- Scoping gives every statement back as one of its own kind.
  cases s with
  | call name args' result' =>
      rcases (except_bind_ok _ _ _).mp h with ⟨placed, _, h⟩
      cases (except_pure_ok _ _).mp h
      exact ⟨args', result', rfl⟩
  | epsilon | declare _ | ret _ | beginAtomic | endAtomic | signal _ => cases h
  | assume _ | store _ _ | broadcast _ | broadcastAndWait _ | waitUntil _ | waitSecs _
  | evaluate _ =>
      rcases (except_bind_ok _ _ _).mp h with ⟨_, _, h⟩
      cases h

namespace App

/-- An edge that leaves the place of a thread joins it to another place. The operation of the
    relation is a call of the same method if the thread sees a call. -/
theorem joins_of_leaving {σ : Type} (app : App) (s : ControlState σ) (t : Thread)
    (edges : List (Operation × Place)) (h : app.leaving s t = .ok edges) (edge : Operation × Place)
    (hedge : edge ∈ edges) :
    ∃ op, app.Joins t.place edge.2 op
      ∧ ∀ method args result, edge.1.statement = .call method args result →
        ∃ args' result', op.statement = .call method args' result' := by
  unfold leaving at h
  rcases (except_bind_ok _ _ _).mp h with ⟨r, hr, h⟩
  rcases (except_bind_ok _ _ _).mp h with ⟨actor, _, h⟩
  rcases (except_bind_ok _ _ _).mp h with ⟨scope, _, h⟩
  rcases mem_of_forall₂_right _ _ _ ((except_mapM_ok _ _ _).mp h) edge hedge with
    ⟨⟨id, l⟩, hmem, hone⟩
  rcases (except_bind_ok _ _ _).mp hone with ⟨op, hop, hone⟩
  rcases (except_bind_ok _ _ _).mp hone with ⟨placed, hplaced, hone⟩
  cases (except_pure_ok _ _).mp hone
  refine ⟨op, ⟨rfl, r, id, hr, hmem, hop⟩, fun method args result hcall => ?_⟩
  -- What the thread sees is the operation with its variables in place.
  rcases (except_bind_ok _ _ _).mp ((ofScope_ok _ _).mp hplaced) with ⟨statement, hstatement, heq⟩
  cases (except_pure_ok _ _).mp heq
  have hcall' : statement = .call method args result := hcall
  rw [hcall'] at hstatement
  exact Scoping.call_of_statement _ op.statement method args result hstatement

/-- The calls and the place of a thread after its statement was interpreted. It has taken an edge to
    a place before. -/
inductive Went (app : App) (actor : Actor) (target : Place) (t : Thread) :
    Statement → List Frame → Place → Prop where
  | along (statement : Statement) (stays : ∀ result, statement ≠ .ret result) :
      Went app actor target t statement t.calls target
  | entered (method : Method) (args : List Expr) (result : Option Variable) (callee : Relation)
      (entry : LocationId) (offered : actor.Offers method)
      (found : app.relationOf method.relation = .ok callee) (begins : entry ∈ callee.entries) :
      Went app actor target t (.call method.name args result) (⟨t.place, target⟩ :: t.calls)
        ⟨actor.name, callee.id, entry⟩
  | returned (result : Option Variable) (frame : Frame) (calls : List Frame)
      (pending : t.calls = frame :: calls) :
      Went app actor target t (.ret result) calls frame.returnTo
  | restarted (statement : Statement) (stays : ∀ result, statement ≠ .ret result) (entry : Place)
      (start : app.entryPlace t = .ok entry) : Went app actor target t statement [] entry

theorem went_of_extends (a b : App) (h : a.Extends b) (hdrawn : a.RelationsDrawn) (actor : Actor)
    (target : Place) (t : Thread) (statement : Statement) (calls : List Frame) (place : Place)
    (ht : a.Went actor target t statement calls place) :
    b.Went actor target t statement calls place := by
  cases ht with
  | along _ stays => exact .along statement stays
  | entered method args result callee entry offered found begins =>
      exact .entered method args result callee entry offered
        (relationOf_of_extends a b h hdrawn _ callee found) begins
  | returned result frame _ pending => exact .returned result frame calls pending
  | restarted _ stays entry start =>
      exact .restarted statement stays place (entryPlace_of_extends a b h hdrawn t place start)

end App

namespace Scheduler

section Statements

variable {σ : Type}

/-- A call of a method puts a frame on the stack and enters the relation of the method. -/
theorem entry_of_gives_enterMethod (s : ControlState σ) (index : Nat) (t : Thread) (actor : Actor)
    (name : String) (args : List Expr) (source target : Place) (k k' : Scheduler)
    (outcomes : List (ControlState.Outcome σ))
    (h : Gives (enterMethod s index t actor name args source target) k outcomes k')
    (o : ControlState.Outcome σ) (ho : o ∈ outcomes) :
    ∃ method callee, ∃ entry ∈ callee.entries, ∃ u : Thread, actor.method name = .ok method
      ∧ k.app.relationOf method.relation = .ok callee ∧ o.1 = s.setThread index u
      ∧ u.calls = ⟨source, target⟩ :: t.calls ∧ u.place = ⟨actor.name, callee.id, entry⟩ := by
  unfold enterMethod at h
  rw [gives_program_bind] at h
  rcases (gives_lookUp_bind _ _ _ _ _).mp h with ⟨method, hmethod, h⟩
  -- With a wrong number of arguments the method is not entered.
  split at h
  · rcases (gives_bind _ _ _ _ _).mp h with ⟨_, _, hthrow, _⟩
    exact absurd hthrow (not_gives_throw _ _ _ _)
  · rcases (gives_lookUp_bind _ _ _ _ _).mp h with ⟨callee, hcallee, h⟩
    rcases (gives_lookUp_bind _ _ _ _ _).mp h with ⟨scope, _, h⟩
    rcases (gives_bind _ _ _ _ _).mp h with ⟨ops, k₁, _, h⟩
    rcases (gives_pure _ _ _ _).mp h with ⟨rfl, rfl⟩
    rcases List.mem_map.mp ho with ⟨entry, hentry, rfl⟩
    exact ⟨method, callee, entry, Std.ExtTreeSet.mem_toList.mp hentry, _,
      (ofModel_ok _ _).mp hmethod, hcallee, rfl, rfl, rfl⟩

/-- A return takes the innermost frame off the stack and goes to where it says. -/
theorem frame_of_gives_interpret (s : ControlState σ) (index : Nat) (t : Thread)
    (result : Option Variable) (source target : Place) (k k' : Scheduler)
    (outcomes : List (ControlState.Outcome σ))
    (h : Gives (interpret s index t (.ret result) source target) k outcomes k')
    (o : ControlState.Outcome σ) (ho : o ∈ outcomes) :
    ∃ (frame : Frame) (u : Thread), t.calls = frame :: u.calls ∧ u.place = frame.returnTo
      ∧ o.1 = s.setThread index u := by
  unfold interpret at h
  rw [gives_program_bind] at h
  rcases (gives_lookUp_bind _ _ _ _ _).mp h with ⟨actor, _, h⟩
  dsimp only at h
  unfold leaveMethod at h
  rw [gives_program_bind] at h
  -- The value is bound to the variable of the caller, or there is no value and no variable.
  -- Anything else is refused.
  split at h
  · exact absurd h (not_gives_throw _ _ _ _)
  next frame calls hcalls =>
    rcases (gives_lookUp_bind _ _ _ _ _).mp h with ⟨caller, _, h⟩
    rcases (gives_lookUp_bind _ _ _ _ _).mp h with ⟨targets, _, h⟩
    split at h
    · rcases (gives_lookUp_bind _ _ _ _ _).mp h with ⟨scope, _, h⟩
      rcases (gives_bind _ _ _ _ _).mp h with ⟨ops, k₁, _, h⟩
      rcases (gives_pure _ _ _ _).mp h with ⟨rfl, rfl⟩
      rw [List.mem_singleton.mp ho]
      exact ⟨frame, _, hcalls, rfl, rfl⟩
    · exact absurd h (not_gives_throw _ _ _ _)

/-- A timed wait leaves the calls alone. -/
theorem calls_of_gives_beginWait (s : ControlState σ) (index : Nat) (t : Thread)
    (args : List Expr) (k k' : Scheduler) (outcomes : List (ControlState.Outcome σ))
    (h : Gives (beginWait s index t args) k outcomes k')
    (o : ControlState.Outcome σ) (ho : o ∈ outcomes) :
    ∃ u : Thread, o.1.threads = s.threads.set index u ∧ u.calls = t.calls ∧ u.place = t.place := by
  unfold beginWait at h
  split at h
  · rw [gives_program_bind] at h
    rcases (gives_lookUp_bind _ _ _ _ _).mp h with ⟨scope, _, h⟩
    rcases (gives_bind _ _ _ _ _).mp h with ⟨ops, k₃, _, h⟩
    rcases (gives_bind _ _ _ _ _).mp h with ⟨script, k₄, _, h⟩
    rcases (gives_bind _ _ _ _ _).mp h with ⟨_, k₅, _, h⟩
    rcases (gives_bind _ _ _ _ _).mp h with ⟨checker, k₆, _, h⟩
    rcases (gives_pure _ _ _ _).mp h with ⟨rfl, rfl⟩
    rw [List.mem_singleton.mp ho]
    exact ⟨_, rfl, rfl, rfl⟩
  · exact absurd h (not_gives_throw _ _ _ _)

/-- What a statement that neither calls nor returns does to the calls of its thread. -/
theorem went_of_effect (before after : App) (actor : Actor) (s s' : ControlState σ) (index : Nat)
    (t u : Thread) (loops : List Place) (target : Place) (statement : Statement)
    (h : Effect before after s index { t with loops := loops, place := target } statement s')
    (ht : s.threads[index]? = some { t with loops := loops, place := target })
    (stays : ∀ result, statement ≠ .ret result)
    (hnoCall : ∀ method args result, statement ≠ .call method args result)
    (hu : s'.threads[index]? = some u) :
    before.Went actor target t statement u.calls u.place := by
  -- Most statements change the thread in ways that concern neither its calls nor its place.
  have hset : ∀ v : Thread, (s.threads.set index v)[index]? = some u → v.calls = t.calls →
      v.place = target → before.Went actor target t statement u.calls u.place := by
    intro v hw hcalls hplace
    rw [List.getElem?_set_self (List.getElem?_eq_some_iff.mp ht).1] at hw
    cases hw
    rw [hcalls, hplace]
    exact .along statement stays
  -- A thread may hear its own message and starts again then.
  have hsent : ∀ m threads receivers w, before.broadcast m s.threads = .ok (threads, receivers) →
      threads[index]? = some w → before.Went actor target t statement w.calls w.place := by
    intro m threads receivers w hbroadcast hw
    have hheard := related_of_forall₂ _ _ _
      (before.heard_of_broadcast m _ threads receivers hbroadcast).1 index _ w ht hw
    cases hheard with
    | kept => exact .along statement stays
    | enabled => exact .along statement stays
    | restarted _ _ entry start =>
        exact .restarted statement stays entry
          ((before.entryPlace_of_same t _ ⟨rfl, rfl, rfl⟩).symm.trans start)
  -- Calls and returns are excluded, so of the remaining statements only messages can move the
  -- thread.
  cases h with
  | unchanged =>
      cases ht.symm.trans hu
      exact .along statement stays
  | signalled properties => exact hset _ hu rfl rfl
  | opened => exact hset _ hu rfl rfl
  | closed inside => exact hset _ hu rfl rfl
  | entered method args result w _ _ _ => exact absurd rfl (hnoCall method args result)
  | returned result w _ _ _ => exact absurd rfl (stays result)
  | sent m threads receivers broadcast => exact hsent m threads receivers u broadcast hu
  | unheard m threads broadcast => exact hsent m threads ∅ u broadcast hu
  | asked m threads receivers sender broadcast others heard known =>
      have hsender := hsent m threads receivers sender broadcast known
      have hwaits : ∀ v : Thread, (threads.set index v)[index]? = some v := fun v =>
        List.getElem?_set_self (List.getElem?_eq_some_iff.mp known).1
      cases (hwaits _).symm.trans hu
      exact hsender
  | paused args result checker ops new below ready => exact absurd rfl (hnoCall _ args result)
  | resolved x e name =>
      cases ht.symm.trans hu
      exact .along _ stays

/-- What a call does to the calls of its thread, if it is one of a method of the actor. -/
theorem went_of_gives_interpretCall (s : ControlState σ) (index : Nat) (t u : Thread)
    (loops : List Place) (target : Place) (actor : Actor) (name : String) (args : List Expr)
    (result : Option Variable) (k k' : Scheduler) (outcomes : List (ControlState.Outcome σ))
    (ht : s.threads[index]? = some { t with loops := loops, place := target })
    (h : Gives (interpretCall s index { t with loops := loops, place := target } actor name args
      result t.place target) k outcomes k')
    (o : ControlState.Outcome σ) (ho : o ∈ outcomes) (hu : o.1.threads[index]? = some u) :
    k.app.Went actor target t (.call name args result) u.calls u.place := by
  have hindex := (List.getElem?_eq_some_iff.mp ht).1
  unfold interpretCall at h
  -- Three kinds of calls leave the stack alone: timed waits, which only wait, and those that the
  -- system provides, which the data analysis deals with.
  split at h
  next =>
    rcases calls_of_gives_beginWait s index _ args k k' outcomes h o ho with
      ⟨v, hv, hcalls, hplace⟩
    rw [hv, List.getElem?_set_self hindex] at hu
    cases hu
    rw [hcalls, hplace]
    exact .along _ nofun
  next hnoWait =>
    split at h
    · exact absurd h (not_gives_throw _ _ _ _)
    next hnoSignal =>
      split at h
      · rcases (gives_pure _ _ _ _).mp h with ⟨rfl, rfl⟩
        rw [List.mem_singleton.mp ho, ht] at hu
        cases hu
        exact .along _ nofun
      next hours =>
        rcases entry_of_gives_enterMethod s index _ actor name args t.place target k k' outcomes h o
          ho with ⟨method, callee, entry, hentry, v, hmethod, hcallee, hv, hcalls, hplace⟩
        have hthreads : o.1.threads[index]? = some v := by
          rw [hv]
          exact List.getElem?_set_self hindex
        cases hthreads.symm.trans hu
        -- What is left is a method of the actor itself.
        rcases not_or.mp hours with ⟨hnoClock, hours⟩
        rw [hcalls, hplace]
        cases actor.name_of_method name method hmethod
        exact .entered method args result callee entry
          ⟨hmethod, hnoWait, hnoSignal, hnoClock, Bool.eq_false_iff.mpr hours⟩ hcallee hentry

/-- The calls and the place of a thread after it has taken an edge. -/
theorem went_of_gives_follow (s : ControlState σ) (index : Nat) (op : Operation) (target : Place)
    (t u : Thread) (actor : Actor) (k k' : Scheduler) (outcomes : List (ControlState.Outcome σ))
    (ht : s.threads[index]? = some t) (hactor : k.app.actorNamed t.actor = .ok actor)
    (h : Gives (follow s index op target) k outcomes k') (o : ControlState.Outcome σ)
    (ho : o ∈ outcomes) (hu : o.1.threads[index]? = some u) :
    k.app.Went actor target t op.statement u.calls u.place := by
  have hindex := (List.getElem?_eq_some_iff.mp ht).1
  rcases interpreted_of_gives_follow s index op target t k k' outcomes ht h with ⟨loops, h⟩
  have hmoved : (s.setThread index { t with loops := loops, place := target }).threads[index]?
      = some { t with loops := loops, place := target } := List.getElem?_set_self hindex
  -- The effect of a call or a return does not say what becomes of the stack.
  by_cases hcall : ∃ method args result, op.statement = .call method args result
  · rcases hcall with ⟨method, args, result, hcall⟩
    rw [hcall] at h ⊢
    rcases called_of_gives_interpret _ index _ method args result t.place target k k' outcomes h
      with ⟨actor', hactor', h⟩
    rw [hactor] at hactor'
    cases hactor'
    exact went_of_gives_interpretCall _ index t u loops target actor method args result k k'
      outcomes hmoved h o ho hu
  by_cases hreturn : ∃ result, op.statement = .ret result
  · rcases hreturn with ⟨result, hreturn⟩
    rw [hreturn] at h ⊢
    rcases frame_of_gives_interpret _ index _ result t.place target k k' outcomes h o ho with
      ⟨frame, v, hcalls, hplace, hv⟩
    have hthreads : o.1.threads[index]? = some v := by
      rw [hv]
      exact List.getElem?_set_self (List.getElem?_eq_some_iff.mp hmoved).1
    cases hthreads.symm.trans hu
    rw [hplace]
    exact .returned result frame u.calls hcalls
  · exact went_of_effect k.app k'.app actor _ o.1 index t u loops target op.statement
      (effect_of_gives_interpret _ index _ op.statement t.place target k k' outcomes h o ho) hmoved
      (fun result heq => hreturn ⟨result, heq⟩)
      (fun method args result heq => hcall ⟨method, args, result, heq⟩) hu

end Statements

end Scheduler

end ActorCheck

import ActorCheck.Proofs.Control.Clock

/-!
# Passing Arguments

A call of a method hands the data analysis two operations for every parameter: the variable of
the parameter is declared, and then it is assigned the argument. The operations of all parameters
run one after the other on the same store. So an argument is not evaluated in the store of the
caller, but in the one in which the earlier parameters have their values already and its own
parameter has just been declared, which sets it to the initial value of its type.

What a parameter gets is therefore the value that the caller sees if the argument reads neither
its own parameter nor an earlier one. A method that calls itself lives in the scope of its caller,
and so does everybody who shares the variables of the actor. Their arguments may well read the
parameters, and then other values are passed.

## Main definitions

* `parameterTargets`: The variables that hold the parameters of a method.
* `Scheduler.OwnCall`: The edge of a move calls a method of the actor.

## Theorems

* `Scheduler.entered_of_gives_follow`: What a call leaves to the data analysis.
* `Scheduler.bound_of_passage`: The store after a call.
* `Session.passes_arguments`: What a parameter gets.
* `Session.own_parameter_reset`: A method that counts down does not get what its caller sees.
-/

namespace ActorCheck

/-- The variables that hold the parameters of a method of an actor, which runs in a relation. -/
def parameterTargets (actor : Actor) (method : Method) (callee : Relation) : List Variable :=
  method.parameters.map (Scoping.new actor [actor.name, callee.name]).target

namespace Scheduler

/-- Passing arguments is a declaration and an assignment for every parameter. -/
theorem passing_eq_binding (actor : Actor) (scope : List String) (method : Method)
    (callee : Relation) (args : List Expr) :
    passing { Scoping.new actor scope with writeScope := [actor.name, callee.name] }
        method.parameters args
      = Explicit.binding ((parameterTargets actor method callee).zip args) := by
  unfold passing Explicit.binding parameterTargets
  rw [List.zip_map_left, List.flatMap_map]
  rfl

/-- The edge of a move calls a method that the actor declares itself. -/
structure OwnCall (app : App) (actor : Actor) (edge : Operation × Place) (method : Method)
    (callee : Relation) (args : List Expr) : Prop where
  calls : ∃ result, edge.1.statement = .call method.name args result
  declared : actor.method method.name = .ok method
  runs : app.relation method.relation = .ok callee
  noWait : method.name ≠ Builtin.waitSeconds
  noClock : method.name ≠ Builtin.micros
  ours : actor.isExternal method.name = false

section Statements

variable {σ : Type}

/-- What a call leaves to the data analysis: operations that pass the arguments. -/
theorem entered_of_gives_enterMethod (s : ControlState σ) (index : Nat) (t : Thread)
    (actor : Actor) (method : Method) (callee : Relation) (args : List Expr)
    (source target : Place) (k k' : Scheduler) (outcomes : List (ControlState.Outcome σ))
    (hk : k.Sound) (hmethod : actor.method method.name = .ok method)
    (hcallee : k.app.relation method.relation = .ok callee)
    (h : Gives (enterMethod s index t actor method.name args source target) k outcomes k') :
    method.parameters.length = args.length
      ∧ ∃ ops : List Operation,
        ops.map Operation.statement
            = Explicit.binding ((parameterTargets actor method callee).zip args)
          ∧ (∀ op ∈ ops, op.id ≠ epsilonId)
          ∧ ∀ o ∈ outcomes, o.2 = ops.isEmpty ∧ ∃ u : Thread, u.operations = ops
            ∧ o.1 = s.setThread index u := by
  unfold enterMethod at h
  rw [gives_program_bind] at h
  rcases (gives_lookUp_bind _ _ _ _ _).mp h with ⟨method', hmethod', h⟩
  rw [ofModel_ok, hmethod] at hmethod'
  cases hmethod'
  -- With a wrong number of arguments the call is refused, so the numbers agree.
  split at h
  · rcases (gives_bind _ _ _ _ _).mp h with ⟨_, _, hthrow, _⟩
    exact absurd hthrow (not_gives_throw _ _ _ _)
  next hlength =>
    rcases (gives_lookUp_bind _ _ _ _ _).mp h with ⟨callee', hcallee', h⟩
    rw [App.relationOf, ofModel_ok, hcallee] at hcallee'
    cases hcallee'
    rcases (gives_lookUp_bind _ _ _ _ _).mp h with ⟨scope, _, h⟩
    rcases (gives_bind _ _ _ _ _).mp h with ⟨ops, k₁, hops, h⟩
    rcases (gives_pure _ _ _ _).mp h with ⟨rfl, rfl⟩
    rcases operations_of_gives_freshOperations _ k k₁ ops hk hops with ⟨hstatements, hids⟩
    rw [passing_eq_binding] at hstatements
    refine ⟨not_not.mp hlength, ops, hstatements, hids, fun o ho => ?_⟩
    rcases List.mem_map.mp ho with ⟨entry, _, rfl⟩
    exact ⟨rfl, _, rfl, rfl⟩

/-- The same for taking an edge with a call. -/
theorem entered_of_gives_follow (s : ControlState σ) (index : Nat) (edge : Operation × Place)
    (t : Thread) (actor : Actor) (method : Method) (callee : Relation) (args : List Expr)
    (k k' : Scheduler) (outcomes : List (ControlState.Outcome σ)) (hk : k.Sound)
    (ht : s.threads[index]? = some t) (hactor : k.app.actorNamed t.actor = .ok actor)
    (hcall : OwnCall k.app actor edge method callee args)
    (h : Gives (follow s index edge.1 edge.2) k outcomes k') :
    method.parameters.length = args.length
      ∧ ∃ ops : List Operation,
        ops.map Operation.statement
            = Explicit.binding ((parameterTargets actor method callee).zip args)
          ∧ (∀ op ∈ ops, op.id ≠ epsilonId)
          ∧ ∀ o ∈ outcomes, o.2 = ops.isEmpty ∧ o.1.data = s.data
            ∧ ∃ u : Thread, u.operations = ops ∧ o.1.threads[index]? = some u := by
  rcases interpreted_of_gives_follow s index _ _ t k k' outcomes ht h with ⟨loops, h⟩
  rcases hcall.calls with ⟨result, hop⟩
  rw [hop] at h
  rcases called_of_gives_interpret _ index _ _ args result t.place edge.2 k k' outcomes h with
    ⟨actor', hactor', h⟩
  rw [hactor] at hactor'
  cases hactor'
  -- The method is no timed wait and none of those that the system provides.
  unfold interpretCall at h
  rw [if_neg hcall.noWait] at h
  split at h
  · exact absurd h (not_gives_throw _ _ _ _)
  · have hours : ¬ (method.name = Builtin.micros ∨ actor.isExternal method.name = true) := by
      rw [hcall.ours]
      exact not_or.mpr ⟨hcall.noClock, Bool.false_ne_true⟩
    rw [if_neg hours] at h
    rcases entered_of_gives_enterMethod _ index _ actor method callee args t.place edge.2 k k'
      outcomes hk hcall.declared hcall.runs h with ⟨hlength, ops, hstatements, hids, hall⟩
    refine ⟨hlength, ops, hstatements, hids, fun o ho => ?_⟩
    rcases hall o ho with ⟨hmark, u, hu, hstate⟩
    have hindex : index < s.threads.length := (List.getElem?_eq_some_iff.mp ht).1
    refine ⟨hmark, by rw [hstate]; rfl, u, hu, ?_⟩
    rw [hstate]
    refine List.getElem?_set_self ?_
    unfold ControlState.setThread
    rw [List.length_set]
    exact hindex

end Statements

/-- The store after a call is the one in which all arguments were passed. -/
theorem bound_of_passage (c : Control Store) (hc : c.analysis = .explicit) (k k' : Scheduler)
    (m : Move Store) (w : Passage c k k' m) (hk : k.Sound) (hw : Middle w) (method : Method)
    (callee : Relation) (args : List Expr)
    (hcall : OwnCall k.app w.actor m.edge method callee args) :
    method.parameters.length = args.length
      ∧ Explicit.bindAll m.source.data ((parameterTargets w.actor method callee).zip args)
        = .ok w.data := by
  -- The edges that were tried before have added to the program only.
  have hactor : w.k₁.app.actorNamed w.t.actor = .ok w.actor :=
    (App.actorNamed_of_extends _ _ hw.beginning _).trans w.acting
  have hcall' : OwnCall w.k₁.app w.actor m.edge method callee args :=
    { hcall with
      runs := App.relation_of_extends _ _ hw.beginning hk.wellMade.relations _ _ hcall.runs }
  rcases entered_of_gives_follow m.source m.index m.edge w.t w.actor method callee args w.k₁ w.k₂
    _ hw.soundFirst w.thread hactor hcall' w.followed with ⟨hlength, ops, hstatements, hids, hall⟩
  rcases hall (w.s₁, w.settled) (List.mem_append_right _ List.mem_cons_self) with
    ⟨hmark, hdata, u, hu, hthread⟩
  have hmoved := w.moved
  rw [hthread] at hmoved
  cases hmoved
  refine ⟨hlength, ?_⟩
  dsimp only at hmark hdata
  rcases data_of_passage c k k' m w with
    ⟨hsettled, _, hsame⟩ | ⟨hsettled, hoperations, found, hfound, hmem⟩
  -- A method without parameters leaves the store as it is.
  · rw [hmark] at hsettled
    rw [List.isEmpty_iff.mp hsettled] at hstatements
    cases hpairs : (parameterTargets w.actor method callee).zip args with
    | nil =>
        rw [hsame, hdata]
        rfl
    | cons pair rest =>
        rw [hpairs] at hstatements
        cases hstatements
  -- The thread has operations to perform, so the analysis performs these and not the statement
  -- itself.
  · have hops : dataOperations w.t₁ m.edge.1 = ops := by
      unfold dataOperations
      rw [hu, ← hmark, hsettled]
      rfl
    rw [hoperations, hops, hdata, hc] at hfound
    rcases Explicit.run_binding m.source.data _ ops _ found hstatements hids hfound with
      ⟨t, ht, rfl⟩
    rw [List.mem_singleton.mp hmem]
    exact ht

end Scheduler

/-- A method that calls itself with a smaller number. A script calls it first. -/
def countdown : App :=
  (AppDraft.build
    { name := "countdown"
      relations := [
        .sequence [.call "count" [.num 3] none],
        .sequence [.call "count" [.arith .sub (.var ⟨"n", .number, .unqualified⟩) (.num 1)] none]]
      actors := [⟨"a", .program, none, [], [],
        [⟨"count", [⟨"n", .number, .unqualified⟩], none, 1⟩], [(.bootstrap, 0)]⟩] }).run
    (App.new "countdown") |>.2

/-- The countdown after a number of steps. -/
def countdownSession : Nat → Session Store
  | 0 => (Session.new countdown).start ∅
  | n + 1 => (countdownSession n).expandLast .concrete

theorem explored_countdownSession (n : Nat) :
    Session.Explored .concrete countdown (countdownSession n) := by
  induction n with
  | zero => exact .start _ ∅ .new
  | succ n ih => exact Session.explored_of_expandLast _ _ _ ih

/-- The variable that counts. -/
def counter : Variable := .within "n" .number ["a", "R10"]

/-- A step of the countdown, which calls the method with some argument. -/
theorem ownCall_countdown (n : Nat) (e : Expr)
    (hnew : (countdownSession n).found.length < (countdownSession (n + 1)).found.length)
    (hcalls : ∀ s ∈ (countdownSession n).found.getLast?, s.running = [0]
      ∧ ∃ t ∈ s.threads[0]?,
        ∃ actor ∈ ((countdownSession n).scheduler.app.actorNamed t.actor).toOption,
        ∃ method ∈ (actor.method "count").toOption,
        ∃ callee ∈ ((countdownSession n).scheduler.app.relation method.relation).toOption,
        ∃ edges ∈ ((countdownSession n).scheduler.app.leaving s t).toOption,
          method.name = "count" ∧ actor.isExternal "count" = false
            ∧ parameterTargets actor method callee = [counter]
            ∧ ∀ edge ∈ edges, edge.1.statement = .call "count" [e] none) :
    ∃ (m : Move Store) (k : Scheduler)
      (w : Scheduler.Passage .concrete (countdownSession n).scheduler k m) (method : Method)
      (callee : Relation), m.source ∈ (countdownSession n).found.getLast?
        ∧ m.target ∈ (countdownSession (n + 1)).found.getLast?
        ∧ Scheduler.OwnCall (countdownSession n).scheduler.app w.actor m.edge method callee [e]
        ∧ parameterTargets w.actor method callee = [counter] := by
  rcases Session.passage_of_expandLast .concrete (countdownSession n) hnew with
    ⟨m, k, hs, hs', _, ⟨w⟩⟩
  rcases hcalls m.source hs with ⟨hrunning, t, ht, actor, hactor, method, hmethod, callee, hcallee,
    edges, hedges, hname, hours, htarget, hcall⟩
  -- All that the move depends on is computed: who runs, who acts, and which edges leave.
  rcases Scheduler.edge_of_passage _ _ _ m w 0 t edges hrunning ht ((mem_toOption _ _).mp hedges)
    with ⟨_, rfl, hedge⟩
  have hacting := w.acting
  rw [(mem_toOption _ _).mp hactor] at hacting
  cases hacting
  refine ⟨m, k, w, method, callee, hs, hs', ⟨⟨none, ?_⟩, ?_, ?_, ?_, ?_, ?_⟩, htarget⟩
  · rw [hname]
    exact hcall m.edge hedge
  · rw [hname]
    exact (mem_toOption _ _).mp hmethod
  · exact (mem_toOption _ _).mp hcallee
  · rw [hname]
    decide
  · rw [hname]
    decide
  · rw [hname]
    exact hours

namespace Session

/-- In every move that calls a method of the actor, a parameter gets the value of its argument in
    the store in which the earlier parameters have their values and its own one is declared. It is
    the value that the caller sees if the argument reads none of these parameters. The clock is no
    parameter here, since it may be moved before the step is over. -/
theorem passes_arguments (c : Control Store) (hc : c.analysis = .explicit) (app : App)
    (happ : app.WellMade) (x : Session Store) (hx : Explored c app x) (m : Move Store)
    (hm : m.source ∈ x.found) (k : Scheduler) (w : Scheduler.Passage c x.scheduler k m)
    (method : Method) (callee : Relation) (args : List Expr)
    (hcall : Scheduler.OwnCall x.scheduler.app w.actor m.edge method callee args)
    (hdistinct : ((parameterTargets w.actor method callee).map Variable.cellName).Nodup) :
    method.parameters.length = args.length
      ∧ ∀ before v e after,
        (parameterTargets w.actor method callee).zip args = before ++ (v, e) :: after →
        v.cellName ≠ Builtin.clock.cellName →
        ∃ u value, Explicit.bindAll m.source.data before = .ok u
          ∧ eval (Explicit.declare u v) e = .ok value
          ∧ m.target.data[v.cellName]? = some value
          ∧ ((∀ cell ∈ e.cells, ∀ pair ∈ before ++ [(v, e)], pair.1.cellName ≠ cell) →
            eval m.source.data e = .ok value) := by
  rcases sound_of_explored c hc app happ x hx with ⟨hsound, halarmed⟩
  have hw := Scheduler.middle_of_passage c hc _ _ m w hsound
    (steady_of_explored c app happ.relations x hx m.source hm) (halarmed m.source hm)
  rcases Scheduler.bound_of_passage c hc _ _ m w hsound hw method callee args hcall with
    ⟨hlength, hbound⟩
  refine ⟨hlength, fun before v e after hsplit hclock => ?_⟩
  -- The parameter is set where its turn comes, and the later ones do not touch it.
  rw [hsplit] at hbound
  -- The later parameters are kept in other cells than `v`.
  have hafter : ∀ pair ∈ after, pair.1.cellName ≠ v.cellName := by
    have hfirst : (before ++ (v, e) :: after).map (fun pair => pair.1.cellName)
        = ((parameterTargets w.actor method callee).map Variable.cellName) := by
      rw [← hsplit]
      change ((parameterTargets w.actor method callee).zip args).map (Variable.cellName ∘ Prod.fst)
        = _
      rw [← List.map_map, List.map_fst_zip]
      unfold parameterTargets
      rw [List.length_map, hlength]
    rw [← hfirst, List.map_append, List.map_cons] at hdistinct
    have hnot := (List.nodup_cons.mp (List.nodup_append.mp hdistinct).2.1).1
    intro pair hpair heq
    exact hnot (List.mem_map.mpr ⟨pair, hpair, heq⟩)
  rcases Explicit.value_of_bindAll _ _ before after v e hbound hafter with
    ⟨u, value, hu, hvalue, ht⟩
  refine ⟨u, value, hu, hvalue, ?_, fun hreads => ?_⟩
  · rw [(Scheduler.alarmed_of_middle c hc _ _ m w hw).2 _ hclock]
    exact ht
  -- An argument that reads no parameter does not see that others were passed before.
  · rw [← hvalue]
    refine eval_congr _ _ e fun cell hcell => ?_
    have hpairs := List.forall_mem_append.mp (hreads cell hcell)
    rw [Explicit.getElem?_declare_ne u v cell (hpairs.2 _ (List.mem_singleton_self _))]
    exact (Explicit.bindAll_frame _ u before hu cell hpairs.1).symm

/-- The first call of the countdown passes a number. -/
theorem passes_arguments_countdown : ∃ m : Move Store,
    m.source ∈ (countdownSession 0).found ∧ m.target.data[counter.cellName]? = some (.int 3) := by
  rcases ownCall_countdown 0 (.num 3) (by decide +kernel) (by decide +kernel) with
    ⟨m, k, w, method, callee, hsource, _, hcall, htargets⟩
  have hfound := List.mem_of_getLast? hsource
  have hpasses := passes_arguments .concrete rfl countdown (App.wellMade_of_draft _ _) _
    (explored_countdownSession 0) m hfound k w method callee [.num 3] hcall
    (by rw [htargets]; exact List.nodup_singleton _)
  rw [htargets] at hpasses
  rcases hpasses.2 [] counter (.num 3) [] rfl (by decide) with ⟨u, value, hu, hvalue, htarget, _⟩
  cases hvalue
  exact ⟨m, hfound, htarget⟩

/-- A parameter need not get the value that its argument has in the store of the caller. The
    second call of the countdown passes one less than its own parameter, which was declared. -/
theorem own_parameter_reset : ¬ ∀ (c : Control Store) (app : App) (x : Session Store)
    (m : Move Store) (k : Scheduler) (w : Scheduler.Passage c x.scheduler k m) (method : Method)
    (callee : Relation) (args : List Expr),
    c.analysis = .explicit → app.WellMade → Explored c app x → m.source ∈ x.found →
      Scheduler.OwnCall x.scheduler.app w.actor m.edge method callee args →
      ((parameterTargets w.actor method callee).map Variable.cellName).Nodup →
      ∀ v e value, (v, e) ∈ (parameterTargets w.actor method callee).zip args →
        v.cellName ≠ Builtin.clock.cellName → eval m.source.data e = .ok value →
          m.target.data[v.cellName]? = some value := by
  intro h
  rcases ownCall_countdown 1 (.arith .sub (.var counter) (.num 1)) (by decide +kernel)
    (by decide +kernel) with ⟨m, k, w, method, callee, hsource, htarget, hcall, htargets⟩
  have hbefore : ∀ s ∈ (countdownSession 1).found.getLast?,
      eval s.data (.arith .sub (.var counter) (.num 1)) = .ok (.int 2) := by
    decide +kernel
  have hafter : ∀ s ∈ (countdownSession 2).found.getLast?,
      s.data[counter.cellName]? = some (.int (-1)) := by
    decide +kernel
  have hpassed := h .concrete countdown _ m k w method callee _ rfl (App.wellMade_of_draft _ _)
    (explored_countdownSession 1) (List.mem_of_getLast? hsource) hcall
    (by rw [htargets]; exact List.nodup_singleton _) counter _ (.int 2)
    (by rw [htargets]; exact List.mem_singleton_self _) (by decide) (hbefore _ hsource)
  rw [hafter _ htarget] at hpassed
  exact absurd hpassed (by decide)

end Session

end ActorCheck

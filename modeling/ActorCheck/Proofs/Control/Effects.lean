import ActorCheck.Control.Interpret
import ActorCheck.Proofs.Control.Changes
import ActorCheck.Proofs.Control.Growth

/-!
# What Statements Do

The effect of a statement on the threads, said once. `Effect` has a case for each way
in which the interpretation of a statement can change a state whose thread at some index
runs and has moved along its edge already. A case names what it takes from the program:
the threads after a broadcast are those the broadcast found, and a condition thread has a
number that was drawn by the statement itself.

An invariant of the interpretation is then shown case by case, from the effect alone,
and no proof has to open the interpretation again.

## Main definitions

* `Scheduler.Effect`: One way in which a statement can change a state.
* `Scheduler.Executed`: What has become of the thread that executes a statement.

## Theorems

* `Scheduler.effect_of_gives_interpret`: Every outcome of a statement is an effect of it.
* `Scheduler.executed_of_effect`: The thread that executes a statement.
* `Scheduler.interpreted_of_gives_follow`: Taking an edge interprets its statement.
* `Scheduler.effect_of_gives_follow`: Taking an edge moves the thread and has the effect
  of the statement.
-/

namespace ActorCheck

namespace Scheduler

variable {σ : Type}

/-- One way in which a statement can change a state in which the thread at an index runs,
    while the program grows from `before` to `after`. -/
inductive Effect (before after : App) (s : ControlState σ) (index : Nat) (t : Thread) :
    Statement → ControlState σ → Prop where
  /-- The statement only concerns the data, or nothing at all. -/
  | unchanged (statement : Statement) : Effect before after s index t statement s
  | signalled (properties : Std.ExtTreeSet String) :
      Effect before after s index t (.signal properties) (fail s index t properties)
  | opened :
      Effect before after s index t .beginAtomic
        (s.setThread index { t with atomic := t.atomic + 1 })
  | closed (inside : t.atomic ≠ 0) :
      Effect before after s index t .endAtomic (s.setThread index { t with atomic := t.atomic - 1 })
  | entered (method : String) (args : List Expr) (result : Option Variable) (u : Thread)
      (same : t.Same u) (waitingFor : u.waitingFor = t.waitingFor) (status : u.status = t.status) :
      Effect before after s index t (.call method args result) (s.setThread index u)
  | returned (result : Option Variable) (u : Thread) (same : t.Same u)
      (waitingFor : u.waitingFor = t.waitingFor) (status : u.status = t.status) :
      Effect before after s index t (.ret result) (s.setThread index u)
  | sent (m : Message) (threads : List Thread) (receivers : Std.ExtTreeSet ThreadId)
      (broadcast : before.broadcast m s.threads = .ok (threads, receivers)) :
      Effect before after s index t (.broadcast m) { s with threads := threads }
  /-- Nobody receives the message, so there is nobody to wait for. -/
  | unheard (m : Message) (threads : List Thread)
      (broadcast : before.broadcast m s.threads = .ok (threads, ∅)) :
      Effect before after s index t (.broadcastAndWait m) { s with threads := threads }
  | asked (m : Message) (threads : List Thread) (receivers : Std.ExtTreeSet ThreadId)
      (sender : Thread) (broadcast : before.broadcast m s.threads = .ok (threads, receivers))
      (others : t.id ∉ receivers) (heard : receivers ≠ ∅) (known : threads[index]? = some sender) :
      Effect before after s index t (.broadcastAndWait m)
        ({ s with threads := threads }.setThread index
          { sender with status := .wait, waitingFor := receivers })
  /-- A timed wait. The thread that evaluates its condition has a new number. -/
  | paused (args : List Expr) (result : Option Variable) (checker : Thread) (ops : List Operation)
      (new : before.supply.next ≤ checker.id) (below : checker.id < after.supply.next)
      (ready : checker.status = .yield) :
      Effect before after s index t (.call Builtin.waitSeconds args result)
        { s.setThread index
            { t with
              status := .wait
              waitingFor := t.waitingFor.insert checker.id
              operations := ops } with
          conditions := s.conditions ++ [checker] }
  | resolved (v : Variable) (e : Expr) (name : ActorName) :
      Effect before after s index t (.store v e)
        { s with actorScopes := s.actorScopes.insert v name }

/-- What has become of the thread that runs and executes a statement. If it does not go on running,
    there is a reason for it: it has failed, it was started again by its own message, or it waits.
    -/
inductive Executed (app : App) (s : ControlState σ) (statement : Statement) (u : Thread) :
    Prop where
  | running (runs : u.status = .running)
  | failed (properties : Std.ExtTreeSet String) (signal : statement = .signal properties)
      (fails : u.status = .failure)
  | restarted (ready : u.status = .yield) (outside : u.atomic = 0)
  | paused (args : List Expr) (result : Option Variable)
      (call : statement = .call Builtin.waitSeconds args result) (waits : u.status = .wait)
  | asked (m : Message) (threads : List Thread) (receivers : Std.ExtTreeSet ThreadId)
      (send : statement = .broadcastAndWait m)
      (broadcast : app.broadcast m s.threads = .ok (threads, receivers)) (heard : receivers ≠ ∅)
      (waits : u.status = .wait)

theorem supply_of_gives_conditionThread (actor : ActorName) (script : Script) (k k' : Scheduler)
    (q : Thread) (h : Gives (conditionThread actor script) k q k') :
    k.app.supply.next ≤ q.id ∧ q.id < k'.app.supply.next ∧ q.status = .yield := by
  -- The number is drawn last, and nothing else of the thread depends on the supply.
  unfold conditionThread at h
  rw [gives_program_bind] at h
  rcases (gives_lookUp_bind _ _ _ _ _).mp h with ⟨r, _, h⟩
  rcases (gives_lookUp_bind _ _ _ _ _).mp h with ⟨entry, _, h⟩
  rcases (gives_bind _ _ _ _ _).mp h with ⟨id, k₄, hfresh, h⟩
  rcases (gives_pure _ _ _ _).mp h with ⟨rfl, rfl⟩
  cases hfresh
  exact ⟨Nat.le_refl _, Nat.lt_succ_self _, rfl⟩

theorem same_of_gives_enterMethod (s : ControlState σ) (index : Nat) (t : Thread) (actor : Actor)
    (name : String) (args : List Expr) (source target : Place) (k k' : Scheduler)
    (outcomes : List (ControlState.Outcome σ))
    (h : Gives (enterMethod s index t actor name args source target) k outcomes k')
    (o : ControlState.Outcome σ) (ho : o ∈ outcomes) :
    ∃ u : Thread, o.1 = s.setThread index u ∧ t.Same u ∧ u.waitingFor = t.waitingFor
      ∧ u.status = t.status := by
  -- The method is looked up and its arguments are counted. Every entry of it gives one outcome,
  -- which changes the stack and the place only.
  unfold enterMethod at h
  rcases (gives_bind _ _ _ _ _).mp h with ⟨app, k₁, happ, h⟩
  rcases (gives_bind _ _ _ _ _).mp h with ⟨method, k₂, _, h⟩
  split at h
  · rcases (gives_bind _ _ _ _ _).mp h with ⟨_, _, hthrow, _⟩
    exact absurd hthrow (not_gives_throw _ _ _ _)
  · rcases (gives_bind _ _ _ _ _).mp h with ⟨callee, k₃, _, h⟩
    rcases (gives_bind _ _ _ _ _).mp h with ⟨scope, k₄, _, h⟩
    rcases (gives_bind _ _ _ _ _).mp h with ⟨ops, k₅, _, h⟩
    rcases (gives_pure _ _ _ _).mp h with ⟨rfl, rfl⟩
    rcases List.mem_map.mp ho with ⟨entry, _, rfl⟩
    exact ⟨_, rfl, ⟨rfl, rfl, rfl⟩, rfl, rfl⟩

theorem same_of_gives_leaveMethod (s : ControlState σ) (index : Nat) (t : Thread) (actor : Actor)
    (result : Option Variable) (k k' : Scheduler) (outcomes : List (ControlState.Outcome σ))
    (h : Gives (leaveMethod s index t actor result) k outcomes k')
    (o : ControlState.Outcome σ) (ho : o ∈ outcomes) :
    ∃ u : Thread, o.1 = s.setThread index u ∧ t.Same u ∧ u.waitingFor = t.waitingFor
      ∧ u.status = t.status := by
  -- There is a frame to return to, and the value goes to the variable of the call, if both are
  -- there.
  unfold leaveMethod at h
  rcases (gives_bind _ _ _ _ _).mp h with ⟨app, k₁, happ, h⟩
  split at h
  · exact absurd h (not_gives_throw _ _ _ _)
  · rcases (gives_bind _ _ _ _ _).mp h with ⟨caller, k₂, _, h⟩
    rcases (gives_bind _ _ _ _ _).mp h with ⟨targets, k₃, _, h⟩
    split at h
    · rcases (gives_bind _ _ _ _ _).mp h with ⟨scope, k₄, _, h⟩
      rcases (gives_bind _ _ _ _ _).mp h with ⟨ops, k₅, _, h⟩
      rcases (gives_pure _ _ _ _).mp h with ⟨rfl, rfl⟩
      rw [List.mem_singleton.mp ho]
      exact ⟨_, rfl, ⟨rfl, rfl, rfl⟩, rfl, rfl⟩
    · exact absurd h (not_gives_throw _ _ _ _)

theorem effect_of_gives_beginWait (s : ControlState σ) (index : Nat) (t : Thread)
    (args : List Expr) (result : Option Variable) (k k' : Scheduler)
    (outcomes : List (ControlState.Outcome σ)) (h : Gives (beginWait s index t args) k outcomes k')
    (o : ControlState.Outcome σ) (ho : o ∈ outcomes) :
    Effect k.app k'.app s index t (.call Builtin.waitSeconds args result) o.1 := by
  unfold beginWait at h
  split at h
  next seconds =>
    rw [gives_program_bind] at h
    rcases (gives_lookUp_bind _ _ _ _ _).mp h with ⟨scope, _, h⟩
    rcases (gives_bind _ _ _ _ _).mp h with ⟨ops, k₃, hops, h⟩
    rcases (gives_bind _ _ _ _ _).mp h with ⟨script, k₄, hscript, h⟩
    rcases (gives_bind _ _ _ _ _).mp h with ⟨_, k₅, hlearn, h⟩
    rcases (gives_bind _ _ _ _ _).mp h with ⟨checker, k₆, hchecker, h⟩
    rcases (gives_pure _ _ _ _).mp h with ⟨rfl, rfl⟩
    rw [List.mem_singleton.mp ho]
    -- The number is drawn last, from a supply that has only gone up.
    have h₃ := extends_of_gives _ (grows_freshOperations _) _ _ _ hops
    have h₄ := extends_of_gives _ (grows_modelling _ (App.extends_conditionScript _ _)) _ _ _
      hscript
    have h₅ := extends_of_gives _ (grows_learnAcceleration _ _) _ _ _ hlearn
    have hbefore := App.extends_trans _ _ _ h₃ (App.extends_trans _ _ _ h₄ h₅)
    rcases supply_of_gives_conditionThread _ script k₅ k₆ checker hchecker with ⟨hlo, hhi, hready⟩
    exact .paused _ result checker ops (Nat.le_trans hbefore.supply hlo) hhi hready
  next => exact absurd h (not_gives_throw _ _ _ _)

theorem effect_of_gives_interpretCall (s : ControlState σ) (index : Nat) (t : Thread)
    (actor : Actor) (method : String) (args : List Expr) (result : Option Variable)
    (source target : Place) (k k' : Scheduler) (outcomes : List (ControlState.Outcome σ))
    (h : Gives (interpretCall s index t actor method args result source target) k outcomes k')
    (o : ControlState.Outcome σ) (ho : o ∈ outcomes) :
    Effect k.app k'.app s index t (.call method args result) o.1 := by
  -- Timed waits come first, then what the system provides, and all others are methods.
  unfold interpretCall at h
  split at h
  next hwait =>
    rw [hwait]
    exact effect_of_gives_beginWait s index t args result k k' outcomes h o ho
  next =>
    split at h
    · exact absurd h (not_gives_throw _ _ _ _)
    · split at h
      · rcases (gives_pure _ _ _ _).mp h with ⟨rfl, rfl⟩
        rw [List.mem_singleton.mp ho]
        exact .unchanged _
      · rcases same_of_gives_enterMethod s index t actor method args source target k k' outcomes h o
          ho with ⟨u, hu, hsame, hfree, hstatus⟩
        rw [hu]
        exact .entered method args result u hsame hfree hstatus

theorem effect_of_broadcastAndWait (before after : App) (s next : ControlState σ) (index : Nat)
    (t : Thread) (m : Message) (h : broadcastAndWait before s index t m = .ok next) :
    Effect before after s index t (.broadcastAndWait m) next := by
  -- A message to oneself is refused. Without receivers there is nothing to wait for.
  unfold broadcastAndWait at h
  rcases (except_bind_ok _ _ _).mp h with ⟨⟨threads, receivers⟩, hsent, h⟩
  dsimp only at h
  split at h
  · cases h
  next hothers =>
    split at h
    next hnone =>
      cases (except_pure_ok _ _).mp h
      rw [Std.ExtTreeSet.isEmpty_iff.mp hnone] at hsent
      exact .unheard m threads hsent
    next hsome =>
      rcases (except_bind_ok _ _ _).mp h with ⟨sender, hsender, h⟩
      cases (except_pure_ok _ _).mp h
      rw [thread_ok] at hsender
      have hheard : receivers ≠ ∅ := fun hnone => hsome (Std.ExtTreeSet.isEmpty_iff.mpr hnone)
      exact .asked m threads receivers sender hsent hothers hheard hsender

/-- Every outcome of a statement is an effect of it. -/
theorem effect_of_gives_interpret (s : ControlState σ) (index : Nat) (t : Thread)
    (statement : Statement) (source target : Place) (k k' : Scheduler)
    (outcomes : List (ControlState.Outcome σ))
    (h : Gives (interpret s index t statement source target) k outcomes k')
    (o : ControlState.Outcome σ) (ho : o ∈ outcomes) :
    Effect k.app k'.app s index t statement o.1 := by
  unfold interpret at h
  rw [gives_program_bind] at h
  rcases (gives_lookUp_bind _ _ _ _ _).mp h with ⟨actor, _, h⟩
  -- An outcome that is known literally, with the program as it was.
  have hplain : ∀ next : ControlState.Outcome σ,
      Gives (pure [next] : Scheduling (List (ControlState.Outcome σ))) k outcomes k' →
      Effect k.app k'.app s index t statement next.1 →
      Effect k.app k'.app s index t statement o.1 := by
    intro next hgives hnext
    rcases (gives_pure _ _ _ _).mp hgives with ⟨rfl, rfl⟩
    rw [List.mem_singleton.mp ho]
    exact hnext
  -- By the kind of the statement. What is not interpreted as such throws, and what concerns the
  -- data leaves the state as it is.
  cases statement with
  | signal properties => exact hplain _ h (.signalled properties)
  | beginAtomic => exact hplain _ h .opened
  | endAtomic =>
      dsimp only at h
      split at h
      next => exact absurd h (not_gives_throw _ _ _ _)
      next hinside => exact hplain _ h (.closed hinside)
  | call method args result =>
      exact effect_of_gives_interpretCall s index t actor method args result source target k k'
        outcomes h o ho
  | ret result =>
      rcases same_of_gives_leaveMethod s index t actor result k k' outcomes h o ho with
        ⟨u, hu, hsame, hfree, hstatus⟩
      rw [hu]
      exact .returned result u hsame hfree hstatus
  | broadcast m =>
      rcases (gives_lookUp_bind _ _ _ _ _).mp h with ⟨⟨threads, receivers⟩, hsent, h⟩
      exact hplain _ h (.sent m threads receivers hsent)
  | broadcastAndWait m =>
      rcases (gives_lookUp_bind _ _ _ _ _).mp h with ⟨next, hsent, h⟩
      exact hplain _ h (effect_of_broadcastAndWait k.app k'.app s next index t m hsent)
  | store v e =>
      dsimp only at h
      split at h
      · rcases (gives_lookUp_bind _ _ _ _ _).mp h with ⟨name, _, h⟩
        exact hplain _ h (.resolved v e name)
      · exact hplain _ h (.unchanged _)
  | waitUntil e => exact absurd h (not_gives_throw _ _ _ _)
  | waitSecs e => exact absurd h (not_gives_throw _ _ _ _)
  | epsilon => exact hplain _ h (.unchanged _)
  | assume e => exact hplain _ h (.unchanged _)
  | evaluate e => exact hplain _ h (.unchanged _)
  | declare v => exact hplain _ h (.unchanged _)

/-- What a statement does to the thread that executes it. -/
theorem executed_of_effect (before after : App) (s s' : ControlState σ) (index : Nat) (t : Thread)
    (statement : Statement) (hruns : t.status = .running) (ht : s.threads[index]? = some t)
    (h : Effect before after s index t statement s') (u : Thread)
    (hu : s'.threads[index]? = some u) : Executed before s statement u := by
  -- The thread at the index is the one that was put there last.
  have hset : ∀ v : Thread, (s.threads.set index v)[index]? = some u → v = u := fun v hv => by
    rw [List.getElem?_set_self (List.getElem?_eq_some_iff.mp ht).1] at hv
    exact Option.some.inj hv
  have hkept : ∀ v : Thread, v = u → v.status = t.status → u.status = .running := by
    rintro v rfl hv
    exact hv.trans hruns
  -- A thread that runs is not enabled by its message, but it may be started again.
  have hsent : ∀ m threads receivers, before.broadcast m s.threads = .ok (threads, receivers) →
      threads[index]? = some u → Executed before s statement u := by
    intro m threads receivers hbroadcast hv
    cases related_of_forall₂ _ _ _
      (before.heard_of_broadcast m _ threads receivers hbroadcast).1 index t u ht hv with
    | kept => exact .running hruns
    | enabled _ asleep =>
        rw [hruns] at asleep
        cases asleep
    | restarted => exact .restarted rfl rfl
  cases h with
  | unchanged => exact .running (hkept t (Option.some.inj (ht.symm.trans hu)) rfl)
  | signalled properties =>
      rw [← hset _ hu]
      exact .failed properties rfl rfl
  | opened => exact .running (hkept _ (hset _ hu) rfl)
  | closed inside => exact .running (hkept _ (hset _ hu) rfl)
  | entered method args result v same waitingFor status =>
      exact .running (hkept v (hset v hu) status)
  | returned result v same waitingFor status => exact .running (hkept v (hset v hu) status)
  | sent m threads receivers broadcast => exact hsent m threads receivers broadcast hu
  | unheard m threads broadcast => exact hsent m threads ∅ broadcast hu
  | asked m threads receivers sender broadcast others heard known =>
      have hwaits : (threads.set index { sender with
          status := .wait, waitingFor := receivers })[index]? = some u := hu
      rw [List.getElem?_set_self (List.getElem?_eq_some_iff.mp known).1] at hwaits
      cases hwaits
      exact .asked m threads receivers rfl broadcast heard rfl
  | paused args result checker ops new below ready =>
      rw [← hset _ hu]
      exact .paused args result rfl rfl
  | resolved v e name => exact .running (hkept t (Option.some.inj (ht.symm.trans hu)) rfl)

/-- Taking an edge moves the thread and then interprets the statement. -/
theorem interpreted_of_gives_follow (s : ControlState σ) (index : Nat) (op : Operation)
    (target : Place) (t : Thread) (k k' : Scheduler) (outcomes : List (ControlState.Outcome σ))
    (ht : s.threads[index]? = some t) (h : Gives (follow s index op target) k outcomes k') :
    ∃ loops, Gives (interpret (s.setThread index { t with loops := loops, place := target }) index
      { t with loops := loops, place := target } op.statement t.place target) k outcomes k' := by
  unfold follow at h
  rcases (gives_lookUp_bind _ _ _ _ _).mp h with ⟨u, hu, h⟩
  rw [thread_ok, ht] at hu
  cases hu
  rw [gives_program_bind] at h
  rcases (gives_lookUp_bind _ _ _ _ _).mp h with ⟨action, _, h⟩
  exact ⟨action.apply t.place t.loops, h⟩

/-- The call on an edge is made by the actor of the thread. -/
theorem called_of_gives_interpret (s : ControlState σ) (index : Nat) (t : Thread)
    (method : String) (args : List Expr) (result : Option Variable) (source target : Place)
    (k k' : Scheduler) (outcomes : List (ControlState.Outcome σ))
    (h : Gives (interpret s index t (.call method args result) source target) k outcomes k') :
    ∃ actor, k.app.actorNamed t.actor = .ok actor
      ∧ Gives (interpretCall s index t actor method args result source target) k outcomes k' := by
  unfold interpret at h
  rw [gives_program_bind] at h
  rcases (gives_lookUp_bind _ _ _ _ _).mp h with ⟨actor, hactor, h⟩
  exact ⟨actor, hactor, h⟩

/-- Taking an edge moves the thread and has the effect of the statement. -/
theorem effect_of_gives_follow (s : ControlState σ) (index : Nat) (op : Operation)
    (target : Place) (t : Thread) (k k' : Scheduler) (outcomes : List (ControlState.Outcome σ))
    (ht : s.threads[index]? = some t) (h : Gives (follow s index op target) k outcomes k') :
    ∃ loops, ∀ o ∈ outcomes, Effect k.app k'.app
      (s.setThread index { t with loops := loops, place := target }) index
      { t with loops := loops, place := target } op.statement o.1 := by
  rcases interpreted_of_gives_follow s index op target t k k' outcomes ht h with ⟨loops, h⟩
  exact ⟨loops, fun o ho =>
    effect_of_gives_interpret _ index _ op.statement t.place target k k' outcomes h o ho⟩

end Scheduler

end ActorCheck

import ActorCheck.Proofs.Control.Books
import ActorCheck.Proofs.Control.Homes
import ActorCheck.Proofs.Control.WakeUps

/-!
# The Scopes of Timed Waits

A program that waits for ever does not grow for ever. What a timed wait leaves behind is found again
by the scope of the wait, so there is no more of it than there are scopes that were waited in,
however long the program was explored and however often a thread has waited.

To count the scopes, an exploration has to be seen edge by edge. `attempts` lists the edges that are
taken when the successors of a state are found, each with the scheduler that it is taken with, and
`Attempt.waitsIn` is the scope in which the statement on the edge waits, if it gets as far as that.
The list goes on to the first edge that fails and includes it, because what a failed step has added
stays. `Waiting` is the exploration of a program with the scopes of all attempts so far.

An attempt puts its scope on the books, and the rest of the step leaves them as they are. The books
know one actor for each scope, and a wait knows two: the scope of variables is that of the place
that the edge leads to, and the script is made for the actor of the thread. That these are the same
is what `Thread.AtHome` is for.

## Main definitions

* `Attempt`: A thread of a state takes an edge.
* `Attempt.waitsIn`: The scope in which it waits.
* `Scheduler.attempts`: The edges that are taken when the successors of a state are found.
* `Session.Waiting`: What can come about, with the scopes that were waited in.

## Theorems

* `Scheduler.books_of_takeEdge`: What taking an edge puts on the books.
* `Scheduler.books_of_along`, `Scheduler.books_before`: One edge after the other.
* `Session.exists_waiting`: Everything that can come about has such scopes.
* `Session.books_of_waiting`: All scopes are on the books.
* `Session.acceleration_bounded`: No more is kept than there are scopes.
-/

namespace ActorCheck

/-- A thread of a state takes an edge. -/
structure Attempt (σ : Type) where
  scheduler : Scheduler
  state : ControlState σ
  index : Nat
  edge : Operation × Place

namespace Attempt

variable {σ : Type} (a : Attempt σ)

/-- The scheduler after the statement on the edge was interpreted. -/
def after : Scheduler :=
  ((Scheduler.follow a.state a.index a.edge.1 a.edge.2).run a.scheduler).2

/-- The actor of the thread and the name of the relation that the edge belongs to. -/
def scope : Except AnalysisError (ActorName × String) := do
  let t ← a.state.thread a.index
  let _ ← a.scheduler.app.loopMove t.place a.edge.2
  let _ ← a.scheduler.app.actorNamed t.actor
  let r ← a.scheduler.app.relationOf a.edge.2.relation
  return (t.actor, r.name)

/-- The scope in which the thread waits for some seconds, if it does. -/
def waitsIn : Option (ActorName × String) :=
  match a.edge.1.statement with
  | .call method [_] _ => if method = Builtin.waitSeconds then a.scope.toOption else none
  | _ => none

/-- The edge leads to a place of the actor of the thread. -/
def StaysHome : Prop :=
  ∀ t, a.state.threads[a.index]? = some t → a.edge.2.actor = t.actor

theorem waitsIn_call (seconds : Expr) (result : Option Variable)
    (h : a.edge.1.statement = .call Builtin.waitSeconds [seconds] result) :
    a.waitsIn = a.scope.toOption := by
  unfold waitsIn
  rw [h]
  exact if_pos rfl

theorem call_of_waitsIn (p : ActorName × String) (h : a.waitsIn = some p) :
    a.scope = .ok p ∧ ∃ seconds result,
      a.edge.1.statement = .call Builtin.waitSeconds [seconds] result := by
  unfold waitsIn at h
  split at h
  next method seconds result heq =>
    split at h
    next hmethod =>
      subst hmethod
      exact ⟨(mem_toOption _ _).mp h, seconds, result, heq⟩
    next => cases h
  next => cases h

/-- An attempt that waits in a scope begins a timed wait there. -/
theorem after_of_waitsIn (p : ActorName × String) (hhome : a.StaysHome) (h : a.waitsIn = some p) :
    ∃ (s : ControlState σ) (t : Thread) (seconds : Expr),
      a.after = ((Scheduler.beginWait s a.index t [seconds]).run a.scheduler).2
      ∧ t.actor = p.1 ∧ (∃ actor, a.scheduler.app.actor p.1 = .ok actor)
      ∧ a.scheduler.app.localScope t.place = .ok [p.1, p.2] := by
  -- The scope was computed from the same look-ups as the wait begins with, so these succeed.
  rcases a.call_of_waitsIn p h with ⟨hscope, seconds, result, hcall⟩
  unfold scope at hscope
  rcases (except_bind_ok _ _ _).mp hscope with ⟨t, ht, hscope⟩
  rcases (except_bind_ok _ _ _).mp hscope with ⟨action, haction, hscope⟩
  rcases (except_bind_ok _ _ _).mp hscope with ⟨actor, hactor, hscope⟩
  rcases (except_bind_ok _ _ _).mp hscope with ⟨r, hr, hscope⟩
  cases (except_pure_ok _ _).mp hscope
  let moved : Thread := { t with loops := action.apply t.place t.loops, place := a.edge.2 }
  refine ⟨a.state.setThread a.index moved, moved, seconds, ?_, rfl,
    ⟨actor, (ofModel_ok _ _).mp hactor⟩, ?_⟩
  · unfold after Scheduler.follow
    rw [run_lookUp_bind _ _ _ t ht, Scheduler.run_program_bind,
      run_lookUp_bind _ _ _ action haction]
    unfold Scheduler.interpret
    rw [Scheduler.run_program_bind, run_lookUp_bind _ _ _ actor hactor, hcall]
    dsimp only
    unfold Scheduler.interpretCall
    rw [if_pos rfl]
  · refine (except_bind_ok _ _ _).mpr ⟨r, hr, ?_⟩
    rw [show moved.place.actor = t.actor from hhome t ((thread_ok _ _ _).mp ht)]
    rfl

/-- An attempt that does not wait does what any other statement may do. -/
theorem modest_of_waitsIn {R : Scheduler → Scheduler → Prop} (hR : Scheduler.Modest R)
    (h : a.waitsIn = none) : R a.scheduler a.after := by
  -- An attempt may be a timed wait and have no scope, which means that the statement fails before
  -- it has done anything.
  by_cases hcall : ∃ seconds result,
    a.edge.1.statement = .call Builtin.waitSeconds [seconds] result
  · rcases hcall with ⟨seconds, result, hcall⟩
    rw [a.waitsIn_call seconds result hcall] at h
    let P := R a.scheduler
    have hk : P a.scheduler := hR.refl a.scheduler
    -- One of the look-ups that the wait begins with fails.
    unfold after Scheduler.follow
    refine ends_lookUp_bind P _ _ _ hk (fun t ht => ?_)
    rw [Scheduler.run_program_bind]
    refine ends_lookUp_bind P _ _ _ hk (fun action haction => ?_)
    unfold Scheduler.interpret
    rw [Scheduler.run_program_bind]
    refine ends_lookUp_bind P _ _ _ hk (fun actor hactor => ?_)
    rw [hcall]
    dsimp only
    unfold Scheduler.interpretCall
    rw [if_pos rfl]
    unfold Scheduler.beginWait
    rw [Scheduler.run_program_bind]
    refine ends_lookUp_bind P _ _ _ hk (fun names hnames => ?_)
    rcases (except_bind_ok _ _ _).mp hnames with ⟨r, hr, _⟩
    have hscope : a.scope = .ok (t.actor, r.name) := (except_bind_ok _ _ _).mpr ⟨t, ht,
      (except_bind_ok _ _ _).mpr ⟨action, haction, (except_bind_ok _ _ _).mpr ⟨actor, hactor,
        (except_bind_ok _ _ _).mpr ⟨r, hr, rfl⟩⟩⟩⟩
    rw [hscope] at h
    cases h
  · refine Scheduler.keeps_follow_of_waits hR _ _ _ _ (fun s t args result hwait => ?_) a.scheduler
    unfold Scheduler.beginWait
    split
    next seconds => exact absurd ⟨seconds, result, hwait⟩ hcall
    next => exact Scheduler.keeps_throw hR _

end Attempt

namespace Scheduler

variable {σ : Type} [DecidableEq σ]

section Attempts

/-- The edges that are taken one after the other until one of them fails, each with the scheduler
    that the one before has left behind. -/
def attemptsAlong (c : Control σ) (s : ControlState σ) (index : Nat) (concern : Concern) :
    List (Operation × Place) → Scheduler → List (Attempt σ)
  | [], _ => []
  | edge :: edges, k =>
    ⟨k, s, index, edge⟩ ::
      match (takeEdge c s index concern edge).run k with
      | (.ok _, k') => attemptsAlong c s index concern edges k'
      | (.error _, _) => []

/-- The edges that the thread at an index can take, and what its actor is for. -/
def departures (app : App) (s : ControlState σ) (index : Nat) :
    Except AnalysisError (Concern × List (Operation × Place)) := do
  let t ← s.thread index
  let actor ← app.actorNamed t.actor
  let edges ← app.leaving s t
  return (actor.concern, edges)

/-- The edges that are taken when the successors of a state are found. -/
def attempts (c : Control σ) (s : ControlState σ) (k : Scheduler) : List (Attempt σ) :=
  if s.isTarget ∨ c.config.aggregateAtomicTransitions then []
  else
    match s.running with
    | [index] =>
      match departures k.app s index with
      | .ok (concern, edges) => attemptsAlong c s index concern edges k
      | .error _ => []
    | _ => []

variable (c : Control σ) (s : ControlState σ) (k : Scheduler)

/-- A thread takes its edges one after the other. -/
theorem run_stepThread (index : Nat) (t : Thread) (concern : Concern)
    (edges : List (Operation × Place)) (ht : s.thread index = .ok t)
    (h : departures k.app s index = .ok (concern, edges)) :
    k.app.leaving s t = .ok edges
      ∧ ((stepThread c s index).run k).2 = ((edges.mapM (takeEdge c s index concern)).run k).2 := by
  unfold departures at h
  rcases (except_bind_ok _ _ _).mp h with ⟨u, hu, h⟩
  rcases (except_bind_ok _ _ _).mp h with ⟨actor, hactor, h⟩
  rcases (except_bind_ok _ _ _).mp h with ⟨found, hleaving, h⟩
  cases (except_pure_ok _ _).mp h
  cases ht.symm.trans hu
  refine ⟨hleaving, ?_⟩
  -- The step looks up the same things before it takes an edge.
  unfold stepThread
  rw [run_program_bind, run_lookUp_bind _ _ _ t ht, run_lookUp_bind _ _ _ actor hactor,
    run_lookUp_bind _ _ _ edges hleaving]
  dsimp only
  split
  next hempty =>
    rw [List.isEmpty_iff.mp hempty]
    rfl
  next => exact snd_run_bind_pure _ _ k

/-- A thread that has no edges to take leaves the scheduler as it was. -/
theorem run_stepThread_of_error (index : Nat) (e : AnalysisError)
    (h : departures k.app s index = .error e) : ((stepThread c s index).run k).2 = k := by
  let P (k' : Scheduler) : Prop := k' = k
  unfold stepThread
  rw [run_program_bind]
  refine ends_lookUp_bind P _ _ k rfl (fun t ht => ?_)
  refine ends_lookUp_bind P _ _ k rfl (fun actor hactor => ?_)
  refine ends_lookUp_bind P _ _ k rfl (fun edges hleaving => ?_)
  have hdepart : departures k.app s index = .ok (actor.concern, edges) :=
    (except_bind_ok _ _ _).mpr ⟨t, ht, (except_bind_ok _ _ _).mpr ⟨actor, hactor,
      (except_bind_ok _ _ _).mpr ⟨edges, hleaving, rfl⟩⟩⟩
  cases h.symm.trans hdepart

/-- The successors of a state are found by taking edges, or else nothing is done. -/
theorem cases_of_attempts :
    (attempts c s k = [] ∧ ((successors c s).run k).2 = k)
      ∨ ∃ index concern edges t, s.threads[index]? = some t ∧ k.app.leaving s t = .ok edges
        ∧ attempts c s k = attemptsAlong c s index concern edges k
        ∧ ((successors c s).run k).2
          = ((edges.mapM (takeEdge c s index concern)).run k).2 := by
  unfold attempts successors
  by_cases htarget : s.isTarget = true
  · rw [if_pos htarget, if_pos (Or.inl htarget)]
    exact Or.inl ⟨rfl, rfl⟩
  · by_cases haggregate : c.config.aggregateAtomicTransitions = true
    · rw [if_neg htarget, if_pos haggregate, if_pos (Or.inr haggregate)]
      exact Or.inl ⟨rfl, rfl⟩
    · rw [if_neg htarget, if_neg haggregate, if_neg (not_or.mpr ⟨htarget, haggregate⟩)]
      -- Only with one thread running edges are taken. With none or several the step ends at once.
      rcases s.running with _ | ⟨index, _ | ⟨other, others⟩⟩
      · exact Or.inl ⟨rfl, rfl⟩
      · dsimp only
        cases hdepart : departures k.app s index with
        | error e => exact Or.inl ⟨rfl, run_stepThread_of_error c s k index e hdepart⟩
        | ok found =>
            rcases (except_bind_ok _ _ _).mp hdepart with ⟨t, ht, _⟩
            rcases run_stepThread c s k index t found.1 found.2 ht hdepart with ⟨hleaving, hrun⟩
            exact Or.inr ⟨index, found.1, found.2, t, (thread_ok _ _ _).mp ht, hleaving, rfl, hrun⟩
      · exact Or.inl ⟨rfl, rfl⟩

end Attempts

section Recording

variable (c : Control σ) (app : App) (waits : List (ActorName × String))

omit [DecidableEq σ] in
theorem filterMap_waitsIn_cons (a : Attempt σ) (l : List (Attempt σ)) :
    (a :: l).filterMap Attempt.waitsIn = a.waitsIn.toList ++ l.filterMap Attempt.waitsIn := by
  rw [List.filterMap_cons]
  cases a.waitsIn with
  | none => rfl
  | some p => rfl

omit [DecidableEq σ] in
/-- An attempt puts its scope on the books, if it waits in one. -/
theorem books_of_after (a : Attempt σ) (made : List ConditionScript) (hhome : a.StaysHome)
    (h : a.scheduler.Books app waits made) :
    ∃ made', a.after.Books app (waits ++ a.waitsIn.toList) made' := by
  cases hwait : a.waitsIn with
  | none =>
      refine ⟨made, ?_⟩
      rw [Option.toList_none, List.append_nil]
      exact a.modest_of_waitsIn (modest_books app waits) hwait made h
  | some p =>
      rcases a.after_of_waitsIn p hhome hwait with ⟨s, t, seconds, hrun, howner, hactor, hscope⟩
      rw [hrun]
      exact books_of_beginWait s a.index t seconds a.scheduler p howner hactor hscope app waits made
        h

/-- Taking an edge puts no other scopes on the books than the statement on the edge does. -/
theorem books_of_takeEdge (concern : Concern) (a : Attempt σ) (made : List ConditionScript)
    (hhome : a.StaysHome) (h : a.scheduler.Books app waits made) :
    ∃ made', ((takeEdge c a.state a.index concern a.edge).run a.scheduler).2.Books app
      (waits ++ a.waitsIn.toList) made' := by
  rcases books_of_after app waits a made hhome h with ⟨made', hafter⟩
  have hmodest := modest_books app (waits ++ a.waitsIn.toList)
  refine ⟨made', ?_⟩
  unfold takeEdge
  let P (k : Scheduler) : Prop := k.Books app (waits ++ a.waitsIn.toList) made'
  -- What follows after the statement puts nothing on the books, whether it succeeds or not.
  refine ends_bind P _ _ _ hafter (fun outcomes k' _ hk' => ?_)
  rw [snd_run_bind_pure]
  exact keeps_mapM hmodest _ _ (fun o _ => keeps_settle hmodest c _ _ _ o) k' _ hk'

variable (s : ControlState σ) (index : Nat) (concern : Concern)

/-- Taking edges one after the other puts the scopes of all attempts on the books. -/
theorem books_of_along (edges : List (Operation × Place)) (k : Scheduler)
    (made : List ConditionScript)
    (hhome : ∀ t, s.threads[index]? = some t → ∀ edge ∈ edges, edge.2.actor = t.actor)
    (h : k.Books app waits made) :
    ∃ made', ((edges.mapM (takeEdge c s index concern)).run k).2.Books app
      (waits ++ (attemptsAlong c s index concern edges k).filterMap Attempt.waitsIn) made' := by
  -- By induction on the edges. Books and scheduler are generalized, since each edge is taken with
  -- what the one before has left.
  induction edges generalizing waits k made with
  | nil =>
      refine ⟨made, ?_⟩
      rw [attemptsAlong, List.filterMap_nil, List.append_nil]
      exact h
  | cons edge edges ih =>
      rcases books_of_takeEdge c app waits concern ⟨k, s, index, edge⟩ made
        (fun t ht => hhome t ht edge List.mem_cons_self) h with ⟨made₁, h₁⟩
      rw [attemptsAlong, filterMap_waitsIn_cons, ← List.append_assoc, List.mapM_cons, run_bind]
      rcases htaken : (takeEdge c s index concern edge).run k with ⟨e | found, k₁⟩
      -- An edge that fails is the last one, and its scope is on the books all the same.
      · rw [htaken] at h₁
        dsimp only
        rw [List.filterMap_nil, List.append_nil]
        exact ⟨made₁, h₁⟩
      · rw [htaken] at h₁
        dsimp only
        rw [snd_run_bind_pure]
        exact ih _ k₁ made₁
          (fun t ht other hother => hhome t ht other (List.mem_cons_of_mem _ hother)) h₁

/-- When an edge is taken, the scopes of the attempts before are on the books. -/
theorem books_before (edges : List (Operation × Place)) (k : Scheduler)
    (made : List ConditionScript)
    (hhome : ∀ t, s.threads[index]? = some t → ∀ edge ∈ edges, edge.2.actor = t.actor)
    (h : k.Books app waits made) (earlier later : List (Attempt σ)) (a : Attempt σ)
    (hsplit : attemptsAlong c s index concern edges k = earlier ++ a :: later) :
    a.StaysHome
      ∧ ∃ made', a.scheduler.Books app (waits ++ earlier.filterMap Attempt.waitsIn) made' := by
  -- The attempt in question is the first one, or it comes after the first one has put its scope on
  -- the books.
  induction edges generalizing waits k made earlier with
  | nil => exact absurd (List.append_eq_nil_iff.mp hsplit.symm).2 (List.cons_ne_nil a later)
  | cons edge edges ih =>
      have hfirst : Attempt.StaysHome ⟨k, s, index, edge⟩ :=
        fun t ht => hhome t ht edge List.mem_cons_self
      rw [attemptsAlong] at hsplit
      cases earlier with
      | nil =>
          cases (List.cons.inj hsplit).1
          refine ⟨hfirst, made, ?_⟩
          rw [List.filterMap_nil, List.append_nil]
          exact h
      | cons b earlier =>
          rcases List.cons.inj hsplit with ⟨rfl, hrest⟩
          rcases books_of_takeEdge c app waits concern ⟨k, s, index, edge⟩ made hfirst h with
            ⟨made₁, h₁⟩
          rw [filterMap_waitsIn_cons, ← List.append_assoc]
          rcases htaken : (takeEdge c s index concern edge).run k with ⟨e | found, k₁⟩
          · rw [htaken] at hrest
            exact absurd (List.append_eq_nil_iff.mp hrest.symm).2 (List.cons_ne_nil a later)
          · rw [htaken] at h₁ hrest
            exact ih _ k₁ made₁ (fun t ht other hother => hhome t ht other
              (List.mem_cons_of_mem _ hother)) h₁ earlier hrest

end Recording

end Scheduler

namespace Session

variable {σ : Type} [DecidableEq σ]

/-- What can come about when a program is explored, with the scopes in which a thread has waited for
    some seconds, one entry for each wait. -/
inductive Waiting (c : Control σ) (app : App) : Session σ → List (ActorName × String) → Prop where
  | new : Waiting c app (Session.new app) []
  | start (x : Session σ) (waits : List (ActorName × String)) (data : σ)
      (h : Waiting c app x waits) : Waiting c app (x.start data) waits
  | expand (x : Session σ) (waits : List (ActorName × String)) (s : ControlState σ)
      (h : Waiting c app x waits) (hs : s ∈ x.found) :
      Waiting c app (x.expand c s)
        (waits ++ (Scheduler.attempts c s x.scheduler).filterMap Attempt.waitsIn)

theorem explored_of_waiting (c : Control σ) (app : App) (x : Session σ)
    (waits : List (ActorName × String)) (h : Waiting c app x waits) : Explored c app x := by
  induction h with
  | new => exact .new
  | start x _ data _ ih => exact .start x data ih
  | expand x _ s _ hs ih => exact .expand x s ih hs

/-- Whatever comes about, the scopes that were waited in can be counted. -/
theorem exists_waiting (c : Control σ) (app : App) (x : Session σ) (h : Explored c app x) :
    ∃ waits, Waiting c app x waits := by
  induction h with
  | new => exact ⟨[], .new⟩
  | start x data _ ih => exact ih.imp fun waits h => .start x waits data h
  | expand x s _ hs ih => exact ih.elim fun waits h => ⟨_, .expand x waits s h hs⟩

/-- The scopes that are waited in when the state that was found last is expanded. -/
def waitsOfLast (c : Control σ) (x : Session σ) : List (ActorName × String) :=
  match x.found.getLast? with
  | some s => (Scheduler.attempts c s x.scheduler).filterMap Attempt.waitsIn
  | none => []

theorem waiting_of_expandLast (c : Control σ) (app : App) (x : Session σ)
    (waits : List (ActorName × String)) (h : Waiting c app x waits) :
    Waiting c app (x.expandLast c) (waits ++ x.waitsOfLast c) := by
  unfold expandLast waitsOfLast
  cases hlast : x.found.getLast? with
  | none =>
      rw [List.append_nil]
      exact h
  | some s => exact .expand x waits s h (List.mem_of_getLast? hlast)

/-- The edges that a thread can take lead to places of its actor. -/
theorem actor_of_explored (c : Control σ) (app : App) (x : Session σ) (h : Explored c app x)
    (s : ControlState σ) (hs : s ∈ x.found) (index : Nat) (t : Thread)
    (edges : List (Operation × Place)) (ht : s.threads[index]? = some t)
    (hleaving : x.scheduler.app.leaving s t = .ok edges) :
    ∀ u, s.threads[index]? = some u → ∀ edge ∈ edges, edge.2.actor = u.actor := by
  intro u hu edge hedge
  cases ht.symm.trans hu
  exact x.scheduler.app.actor_of_leaving s t edges hleaving
    (atHome_of_explored c app x h s hs t (List.mem_of_getElem? ht)) edge hedge

/-- All scopes in which a thread has waited are on the books. By induction on the session: a step
    puts the scopes of its attempts on the books. -/
theorem books_of_waiting (c : Control σ) (app : App) (x : Session σ)
    (waits : List (ActorName × String)) (h : Waiting c app x waits) :
    ∃ made, x.scheduler.Books app waits made := by
  induction h with
  | new =>
      refine ⟨[], (List.append_nil _).symm, List.nodup_nil, nofun, nofun, fun id hid => ?_,
        fun id hid => ?_, fun _ _ hr => Or.inl hr⟩
      · exact absurd hid Std.ExtTreeMap.not_mem_empty
      · exact absurd hid Std.ExtTreeMap.not_mem_empty
  | start x waits data _ ih =>
      rcases ih with ⟨made, hmade⟩
      refine ⟨made, ?_⟩
      rw [start_eq, scheduler_extend]
      exact Scheduler.keeps_startState (Scheduler.modest_books app waits) data x.scheduler made
        hmade
  | expand x waits s hx hs ih =>
      rcases ih with ⟨made, hmade⟩
      rw [expand_eq, scheduler_extend]
      -- Either edges are taken, which are those of the attempts, or nothing at all is done.
      rcases Scheduler.cases_of_attempts c s x.scheduler with
        ⟨hnone, hrun⟩ | ⟨index, concern, edges, t, ht, hleaving, hsome, hrun⟩
      · rw [hnone, hrun, List.filterMap_nil, List.append_nil]
        exact ⟨made, hmade⟩
      · rw [hsome, hrun]
        exact Scheduler.books_of_along c app waits s index concern edges x.scheduler made
          (actor_of_explored c app x (explored_of_waiting c app x waits hx) s hs index t edges ht
            hleaving) hmade

/-- What is kept for hurrying timed waits along is bounded by the scopes that were waited in. There
    are no more scripts of conditions than such scopes, no more entries about how their conditions
    can be made to hold, and no more relations that move the clock; every other relation was there
    at the beginning. A further wait in a scope does nothing to the scheduler but draw numbers. -/
theorem acceleration_bounded (c : Control σ) (app : App) (x : Session σ)
    (waits : List (ActorName × String)) (h : Waiting c app x waits) :
    (∃ made, x.scheduler.app.conditionScripts = app.conditionScripts ++ made
      ∧ made.length ≤ waits.dedup.length
      ∧ ∀ (id : RelationId) (r : Relation), x.scheduler.app.relations[id]? = some r →
        app.relations[id]? = some r ∨ (∃ c ∈ made, c.script.relation = id)
          ∨ ∃ script : ScriptId, x.scheduler.accelerators[script]? = some r ∧ r.id = id)
      ∧ x.scheduler.accelerations.size ≤ waits.dedup.length
      ∧ x.scheduler.accelerators.size ≤ waits.dedup.length
      ∧ ∀ s ∈ x.found, ∀ earlier a later,
        Scheduler.attempts c s x.scheduler = earlier ++ a :: later →
          ∀ p ∈ a.waitsIn, p ∈ waits ++ earlier.filterMap Attempt.waitsIn →
            a.scheduler.Drew a.after := by
  rcases books_of_waiting c app x waits h with ⟨made, hbooks⟩
  rcases Scheduler.size_of_books app waits x.scheduler made hbooks with
    ⟨haccelerations, haccelerators⟩
  refine ⟨⟨made, hbooks.scripts, Scheduler.length_of_books app waits x.scheduler made hbooks,
    hbooks.registered⟩, haccelerations, haccelerators, ?_⟩
  -- A further wait begins when the scopes of all earlier attempts are on the books.
  intro s hs earlier a later hsplit p hwait hp
  rcases Scheduler.cases_of_attempts c s x.scheduler with
    ⟨hnone, _⟩ | ⟨index, concern, edges, t, ht, hleaving, hsome, _⟩
  · rw [hnone] at hsplit
    exact absurd (List.append_eq_nil_iff.mp hsplit.symm).2 (List.cons_ne_nil a later)
  · rw [hsome] at hsplit
    rcases Scheduler.books_before c app waits s index concern edges x.scheduler made
      (actor_of_explored c app x (explored_of_waiting c app x waits h) s hs index t edges ht
        hleaving) hbooks earlier later a hsplit with ⟨hhome, made', hbefore⟩
    rcases a.after_of_waitsIn p hhome hwait with ⟨s', u, seconds, hrun, howner, hactor, hscope⟩
    rw [hrun]
    exact Scheduler.drew_of_beginWait s' a.index u seconds a.scheduler p howner hactor hscope app _
      made' hbefore hp

/-- The scopes that the relay has waited in after a number of steps. -/
def waitsOfRelay (wait : Statement) (rest : List Statement) : Nat → List (ActorName × String)
  | 0 => []
  | n + 1 => waitsOfRelay wait rest n ++ (relaySession wait rest n).waitsOfLast .indifferent

theorem waiting_relaySession (wait : Statement) (rest : List Statement) (n : Nat) :
    Waiting .indifferent ((relay wait rest).build.run (App.new "relay")).2
      (relaySession wait rest n) (waitsOfRelay wait rest n) := by
  induction n with
  | zero => exact .start _ [] () .new
  | succ n ih => exact waiting_of_expandLast _ _ _ _ ih

/-- The answerer has waited once, and waits again in the same scope. -/
theorem acceleration_bounded_relay :
    waitsOfRelay (pausing 1) [pausing 2, .epsilon] 2 = [("answerer", "R19")]
      ∧ (relaySession (pausing 1) [pausing 2, .epsilon] 2).scheduler.accelerators.size ≤ 1
      ∧ ∃ s ∈ (relaySession (pausing 1) [pausing 2, .epsilon] 2).found, ∃ a : Attempt Unit,
        Scheduler.attempts .indifferent s
          (relaySession (pausing 1) [pausing 2, .epsilon] 2).scheduler = [a]
        ∧ a.waitsIn = some ("answerer", "R19") ∧ a.scheduler.Drew a.after := by
  have hwaits : waitsOfRelay (pausing 1) [pausing 2, .epsilon] 2 = [("answerer", "R19")] := by
    decide +kernel
  have hagain : ∃ s ∈ (relaySession (pausing 1) [pausing 2, .epsilon] 2).found,
      (Scheduler.attempts .indifferent s
        (relaySession (pausing 1) [pausing 2, .epsilon] 2).scheduler).map Attempt.waitsIn
          = [some ("answerer", "R19")] := by
    decide +kernel
  rcases acceleration_bounded .indifferent _ _ _
    (waiting_relaySession (pausing 1) [pausing 2, .epsilon] 2) with ⟨_, _, hsize, hfurther⟩
  rw [hwaits] at hsize hfurther
  rcases hagain with ⟨s, hs, hagain⟩
  rcases List.map_eq_singleton_iff.mp hagain with ⟨a, ha, hwait⟩
  refine ⟨hwaits, hsize, s, hs, a, ha, hwait, ?_⟩
  exact hfurther s hs [] a [] ha _ hwait (List.mem_append_left _ (List.mem_singleton_self _))

end Session

end ActorCheck

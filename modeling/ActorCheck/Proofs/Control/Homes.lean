import ActorCheck.Proofs.Control.Frames
import ActorCheck.Proofs.Control.Passages

/-!
# Threads Stay with Their Actors

A place names an actor besides a relation, and a thread belongs to an actor. The two agree wherever
a thread gets to: an edge leads to a place of the same actor, a method is looked up with the actor
of the thread, a return goes back to a place that an edge led to, and a thread that is started again
is at a place of its own. So the scope of local variables, which is read off the place of a thread,
is a scope of its actor.

This holds for every program, whether or not what it refers to can be found.

## Main definitions

* `Thread.AtHome`: The place of a thread, and those its calls continue at, are of its actor.

## Theorems

* `App.actor_of_leaving`: Edges lead to places of the actor.
* `App.atHome_of_went`: What a statement makes of a thread.
* `Scheduler.atHome_of_gives_follow`: All threads after an edge was taken.
* `Session.atHome_of_explored`: The threads of every state that is found.
-/

namespace ActorCheck

/-- A thread is at a place of its actor, and so are the places at which its calls continue. -/
structure Thread.AtHome (t : Thread) : Prop where
  place : t.place.actor = t.actor
  calls : ∀ frame ∈ t.calls, frame.returnTo.actor = t.actor

namespace App

variable (app : App)

theorem name_of_actorNamed (name : ActorName) (actor : Actor)
    (h : app.actorNamed name = .ok actor) : actor.name = name := by
  have hfound := (ofModel_ok _ _).mp h
  unfold App.actor at hfound
  -- The actor was found by this name among the actors of the program.
  split at hfound
  next a hfind =>
    cases hfound
    exact beq_iff_eq.mp (List.find?_some (p := fun a : Actor => a.name == name) hfind)
  next => cases hfound

/-- A thread is started again at a place of its actor. -/
theorem atHome_of_entryPlace (t : Thread) (entry : Place) (h : app.entryPlace t = .ok entry) :
    (t.atStart entry).AtHome := by
  unfold entryPlace at h
  rcases (except_bind_ok _ _ _).mp h with ⟨script, _, h⟩
  rcases (except_bind_ok _ _ _).mp h with ⟨r, _, h⟩
  rcases (except_bind_ok _ _ _).mp h with ⟨l, _, h⟩
  cases (except_pure_ok _ _).mp h
  exact ⟨rfl, nofun⟩

/-- A message leaves a thread with its actor. -/
theorem atHome_of_heard (m : Message) (t u : Thread) (h : app.Heard m t u) (ht : t.AtHome) :
    u.AtHome :=
  app.kept_of_heard Thread.AtHome (fun _ _ h => ⟨h.place, h.calls⟩)
    (fun v entry hentry _ => app.atHome_of_entryPlace v entry hentry) m t u h ht

/-- The edges that leave the place of a thread lead to places of its actor. -/
theorem actor_of_leaving {σ : Type} (s : ControlState σ) (t : Thread)
    (edges : List (Operation × Place)) (h : app.leaving s t = .ok edges) (ht : t.AtHome)
    (edge : Operation × Place) (hedge : edge ∈ edges) : edge.2.actor = t.actor := by
  rcases app.joins_of_leaving s t edges h edge hedge with ⟨_, ⟨hwithin, _⟩, _⟩
  rw [hwithin]
  exact ht.place

/-- What a statement makes of the place and the calls of a thread, which has taken an edge to a
    place of its actor before. -/
theorem atHome_of_went (actor : Actor) (target : Place) (t u : Thread) (statement : Statement)
    (h : app.Went actor target t statement u.calls u.place) (hsame : u.actor = t.actor)
    (hactor : actor.name = t.actor) (htarget : target.actor = t.actor) (ht : t.AtHome) :
    u.AtHome := by
  rcases u with ⟨id, name, script, calls, place, status, failed, waiting, loops, atomic, operations⟩
  cases hsame
  -- By the kind of the statement: along the edge, into a method, back behind a call, or to the
  -- start.
  cases h with
  | along => exact ⟨htarget, ht.calls⟩
  | entered method args result callee entry =>
      exact ⟨hactor, List.forall_mem_cons.mpr ⟨htarget, ht.calls⟩⟩
  | returned result frame _ pending =>
      have hcalls := ht.calls
      rw [pending] at hcalls
      rcases List.forall_mem_cons.mp hcalls with ⟨hframe, hrest⟩
      exact ⟨hframe, hrest⟩
  | restarted _ _ _ start => exact ⟨(app.atHome_of_entryPlace t _ start).place, nofun⟩

end App

namespace Scheduler

variable {σ : Type}

/-- After the thread at an index has taken an edge to a place of its actor, all threads are at home
    if they were before. -/
theorem atHome_of_gives_follow (s : ControlState σ) (index : Nat) (op : Operation) (target : Place)
    (t : Thread) (actor : Actor) (k k' : Scheduler) (outcomes : List (ControlState.Outcome σ))
    (ht : s.threads[index]? = some t) (hactor : k.app.actorNamed t.actor = .ok actor)
    (htarget : target.actor = t.actor) (h : Gives (follow s index op target) k outcomes k')
    (o : ControlState.Outcome σ) (ho : o ∈ outcomes) (hs : ∀ v ∈ s.threads, v.AtHome) :
    ∀ v ∈ o.1.threads, v.AtHome := by
  have hkin := kin_of_gives_follow s index op target t k k' outcomes ht h o ho
  intro v hv
  rcases List.getElem?_of_mem hv with ⟨i, hi⟩
  -- Of the thread that moves it is known where its statement has brought it.
  by_cases hindex : index = i
  · subst hindex
    have hwent := went_of_gives_follow s index op target t v actor k k' outcomes ht hactor h o ho hi
    exact k.app.atHome_of_went actor target t v op.statement hwent
      (s.same_of_kin o.1 hkin index t v ht hi).actor (k.app.name_of_actorNamed _ actor hactor)
      htarget (hs t (List.mem_of_getElem? ht))
  · rcases effect_of_gives_follow s index op target t k k' outcomes ht h with ⟨loops, heffect⟩
    rcases getElem?_of_forall₂_right _ _ _ hkin i v hi with ⟨u, hu, _⟩
    have hmoved : (s.setThread index { t with loops := loops, place := target }).threads[i]?
        = some u := (List.getElem?_set_ne hindex).trans hu
    -- The others have heard a message at most.
    rcases bystander_of_effect _ _ _ _ index _ _ (heffect o ho) i hindex u hmoved with
      ⟨w, hw, hheard⟩
    cases hw.symm.trans hi
    have hhome := hs u (List.mem_of_getElem? hu)
    rcases hheard with rfl | ⟨m, _, hheard⟩
    · exact hhome
    · exact k.app.atHome_of_heard m u v hheard hhome

end Scheduler

/-- Every thread of every state that is found is at home. -/
theorem Session.atHome_of_explored {σ : Type} [DecidableEq σ] (c : Control σ) (app : App)
    (x : Session σ) (h : Explored c app x) : ∀ s ∈ x.found, ∀ t ∈ s.threads, t.AtHome := by
  refine invariant_of_explored c app (fun _ s => ∀ t ∈ s.threads, t.AtHome)
    (fun _ _ _ _ _ hs => hs) ?_ ?_ x h
  -- At the start every thread stands at the entry of its script.
  · intro k k' data s _ hgives t ht
    rcases mem_of_forall₂_right _ _ _ (Scheduler.begun_of_gives_startState data k k' s hgives) t ht
      with ⟨entry, _, u, ⟨r, l, _, _, hu⟩, hturned⟩
    refine k'.app.kept_of_turned Thread.AtHome (fun _ _ h => ⟨h.place, h.calls⟩) u t hturned ?_
    rw [hu]
    exact ⟨rfl, nofun⟩
  -- A step consists of the statement, which has been looked at, and of the phases after it, which
  -- move nobody but to a start.
  · intro k k' s next _ hs hgives s' hs'
    rcases Scheduler.step_of_gives_successors c s s' k k' next hgives hs' with
      ⟨index, t, t₁, actor, edges, edge, k₁, k₂, app₁, app₂, outcomes, s₁, settled, states, data,
        _, _, hthread, hacting, hleaving, hedge, hext, htaken, hout, hmoved, _, _, _, _, hcompleted,
        _⟩
    have ht := (thread_ok s index t).mp hthread
    have htarget := k.app.actor_of_leaving s t edges hleaving (hs t (List.mem_of_getElem? ht)) edge
      hedge
    have htook := Scheduler.atHome_of_gives_follow s index edge.1 edge.2 t actor k₁ k₂ outcomes ht
      ((App.actorNamed_of_extends _ _ hext _).trans hacting) htarget htaken (s₁, settled) hout hs
    refine Scheduler.kept_of_completed Thread.AtHome (fun _ _ h => ⟨h.place, h.calls⟩)
      (fun app v entry hentry _ => app.atHome_of_entryPlace v entry hentry)
      (fun _ _ h => ⟨h.place, h.calls⟩) c app₁ app₂ actor.concern s₁ s' index t₁ data hcompleted ?_
    intro v hv
    rcases List.mem_or_eq_of_mem_set hv with hv | rfl
    · exact htook v hv
    · have hhome := htook t₁ (List.mem_of_getElem? ((thread_ok s₁ index t₁).mp hmoved))
      exact ⟨hhome.place, hhome.calls⟩

end ActorCheck

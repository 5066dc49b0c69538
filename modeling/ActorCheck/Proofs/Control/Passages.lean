import ActorCheck.Proofs.Control.Courses
import ActorCheck.Proofs.Control.Identities

/-!
# One Thread through a Step

What a step does to a single thread. While the statement of another thread is interpreted it may
hear a message, and then it goes through the end of the step like all others. The thread that takes
the step goes through it from where its statement has left it.

All of this is said of the program when the step is over. An invariant about single threads goes
through these ways and need not look at the phases of a step, nor at the program in between.

## Main definitions

* `Move.Sends`: The statement of a move sends a message.

## Theorems

* `Scheduler.bystander_of_effect`: What a statement does to the other threads.
* `Scheduler.ended_of_passage`: All threads at the end of a move.
* `Scheduler.stepper_of_passage`, `Scheduler.bystander_of_passage`: One thread through a step.
-/

namespace ActorCheck

/-- The statement of a move sends a message. -/
def Move.Sends {σ : Type} (m : Move σ) (message : Message) : Prop :=
  m.edge.1.statement = .broadcast message ∨ m.edge.1.statement = .broadcastAndWait message

namespace Scheduler

variable {σ : Type}

/-- What a statement does to a thread that does not execute it. -/
theorem bystander_of_effect (before after : App) (s s' : ControlState σ) (index : Nat) (t : Thread)
    (statement : Statement) (h : Effect before after s index t statement s') (i : Nat)
    (hne : index ≠ i) (u : Thread) (hu : s.threads[i]? = some u) :
    ∃ v, s'.threads[i]? = some v ∧ (v = u ∨ ∃ m, (statement = .broadcast m
      ∨ statement = .broadcastAndWait m) ∧ before.Heard m u v) := by
  -- A statement that only changes the thread that executes it leaves this one as it was.
  have hset : ∀ v : Thread, (s.threads.set index v)[i]? = some u := fun v =>
    (List.getElem?_set_ne hne).trans hu
  have hsent : ∀ m threads receivers, before.broadcast m s.threads = .ok (threads, receivers) →
      ∃ v, threads[i]? = some v ∧ before.Heard m u v := fun m threads receivers hbroadcast =>
    getElem?_of_forall₂_left _ _ _ (before.heard_of_broadcast m _ threads receivers hbroadcast).1 i
      u hu
  cases h with
  | unchanged => exact ⟨u, hu, Or.inl rfl⟩
  | signalled properties => exact ⟨u, hset _, Or.inl rfl⟩
  | opened => exact ⟨u, hset _, Or.inl rfl⟩
  | closed inside => exact ⟨u, hset _, Or.inl rfl⟩
  | entered method args result v same waitingFor status => exact ⟨u, hset _, Or.inl rfl⟩
  | returned result v same waitingFor status => exact ⟨u, hset _, Or.inl rfl⟩
  | sent m threads receivers broadcast =>
      rcases hsent m threads receivers broadcast with ⟨v, hv, hheard⟩
      exact ⟨v, hv, Or.inr ⟨m, Or.inl rfl, hheard⟩⟩
  | unheard m threads broadcast =>
      rcases hsent m threads ∅ broadcast with ⟨v, hv, hheard⟩
      exact ⟨v, hv, Or.inr ⟨m, Or.inr rfl, hheard⟩⟩
  -- The sender is set to wait after the message was sent, and it is another thread.
  | asked m threads receivers sender broadcast others heard known =>
      rcases hsent m threads receivers broadcast with ⟨v, hv, hheard⟩
      exact ⟨v, (List.getElem?_set_ne hne).trans hv, Or.inr ⟨m, Or.inr rfl, hheard⟩⟩
  | paused args result checker ops new below ready => exact ⟨u, hset _, Or.inl rfl⟩
  | resolved v e name => exact ⟨u, hu, Or.inl rfl⟩

section Passages

variable [DecidableEq σ] (c : Control σ) (k k' : Scheduler) (m : Move σ) (w : Passage c k k' m)

/-- The thread that takes a step is still the same one after its statement. -/
theorem same_of_passage : w.t.Same w.t₁ :=
  ControlState.same_of_kin m.source w.s₁
    (kin_of_gives_follow m.source m.index _ _ w.t _ _ _ w.thread w.followed (w.s₁, w.settled)
      (List.mem_append_right _ List.mem_cons_self)) m.index w.t w.t₁ w.thread w.moved

include w in
/-- A thread after a move was there before it. -/
theorem source_of_passage (i : Nat) (u : Thread) (hu : m.target.threads[i]? = some u) :
    ∃ t, m.source.threads[i]? = some t ∧ t.Same u :=
  getElem?_of_forall₂_right _ _ _ (kin_of_step c _ _ _ _ (step_of_passage c k k' m w)) i u hu

variable (hdrawn : k.app.RelationsDrawn)

include hdrawn

/-- The threads at the end of a move, the one that has taken the step included. -/
theorem ended_of_passage : List.Forall₂ (k'.app.Ended w.actor.concern)
    (w.s₁.setThread m.index { w.t₁ with operations := [] }).threads m.target.threads
      ∧ m.target.targetFor = w.s₁.targetFor := by
  -- The program grows while the step is prepared and executed. Relations are drawn in all of these
  -- programs, so what held in one of them still holds at the end.
  rcases related_of_passage additive_extends c k k' m w with ⟨hext₁, hext₂, hext₄, hext₅⟩
  have hdrawn₄ := App.relationsDrawn_of_extends k.app w.k₄.app (App.extends_trans _ _ _
    (App.extends_trans _ _ _ hext₁ hext₂) hext₄) hdrawn
  have hdrawn₅ := App.relationsDrawn_of_extends _ _ hext₅ hdrawn₄
  have hended := ended_of_completed c w.k₄.app w.k₅.app w.actor.concern w.s₁ m.target m.index w.t₁
    w.data hext₅ hdrawn₄ (completed_of_gives_complete c w.s₁ m.index w.t₁ w.actor.concern w.data
      w.k₄ w.k₅ w.next w.completed m.target w.reached)
  exact ⟨hended.1.imp fun t u h => App.ended_of_extends _ _ w.grown hdrawn₅ t u w.actor.concern h,
    hended.2⟩

/-- The thread that takes a step, after its statement was interpreted. -/
theorem stepper_of_passage : ∃ u, m.target.threads[m.index]? = some u
    ∧ k'.app.Ended w.actor.concern { w.t₁ with operations := [] } u := by
  refine getElem?_of_forall₂_left _ _ _ (ended_of_passage c k k' m w hdrawn).1 m.index _ ?_
  exact List.getElem?_set_self (List.getElem?_eq_some_iff.mp w.moved).1

/-- A thread that does not take the step, from what the statement has left of it. -/
theorem rest_of_passage (i : Nat) (hne : m.index ≠ i) (v : Thread)
    (hv : w.s₁.threads[i]? = some v) :
    ∃ u, m.target.threads[i]? = some u ∧ k'.app.Ended w.actor.concern v u :=
  getElem?_of_forall₂_left _ _ _ (ended_of_passage c k k' m w hdrawn).1 i v
    ((List.getElem?_set_ne hne).trans hv)

/-- A thread that does not take the step. It may hear a message before the step ends. -/
theorem bystander_of_passage (i : Nat) (hne : m.index ≠ i) (t : Thread)
    (ht : m.source.threads[i]? = some t) :
    ∃ v u, (v = t ∨ ∃ message, m.Sends message ∧ k'.app.Heard message t v)
      ∧ m.target.threads[i]? = some u ∧ k'.app.Ended w.actor.concern v u := by
  rcases related_of_passage additive_extends c k k' m w with ⟨hext₁, hext₂, hext₄, hext₅⟩
  have hdrawn₁ := App.relationsDrawn_of_extends k.app w.k₁.app hext₁ hdrawn
  have hext := App.extends_trans _ _ _ (App.extends_trans _ _ _ hext₂ hext₄)
    (App.extends_trans _ _ _ hext₅ w.grown)
  rcases effect_of_passage c k k' m w with ⟨loops, heffect⟩
  -- The effect is one on the state in which the acting thread has already moved.
  have hmoved : (m.source.setThread m.index
      { w.t with loops := loops, place := m.edge.2 }).threads[i]? = some t :=
    (List.getElem?_set_ne hne).trans ht
  rcases bystander_of_effect _ _ _ w.s₁ m.index _ _ heffect i hne t hmoved with ⟨v, hv, hheard⟩
  rcases rest_of_passage c k k' m w hdrawn i hne v hv with ⟨u, hu, hended⟩
  refine ⟨v, u, hheard.imp_right ?_, hu, hended⟩
  rintro ⟨message, hsends, hheard⟩
  exact ⟨message, hsends, App.heard_of_extends w.k₁.app k'.app hext hdrawn₁ t v message hheard⟩

end Passages

end Scheduler

end ActorCheck

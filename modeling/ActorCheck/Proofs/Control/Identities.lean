import ActorCheck.Proofs.Control.Effects
import ActorCheck.Proofs.Control.Phases

/-!
# Threads Keep Their Places in the List

A step changes what threads do and never which threads there are. The thread at an index has
the same number, the same actor and the same script after a step as before it, so an index
stands for a thread throughout a run.

Every phase changes threads one by one, and `Kin` is what remains true of the whole list.

## Main definitions

* `ControlState.Kin`: The same threads at another time.

## Theorems

* `Scheduler.kin_of_effect`: Every statement keeps every thread in its place.
* `Scheduler.kin_of_woken`: So does waking up.
* `Scheduler.kin_of_step`: So does a step.
-/

namespace ActorCheck

namespace ControlState

variable {σ : Type}

/-- The same threads, each in its place in the list, at another time. -/
def Kin (s u : ControlState σ) : Prop := List.Forall₂ Thread.Same s.threads u.threads

theorem kin_refl (s : ControlState σ) : s.Kin s := List.forall₂_same.mpr fun t _ => same_refl t

theorem kin_trans (s u v : ControlState σ) (h : s.Kin u) (h' : u.Kin v) : s.Kin v :=
  forall₂_trans Thread.Same same_trans _ _ _ h h'

theorem kin_of_setThread (s : ControlState σ) (index : Nat) (t u : Thread)
    (ht : s.threads[index]? = some t) (h : t.Same u) : s.Kin (s.setThread index u) :=
  forall₂_set Thread.Same s.threads (fun v _ => same_refl v) index t u ht h

theorem length_of_kin (s u : ControlState σ) (h : s.Kin u) : u.threads.length = s.threads.length :=
  (List.Forall₂.length_eq h).symm

/-- The thread at an index, before and after. -/
theorem same_of_kin (s u : ControlState σ) (h : s.Kin u) (i : Nat) (t v : Thread)
    (ht : s.threads[i]? = some t) (hv : u.threads[i]? = some v) : t.Same v :=
  related_of_forall₂ Thread.Same s.threads u.threads h i t v ht hv

end ControlState

namespace Scheduler

variable {σ : Type}

/-- Every statement keeps the threads in their places. -/
theorem kin_of_effect (before after : App) (s u : ControlState σ) (index : Nat) (t : Thread)
    (statement : Statement) (ht : s.threads[index]? = some t)
    (h : Effect before after s index t statement u) : s.Kin u := by
  -- Whether anybody waits for an answer or not, a message is sent to all in the same way.
  have hsent : ∀ m threads receivers, before.broadcast m s.threads = .ok (threads, receivers) →
      List.Forall₂ Thread.Same s.threads threads := fun m threads receivers hbroadcast =>
    (before.heard_of_broadcast m _ threads receivers hbroadcast).1.imp fun v w hvw =>
      before.same_of_heard v w m hvw
  cases h with
  | unchanged => exact s.kin_refl
  | signalled properties => exact s.kin_of_setThread index t _ ht ⟨rfl, rfl, rfl⟩
  | opened => exact s.kin_of_setThread index t _ ht ⟨rfl, rfl, rfl⟩
  | closed => exact s.kin_of_setThread index t _ ht ⟨rfl, rfl, rfl⟩
  | entered _ _ _ v hsame => exact s.kin_of_setThread index t v ht hsame
  | returned _ v hsame => exact s.kin_of_setThread index t v ht hsame
  | sent m threads receivers hbroadcast => exact hsent m threads receivers hbroadcast
  | unheard m threads hbroadcast => exact hsent m threads ∅ hbroadcast
  -- The only statement that changes threads twice: all of them by the message, and then its sender.
  | asked m threads receivers sender hbroadcast _ _ hknown =>
      exact ControlState.kin_trans s { s with threads := threads } _
        (hsent m threads receivers hbroadcast)
        (ControlState.kin_of_setThread _ index sender _ hknown ⟨rfl, rfl, rfl⟩)
  | paused args result checker ops =>
      exact s.kin_of_setThread index t _ ht ⟨rfl, rfl, rfl⟩
  | resolved => exact s.kin_refl

/-- Taking an edge keeps the threads in their places. -/
theorem kin_of_gives_follow (s : ControlState σ) (index : Nat) (op : Operation) (target : Place)
    (t : Thread) (k k' : Scheduler) (outcomes : List (ControlState.Outcome σ))
    (ht : s.threads[index]? = some t) (h : Gives (follow s index op target) k outcomes k') :
    ∀ o ∈ outcomes, s.Kin o.1 := by
  rcases effect_of_gives_follow s index op target t k k' outcomes ht h with ⟨loops, heffect⟩
  have hmoved : s.Kin (s.setThread index { t with loops := loops, place := target }) :=
    s.kin_of_setThread index t _ ht ⟨rfl, rfl, rfl⟩
  intro o ho
  exact s.kin_trans _ o.1 hmoved (kin_of_effect k.app k'.app _ o.1 index _ op.statement
    (List.getElem?_set_self (List.getElem?_eq_some_iff.mp ht).1) (heffect o ho))

theorem kin_of_passTurn (app : App) (s s' : ControlState σ) (index : Nat)
    (h : app.passTurn s index = .ok s') : s.Kin s' :=
  (app.turns_of_passTurn s s' index h).1.imp app.same_of_turned

variable [DecidableEq σ]

/-- Waking up keeps the threads in their places. -/
theorem kin_of_woken (c : Control σ) (before after : App) (concern : Concern)
    (s u : ControlState σ) (h : Woken c before after concern s u) : s.Kin u := by
  rcases h with ⟨started, released, hstart, hrelease, hcheck⟩
  have hstarted := (before.started_of_startMonitors concern _ started hstart).imp
    fun v w hvw => before.same_of_started v w concern hvw
  have hreleased := (before.relieved_of_releaseWaiting started released hrelease).imp
    before.same_of_relieved
  have hchecked := (surveyed_of_checked c after _ u hcheck).threads.imp after.same_of_relieved
  exact forall₂_trans Thread.Same same_trans _ _ _
    (forall₂_trans Thread.Same same_trans _ _ _ hstarted hreleased) hchecked

/-- A step keeps the threads in their places. -/
theorem kin_of_step (c : Control σ) (before after : App) (s s' : ControlState σ)
    (h : Step c before after s s') : s.Kin s' := by
  -- The step is taken apart into its phases. Each of them keeps the threads in their places, and
  -- the relation is transitive.
  rcases h with ⟨index, t, t₁, actor, edges, edge, k₁, k₂, app₁, app₂, outcomes, s₁, settled,
    states, data, _, _, hthread, _, _, _, _, htaken, houtcome, hmoved, _, _, _, _,
    ⟨threads, u, hfinish, hwoken, hturn⟩, _⟩
  rw [thread_ok] at hthread hmoved
  have hfollow :=
    kin_of_gives_follow s index edge.1 edge.2 t k₁ k₂ outcomes hthread htaken _ houtcome
  have hcleared := s₁.kin_of_setThread index t₁ { t₁ with operations := [] } hmoved ⟨rfl, rfl, rfl⟩
  have hfinished : s₁.Kin (afterStep s₁ index threads data) :=
    forall₂_trans Thread.Same same_trans _ _ _ hcleared
      ((app₁.finished_of_finishThreads _ threads hfinish).imp app₁.same_of_finished)
  exact s.kin_trans _ s' hfollow (s₁.kin_trans _ s' hfinished
    (ControlState.kin_trans _ u s' (kin_of_woken c app₁ app₂ actor.concern _ u hwoken)
      (kin_of_passTurn app₂ u s' index hturn)))

end Scheduler

end ActorCheck

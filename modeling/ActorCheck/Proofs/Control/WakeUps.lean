import ActorCheck.Proofs.Control.Session
import ActorCheck.Proofs.Control.Statements
import ActorCheck.Proofs.Control.StepCases
import ActorCheck.Proofs.Control.Turns
import ActorCheck.Proofs.Program.Drafts

/-!
# No Lost Wake-Ups

In every state that an exploration finds, whoever waits waits for somebody. Each
number it waits for belongs to a thread of the state that is not done yet, or to
a condition thread of the state. Every condition thread is waited for by exactly
one thread, and that one is in `Wait`. So no wait is left behind without anybody
who could end it.

The invariant is `Awaiting`. It does not hold in the middle of a step: a thread
may have come to the end of its relation while others still wait for it. The
proof follows the phases of a step, with `Coherent` after the statement and
`Released` once the threads that are done were taken off the waiting sets, and
only the evaluation of conditions brings `Awaiting` back.

A wait need not be over when a thread is done. If nothing follows the statement
that sets up a wait, the thread counts as done while its waiting set still has
members. `waits_iff_leaves` says that this is the only way in which it can
happen.

## Main definitions

* `ControlState.Answered`: Every wait has somebody who can end it.
* `relay`: A program in which waits depend on each other.

## Theorems

* `Scheduler.awaiting_of_step`: A step keeps every wait.
* `Session.awaiting_of_explored`: Every wait is for somebody who is there.
* `Session.no_lost_wakeUps`: The same in terms of threads and numbers.
* `Session.waits_iff_leaves`: Where threads with waiting sets stand.
* `Session.done_while_waiting`: A thread can be done before its wait is over.
-/

namespace ActorCheck

namespace Scheduler

variable {σ : Type}

theorem awaiting_of_extends (a b : App) (h : a.Extends b) (hdrawn : a.RelationsDrawn)
    (s : ControlState σ) (hs : a.Awaiting s) : b.Awaiting s :=
  ⟨App.linked_of_extends a s.threads s.conditions b h hdrawn hs.linked,
    fun t ht hwait => App.hasLeaving_of_extends a b h hdrawn t true (hs.leaves t ht hwait),
    hs.live, hs.checking, hs.waited⟩

theorem coherent_of_awaiting (app : App) (s : ControlState σ) (h : app.Awaiting s) :
    app.Coherent s :=
  ⟨h.linked, h.checking⟩

/-- A thread forgets what the data analysis has performed for it. -/
theorem coherent_of_cleared (app : App) (s : ControlState σ) (hs : app.Coherent s) (index : Nat)
    (t : Thread) (ht : s.threads[index]? = some t) :
    app.Coherent (s.setThread index { t with operations := [] }) := by
  have horderly := hs.linked.orderly t (List.mem_of_getElem? ht)
  refine app.coherent_of_setThread s hs index t _ ht ⟨⟨rfl, rfl, rfl⟩, fun _ hid => hid,
    fun hwait => hwait, horderly.waiting, horderly.idle⟩

variable [DecidableEq σ]

/-- The conditions are looked at last. -/
theorem awaiting_of_checked (c : Control σ) (app : App) (s u : ControlState σ)
    (hr : app.Released s.threads s.conditions) (hcheck : ∀ q ∈ s.conditions, q.status ≠ .done)
    (h : Checked c app s u) : app.Awaiting u ∧ ∀ t ∈ u.threads, app.Going t := by
  -- Evaluating the conditions says itself which waits are left.
  cases h with
  | none hempty hsame =>
      rw [hsame]
      -- Without condition threads the waits are as they were.
      have hnone : ∀ q, q ∉ s.conditions := by
        rw [List.isEmpty_iff.mp hempty]
        exact fun q => List.not_mem_nil
      refine ⟨⟨hr.linked, ?_, hr.live, hcheck, fun q hq => absurd hq (hnone q)⟩, hr.going⟩
      exact fun t ht hwait => app.leaves_of_waiting t (hr.going t ht) hwait
  | evaluated data found heval hu =>
      exact awaiting_of_evaluateConditions c app { s with data := data } found hr hcheck heval u hu

theorem awaiting_of_completed (c : Control σ) (before after : App) (concern : Concern)
    (s s' : ControlState σ) (index : Nat) (t : Thread) (data : σ)
    (hextends : before.Extends after) (hdrawn : before.RelationsDrawn) (hs : before.Coherent s)
    (ht : s.threads[index]? = some t) (h : Completed c before after concern s index t data s') :
    after.Awaiting s' := by
  rcases h with ⟨threads, u, hfinish, ⟨started, released, hstart, hrelease, hchecked⟩, hturn⟩
  have hcleared := coherent_of_cleared before s hs index t ht
  have hreleased := App.released_of_phases before concern _ threads started released s.conditions
    hcleared.linked hfinish hstart hrelease
  rcases awaiting_of_checked c after { afterStep s index threads data with threads := released } u
    (App.released_of_extends before after hextends hdrawn released s.conditions hreleased)
    hs.checking hchecked with ⟨hawaiting, hgoing⟩
  exact App.awaiting_of_passTurn after u s' index hawaiting hgoing hturn

/-- A step keeps every wait. -/
theorem awaiting_of_step (c : Control σ) (before after : App) (s s' : ControlState σ)
    (hdrawn : before.RelationsDrawn) (hs : before.Awaiting s) (h : Step c before after s s') :
    after.Awaiting s' := by
  rcases h with ⟨index, t, t₁, actor, edges, edge, k₁, k₂, app₁, app₂, outcomes, s₁, settled,
    states, data, _, hrunning, hthread, _, _, _, hedge, htaken, houtcome, hmoved, _, _, hend,
    hwaking, hcompleted, hafter⟩
  rw [thread_ok] at hthread hmoved
  -- The program may have grown before each phase, so everything known is carried along.
  have hdrawn₁ := App.relationsDrawn_of_extends before k₁.app hedge hdrawn
  have hdrawn₂ := App.relationsDrawn_of_extends k₁.app k₂.app
    (extends_of_gives _ (grows_follow s index edge.1 edge.2) k₁ k₂ outcomes htaken) hdrawn₁
  have hdrawn₃ := App.relationsDrawn_of_extends k₂.app app₁ hend hdrawn₂
  have hs₁ :=
    App.coherent_of_extends before k₁.app hedge hdrawn s (coherent_of_awaiting before s hs)
  -- The statement is interpreted, and the step is completed.
  have hs₂ := coherent_of_gives_follow s index edge.1 edge.2 t k₁ k₂ outcomes hdrawn₁ hs₁ hthread
    (s.isRunning_of_running index t hrunning hthread) htaken (s₁, settled) houtcome
  have hs₃ := awaiting_of_completed c app₁ app₂ actor.concern s₁ s' index t₁ data hwaking hdrawn₃
    (App.coherent_of_extends k₂.app app₁ hend hdrawn₂ s₁ hs₂) hmoved hcompleted
  exact awaiting_of_extends app₂ after hafter
    (App.relationsDrawn_of_extends app₁ app₂ hwaking hdrawn₃) s' hs₃

end Scheduler

/-- Every wait has somebody who can end it. A thread in `Wait` waits for somebody.
    Everybody it waits for is a thread that is not done or a condition thread. Every
    condition thread is waited for by exactly one thread, which is in `Wait`. -/
structure ControlState.Answered {σ : Type} (s : ControlState σ) : Prop where
  waiting : ∀ t ∈ s.threads, t.status = .wait → t.waitingFor ≠ ∅
  awaited : ∀ t ∈ s.threads, t.status = .wait → ∀ id, id ∈ t.waitingFor →
    (∃ u ∈ s.threads, u.id = id ∧ u.status ≠ .done) ∨ ∃ q ∈ s.conditions, q.id = id
  checked : ∀ q ∈ s.conditions, ∃ (i : Nat) (t : Thread), s.threads[i]? = some t
    ∧ t.status = .wait ∧ q.id ∈ t.waitingFor
    ∧ ∀ (j : Nat) (u : Thread), s.threads[j]? = some u → q.id ∈ u.waitingFor → j = i

/-- Somebody asks and waits for the answer. The one who answers waits as well before
    going on with the rest. A helper stands by. -/
def relay (wait : Statement) (rest : List Statement) : AppDraft where
  name := "relay"
  relations := [
    .sequence [.broadcastAndWait ⟨.str "app", .str "ask"⟩, .epsilon],
    .sequence (wait :: rest),
    .sequence [.epsilon, .epsilon]]
  actors := [
    ⟨"asker", .program, none, [], [], [], [(.bootstrap, 0)]⟩,
    ⟨"answerer", .program, none, [], [], [], [(.messageReceived "ask" "app", 1)]⟩,
    ⟨"helper", .program, none, [], [], [], [(.messageReceived "help" "app", 2)]⟩]

/-- Waiting for some seconds. -/
def pausing (seconds : Int64) : Statement := .call Builtin.waitSeconds [.num seconds] none

/-- Waiting for the helper. -/
def asking : Statement := .broadcastAndWait ⟨.str "app", .str "help"⟩

/-- The data analysis to which all statements and conditions are the same. -/
def Control.indifferent : Control Unit := ⟨⟨fun s _ _ => .ok [s], fun _ => true⟩, .default⟩

/-- The relay after a number of steps. -/
def relaySession (wait : Statement) (rest : List Statement) : Nat → Session Unit
  | 0 => (Session.new ((relay wait rest).build.run (App.new "relay")).2).start ()
  | n + 1 => (relaySession wait rest n).expandLast .indifferent

theorem explored_relaySession (wait : Statement) (rest : List Statement) (n : Nat) :
    Session.Explored .indifferent ((relay wait rest).build.run (App.new "relay")).2
      (relaySession wait rest n) := by
  induction n with
  | zero => exact .start _ () .new
  | succ n ih => exact Session.explored_of_expandLast _ _ _ ih

namespace Session

variable {σ : Type} [DecidableEq σ]

/-- Every wait in a state that was found is for somebody who is there. -/
theorem awaiting_of_explored (c : Control σ) (app : App) (hdrawn : app.RelationsDrawn)
    (x : Session σ) (h : Explored c app x) : ∀ s ∈ x.found, x.scheduler.app.Awaiting s := by
  -- It remains to show that the waits stay answered when the program grows, at the start and in a
  -- step.
  refine invariant_of_explored c app (fun app s => app.Awaiting s) ?_ ?_ ?_ x h
  · intro a b s ha hab hs
    exact Scheduler.awaiting_of_extends a b hab (App.relationsDrawn_of_extends app a ha hdrawn) s hs
  · intro k k' data s _ hgives
    exact Scheduler.awaiting_of_gives_startState data k k' s hgives
  · intro k k' s next hk hs hgives s' hs'
    exact Scheduler.awaiting_of_step c k.app k'.app s s'
      (App.relationsDrawn_of_extends app k.app hk hdrawn) hs
      (Scheduler.step_of_gives_successors c s s' k k' next hgives hs')

/-- In every state that was found, every wait has somebody who can end it. -/
theorem no_lost_wakeUps (c : Control σ) (app : App) (hdrawn : app.RelationsDrawn)
    (x : Session σ) (h : Explored c app x) (s : ControlState σ) (hs : s ∈ x.found) :
    s.Answered := by
  have hawaiting := awaiting_of_explored c app hdrawn x h s hs
  refine ⟨?_, ?_, ?_⟩
  · exact fun t ht hwait => (hawaiting.linked.orderly t ht).waiting hwait
  · intro t ht hwait id hid
    refine (hawaiting.linked.reference t ht hwait id hid).imp_left ?_
    rintro ⟨u, hu, huid, _⟩
    exact ⟨u, hu, huid, hawaiting.live t ht hwait id hid u hu huid⟩
  · intro q hq
    rcases hawaiting.waited q hq with ⟨t, ht, hwait, hid⟩
    rcases List.getElem?_of_mem ht with ⟨i, hi⟩
    refine ⟨i, t, hi, hwait, hid, fun j u hj hu => ?_⟩
    exact hawaiting.linked.single q hq j i u t hj hi hu hid

/-- The answerer waits for a second, and a condition thread looks whether it is over. -/
theorem no_lost_wakeUps_relay : ∃ s ∈ (relaySession (pausing 1) [.epsilon] 2).found,
    s.conditions ≠ [] ∧ s.Answered := by
  have hfound : ∃ s ∈ (relaySession (pausing 1) [.epsilon] 2).found, s.conditions ≠ [] := by
    decide +kernel
  rcases hfound with ⟨s, hs, hconditions⟩
  exact ⟨s, hs, hconditions, no_lost_wakeUps .indifferent _ (App.relationsDrawn_of_draft _ _) _
    (explored_relaySession _ _ _) s hs⟩

/-- In every state that was found, a thread whose waiting set has members is in
    `Wait` if something leaves its place, and is done if nothing does. -/
theorem waits_iff_leaves (c : Control σ) (app : App) (hdrawn : app.RelationsDrawn)
    (x : Session σ) (h : Explored c app x) (s : ControlState σ) (hs : s ∈ x.found)
    (t : Thread) (ht : t ∈ s.threads) (hne : t.waitingFor ≠ ∅) :
    (t.status = .wait ∧ x.scheduler.app.hasLeaving t = .ok true)
      ∨ (t.status = .done ∧ x.scheduler.app.hasLeaving t = .ok false) := by
  have hawaiting := awaiting_of_explored c app hdrawn x h s hs
  rcases (hawaiting.linked.orderly t ht).idle hne with hwait | hdone
  · exact Or.inl ⟨hwait, hawaiting.leaves t ht hwait⟩
  · exact Or.inr hdone

/-- The answerer waits for the helper and has nothing left to do after that. -/
theorem waits_iff_leaves_relay : ∃ s ∈ (relaySession asking [] 2).found, ∃ t ∈ s.threads,
    t.waitingFor ≠ ∅
      ∧ ((t.status = .wait ∧ (relaySession asking [] 2).scheduler.app.hasLeaving t = .ok true)
        ∨ (t.status = .done
          ∧ (relaySession asking [] 2).scheduler.app.hasLeaving t = .ok false)) := by
  have hfound : ∃ s ∈ (relaySession asking [] 2).found, ∃ t ∈ s.threads, t.waitingFor ≠ ∅ := by
    decide +kernel
  rcases hfound with ⟨s, hs, t, ht, hne⟩
  exact ⟨s, hs, t, ht, hne, waits_iff_leaves .indifferent _ (App.relationsDrawn_of_draft _ _) _
    (explored_relaySession _ _ _) s hs t ht hne⟩

/-- A thread whose waiting set has members need not be in `Wait`: nothing may follow
    the statement that has set up the wait. -/
theorem done_while_waiting : ¬ ∀ (c : Control Unit) (app : App) (x : Session Unit),
    app.RelationsDrawn → Explored c app x → ∀ s ∈ x.found, ∀ t ∈ s.threads,
      t.waitingFor ≠ ∅ → t.status = .wait := by
  intro h
  have hfound : ∃ s ∈ (relaySession asking [] 2).found, ∃ t ∈ s.threads,
      t.waitingFor ≠ ∅ ∧ t.status ≠ .wait := by
    decide +kernel
  rcases hfound with ⟨s, hs, t, ht, hne, hstatus⟩
  exact hstatus (h .indifferent _ _ (App.relationsDrawn_of_draft _ _)
    (explored_relaySession _ _ _) s hs t ht hne)

end Session

end ActorCheck

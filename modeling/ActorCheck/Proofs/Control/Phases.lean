import ActorCheck.Proofs.Control.StepCases
import ActorCheck.Proofs.Control.Turns

/-!
# The End of a Step, Thread by Thread

After its statement was interpreted a step goes through the phases that concern all threads.
Those before the conditions are looked at and the last one, in which the turn is passed, change
threads one by one. The conditions are evaluated in a row, each in every state that the ones before
have led to, and a thread waits for one of them at most. So a thread is relieved once, from what it
was when the evaluation began.

## Main definitions

* `App.Roused`: A thread at the end of a step, before the turn is passed.
* `App.Surveyed`: A state after some of its conditions were evaluated.

## Theorems

* `App.turns_of_passTurn`: What passing the turn does to the threads.
* `Scheduler.surveyed_of_checked`: What looking at the conditions does to the threads.
* `Scheduler.kept_of_completed`: What every phase keeps.
* `Scheduler.roused_of_completed`: What happens to the threads before the turn is passed.
* `Scheduler.ended_of_completed`: What the end of a step does to the threads.
* `Scheduler.turned_of_gives_startState`: The start of a program.
-/

namespace ActorCheck

namespace App

/-- A thread at the end of a step of a concern, before the turn is passed. -/
inductive Roused (app : App) (concern : Concern) (t u : Thread) : Prop where
  | intro (finished started : Thread) (finish : app.Finished t finished)
      (start : app.Started concern finished started) (relieve : app.Relieved started u)

/-- A state after some of its conditions were evaluated. Threads may have been relieved, and no
    condition thread is new. -/
structure Surveyed {σ : Type} (app : App) (s u : ControlState σ) : Prop where
  threads : List.Forall₂ app.Relieved s.threads u.threads
  conditions : ∀ q ∈ u.conditions, ∃ p ∈ s.conditions, p.Same q
  targetFor : u.targetFor = s.targetFor

variable {σ : Type} (app : App)

theorem surveyed_refl (s : ControlState σ) : app.Surveyed s s :=
  ⟨List.forall₂_same.mpr fun t _ => app.relieved_refl t, fun q hq => ⟨q, hq, same_refl q⟩, rfl⟩

/-- Choosing the next thread changes one thread at most. -/
theorem turns_of_grantTurn (s s' : ControlState σ) (stepped : Nat)
    (h : app.grantTurn s stepped = .ok s') :
    List.Forall₂ app.Turned s.threads s'.threads ∧ s'.targetFor = s.targetFor := by
  rcases app.turned_of_grantTurn s s' stepped h with rfl | ⟨index, t, ht, hactive, hleaves, rfl⟩
  · exact ⟨List.forall₂_same.mpr fun t _ => .kept, rfl⟩
  · exact ⟨forall₂_set app.Turned s.threads (fun v _ => .kept) index t _ ht
      (.granted hactive hleaves), rfl⟩

/-- A thread that gives its turn away may be granted it again at once. -/
theorem turned_of_giveTurnAway (t u : Thread) (more : Bool)
    (hmore : app.hasLeaving t = .ok more) (h : app.Turned (giveTurnAway more t) u) :
    app.Turned t u := by
  -- A thread that has stopped runs no more and cannot be granted a turn. One that pauses may be,
  -- and then it is as if it had been granted its turn from the start.
  rcases giveTurnAway_cases more t with ⟨rfl, hactive, heq⟩ | ⟨rfl, hrun, heq⟩ | ⟨_, heq⟩
  · rw [heq] at h
    cases h with
    | kept => exact .stopped hactive hmore
    | paused runs => cases runs
    | stopped active _ => exact absurd active (not_or.mpr ⟨nofun, nofun⟩)
    | granted active _ => exact absurd active (not_or.mpr ⟨nofun, nofun⟩)
  · rw [heq] at h
    cases h with
    | kept => exact .paused hrun
    | paused runs => cases runs
    -- To stop it would have to have no way to go on, but it pauses because it has one.
    | stopped _ stays =>
        have hnone := (app.hasLeaving_of_place t _ rfl).symm.trans stays
        rw [hmore] at hnone
        cases hnone
    | granted _ leaves => exact .granted (Or.inl hrun) hmore
  · rwa [heq] at h

theorem turns_of_passTurn (s s' : ControlState σ) (stepped : Nat)
    (h : app.passTurn s stepped = .ok s') :
    List.Forall₂ app.Turned s.threads s'.threads ∧ s'.targetFor = s.targetFor := by
  rcases app.turned_of_passTurn s s' stepped h with ⟨t, more, ht, hmore, _, ⟨rfl, _⟩ | hgrant⟩
  · exact ⟨List.forall₂_same.mpr fun t _ => .kept, rfl⟩
  · have hgiven := forall₂_set (fun v w => w = v ∨ (v = t ∧ w = giveTurnAway more t)) s.threads
      (fun v _ => Or.inl rfl) stepped t (giveTurnAway more t) ht (Or.inr ⟨rfl, rfl⟩)
    rcases app.turns_of_grantTurn _ s' stepped hgrant with ⟨hturns, htarget⟩
    -- What is given away and what is granted are two relations in a row, here put together thread
    -- by thread.
    refine ⟨(forall₂_comp _ _ s.threads _ s'.threads hgiven hturns).imp ?_, htarget⟩
    rintro v w ⟨_, rfl | ⟨rfl, rfl⟩, hturned⟩
    · exact hturned
    · exact app.turned_of_giveTurnAway v w more hmore hturned

end App

namespace Scheduler

variable {σ : Type}

section Waking

/-- The evaluation of one condition. The thread that waits for it is still as it was. -/
theorem surveyed_of_judged (app : App) (s a b : ControlState σ) (waiter : Nat) (checker : ThreadId)
    (t : Thread) (ha : app.Surveyed s a) (ht : s.threads[waiter]? = some t)
    (hwait : t.status = .wait) (h : Judged app a waiter checker t b) : app.Surveyed s b := by
  cases h with
  | fails data => exact ⟨ha.threads, ha.conditions, ha.targetFor⟩
  -- The condition is marked, and the waiting thread is relieved of it. All other threads and
  -- conditions stay.
  | holds data position q u hq _ hrelease =>
      have hrelieved := app.relieved_of_reduced _ t u
        (app.reduced_of_conditionHolds t u checker hwait hrelease)
        fun id hid => ((mem_erase_iff _ _ id).mp hid).2
      refine ⟨forall₂_set_right app.Relieved _ _ ha.threads waiter t u ht hrelieved, fun r hr => ?_,
        ha.targetFor⟩
      rcases List.mem_or_eq_of_mem_set hr with hr | rfl
      · exact ha.conditions r hr
      · rcases ha.conditions q (List.mem_of_getElem? hq) with ⟨p, hp, hsame⟩
        exact ⟨p, hp, same_trans p q _ hsame ⟨rfl, rfl, rfl⟩⟩

variable [DecidableEq σ]

/-- The evaluation of all pending conditions. The threads whose conditions are left are still as
    they were, since a thread waits for one condition at most. -/
theorem surveyed_of_evaluateConditions (c : Control σ) (app : App) (s u : ControlState σ)
    (found : List (ControlState σ)) (h : evaluateConditions c app s = .ok found) (hu : u ∈ found) :
    app.Surveyed s u := by
  rcases pending_of_evaluateConditions c app s u found h hu with
    ⟨pending, alternatives, b, hpending, halternatives, hb, rfl⟩
  rcases waiting_of_pendingConditions s pending hpending with ⟨hnodup, hwaiters⟩
  -- The invariant is about the pairs that are left: nobody waits twice, and whoever is left is
  -- still as in the beginning. So the evaluation of one condition finds its thread waiting.
  have hsurveyed := (invariant_of_evaluatePending c app (fun rest a => (rest.map Prod.fst).Nodup
    ∧ (∀ p ∈ rest, p ∈ pending ∧ a.threads[p.1]? = s.threads[p.1]?) ∧ app.Surveyed s a) ?_ pending
    [s] alternatives (List.forall_mem_singleton.mpr
      ⟨hnodup, fun p hp => ⟨hp, rfl⟩, app.surveyed_refl s⟩) halternatives b hb).2.2
  · exact ⟨hsurveyed.threads, fun q hq => hsurveyed.conditions q (List.mem_of_mem_filter hq),
      hsurveyed.targetFor⟩
  rintro waiter checker rest a b bs ⟨hnodup, hrest, ha⟩ heval hb
  rcases List.nodup_cons.mp hnodup with ⟨hnew, hnodup⟩
  rcases hrest _ List.mem_cons_self with ⟨hmem, huntouched⟩
  rcases hwaiters _ hmem with ⟨t, ht, hwait, _⟩
  have hjudged :=
    judged_of_evaluateCondition c app a waiter checker t (huntouched.trans ht) bs heval
    b hb
  refine ⟨hnodup, fun p hp => ⟨(hrest p (List.mem_cons_of_mem _ hp)).1, ?_⟩,
    surveyed_of_judged app s a b waiter checker t ha ht hwait hjudged⟩
  have hold := (hrest p (List.mem_cons_of_mem _ hp)).2
  -- No thread waits for two conditions, so the pairs that are left belong to other threads.
  have hne : waiter ≠ p.1 := by
    rintro rfl
    have hmem : p.1 ∈ rest.map Prod.fst := List.mem_map_of_mem hp
    exact hnew hmem
  cases hjudged with
  | fails data => exact hold
  | holds data position q u _ _ _ => exact (List.getElem?_set_ne hne).trans hold

/-- What looking at the conditions does to the threads. -/
theorem surveyed_of_checked (c : Control σ) (app : App) (s u : ControlState σ)
    (h : Checked c app s u) : app.Surveyed s u := by
  cases h with
  | none _ hsame =>
      rw [hsame]
      exact app.surveyed_refl s
  | evaluated data found heval hu =>
      have hsurveyed :=
        surveyed_of_evaluateConditions c app { s with data := data } u found heval hu
      exact ⟨hsurveyed.threads, hsurveyed.conditions, hsurveyed.targetFor⟩

/-- What every phase at the end of a step keeps, whatever the program at that phase. -/
theorem kept_of_completed (P : Thread → Prop)
    (hstatus : ∀ (t : Thread) (status : ThreadStatus), P t → P { t with status := status })
    (hstart : ∀ (app : App) (t : Thread) (entry : Place), app.entryPlace t = .ok entry → P t →
      P (t.atStart entry))
    (hwaits : ∀ (t : Thread) (ids : Std.ExtTreeSet ThreadId), P t → P { t with waitingFor := ids })
    (c : Control σ) (before after : App) (concern : Concern) (s s' : ControlState σ) (index : Nat)
    (t : Thread) (data : σ) (h : Completed c before after concern s index t data s')
    (hall : ∀ v ∈ (s.setThread index { t with operations := [] }).threads, P v) :
    ∀ v ∈ s'.threads, P v := by
  -- Each phase relates the threads before and after one by one, so a property is handed on along
  -- the list.
  have hkept : ∀ (R : Thread → Thread → Prop) (xs ys : List Thread), List.Forall₂ R xs ys →
      (∀ v w, R v w → P v → P w) → (∀ v ∈ xs, P v) → ∀ w ∈ ys, P w := by
    intro R xs ys hrelated hone hxs w hw
    rcases mem_of_forall₂_right R xs ys hrelated w hw with ⟨v, hv, hvw⟩
    exact hone v w hvw (hxs v hv)
  rcases h with ⟨threads, u, hfinish, ⟨started, released, hstart', hrelease, hchecked⟩, hturn⟩
  have hfinished := hkept _ _ _ (before.finished_of_finishThreads _ threads hfinish)
    (before.kept_of_finished P hstatus) hall
  have hstarted := hkept _ _ _ (before.started_of_startMonitors concern threads started hstart')
    (before.kept_of_started P (hstart before) concern) hfinished
  have hreleased := hkept _ _ _ (before.relieved_of_releaseWaiting started released hrelease)
    (before.kept_of_relieved P hstatus hwaits) hstarted
  have hsurveyed := hkept _ _ _ (surveyed_of_checked c after _ u hchecked).threads
    (after.kept_of_relieved P hstatus hwaits) hreleased
  exact hkept _ _ _ (after.turns_of_passTurn u s' index hturn).1
    (after.kept_of_turned P hstatus) hsurveyed

/-- What the end of a step does to the threads before the turn is passed. -/
theorem roused_of_completed (c : Control σ) (before after : App) (concern : Concern)
    (s s' : ControlState σ) (index : Nat) (t : Thread) (data : σ) (hext : before.Extends after)
    (hdrawn : before.RelationsDrawn) (h : Completed c before after concern s index t data s') :
    ∃ u, List.Forall₂ (after.Roused concern)
        (s.setThread index { t with operations := [] }).threads u.threads
      ∧ u.targetFor = s.targetFor ∧ after.passTurn u index = .ok s' := by
  rcases h with ⟨threads, u, hfinish, ⟨started, released, hstart, hrelease, hchecked⟩, hturn⟩
  -- What happened in the program before conditions were made also counts in the program afterwards.
  have hfinished := (before.finished_of_finishThreads _ threads hfinish).imp fun v w hw =>
    App.finished_of_extends before after hext hdrawn v w hw
  have hstarted := (before.started_of_startMonitors concern threads started hstart).imp
    fun v w hw => App.started_of_extends before after hext hdrawn v w concern hw
  have hreleased := (before.relieved_of_releaseWaiting started released hrelease).imp fun v w hw =>
    App.relieved_of_extends before after hext hdrawn v w hw
  have hsurveyed := surveyed_of_checked c after _ u hchecked
  refine ⟨u, (forall₂_comp _ _ _ _ _ (forall₂_comp _ _ _ _ _ (forall₂_comp _ _ _ _ _
    hfinished hstarted) hreleased) hsurveyed.threads).imp ?_, hsurveyed.targetFor, hturn⟩
  -- A thread is relieved twice, by those who are done and by its condition. Both together are one
  -- relief.
  rintro v w ⟨v₃, ⟨v₂, ⟨v₁, hv₁, hv₂⟩, hv₃⟩, hv₄⟩
  exact .intro v₁ v₂ hv₁ hv₂ (after.relieved_trans v₂ v₃ w hv₃ hv₄)

/-- What the end of a step does to the threads, the one that has taken the step included. Nothing is
    found violated by then. -/
theorem ended_of_completed (c : Control σ) (before after : App) (concern : Concern)
    (s s' : ControlState σ) (index : Nat) (t : Thread) (data : σ) (hext : before.Extends after)
    (hdrawn : before.RelationsDrawn) (h : Completed c before after concern s index t data s') :
    List.Forall₂ (after.Ended concern) (s.setThread index { t with operations := [] }).threads
      s'.threads ∧ s'.targetFor = s.targetFor := by
  rcases roused_of_completed c before after concern s s' index t data hext hdrawn h with
    ⟨u, hroused, htarget, hturn⟩
  rcases after.turns_of_passTurn u s' index hturn with ⟨hturned, htarget'⟩
  refine ⟨(forall₂_comp _ _ _ _ _ hroused hturned).imp ?_, htarget'.trans htarget⟩
  rintro v w ⟨v₃, ⟨v₁, v₂, hv₁, hv₂, hv₃⟩, hw⟩
  exact .intro v₁ v₂ v₃ hv₁ hv₂ hv₃ hw

end Waking

/-- When a program starts, one thread of those that were made may be given its turn. -/
theorem turned_of_gives_startState (data : σ) (k k' : Scheduler) (s : ControlState σ)
    (h : Gives (startState data) k s k') :
    ∃ threads, Gives initialThreads k threads k' ∧ s.data = data ∧ s.targetFor = ∅
      ∧ List.Forall₂ k'.app.Turned threads s.threads := by
  unfold startState at h
  rcases (gives_bind _ _ _ _ _).mp h with ⟨threads, k₁, hthreads, h⟩
  rw [gives_program_bind] at h
  rcases (gives_lookUp_bind _ _ _ _ _).mp h with ⟨next, hgrant, h⟩
  rcases (gives_lookUp_bind _ _ _ _ _).mp h with ⟨_, _, h⟩
  rcases (gives_pure _ _ _ _).mp h with ⟨rfl, rfl⟩
  rcases k₁.app.turns_of_grantTurn _ next _ hgrant with ⟨hturns, htarget⟩
  refine ⟨threads, hthreads, ?_, htarget, hturns⟩
  -- Granting a turn does not touch the data.
  rcases k₁.app.turned_of_grantTurn _ next _ hgrant with rfl | ⟨_, _, _, _, _, rfl⟩ <;> rfl

end Scheduler

end ActorCheck

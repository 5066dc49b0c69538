import ActorCheck.Proofs.Control.Clock

/-!
# No Alarm Is Overdue

The conditions are looked at in every step, and each is evaluated in the store with which the step
ends. An alarm whose wait is over is cleared away. So in every state that was found, the clock has
not reached the end of any wait that is pending.

This needs more of the relation of an alarm than that it reaches its exit only if the wait is over.
The relation has to reach it whenever the wait is over, which is what `App.Exhaustive` says of the
relations of all conditions. It holds of a program as it was written, and of whatever is added to
it.

## Main definitions

* `Scheduler.Decided`: An alternative in which some alarms were looked at.
* `App.Punctual`: The clock has not reached the end of any wait.

## Theorems

* `Scheduler.decided_of_evaluatePending`: What the evaluation of alarms decides.
* `Scheduler.punctual_of_evaluateConditions`: What is left after clearing away.
* `Session.punctual_of_explored`: No alarm is overdue in a state that was found.
-/

namespace ActorCheck

/-- The clock has not reached the end of any wait. -/
def App.Punctual (app : App) (s : ControlState Store) : Prop :=
  ∀ q ∈ s.conditions, ∃ scope, app.Alarm q scope
    ∧ eval s.data (waitIsOver (wakeUpVariable scope)) = .ok (.bool false)

theorem App.alarmed_of_punctual (app : App) (s : ControlState Store) (h : app.Punctual s) :
    app.Alarmed s := by
  intro q hq
  rcases h q hq with ⟨scope, halarm, _⟩
  exact ⟨scope, halarm⟩

theorem App.punctual_of_extends (a b : App) (h : a.Extends b) (hdrawn : a.RelationsDrawn)
    (s : ControlState Store) (hs : a.Punctual s) : b.Punctual s := by
  intro q hq
  rcases hs q hq with ⟨scope, halarm, hahead⟩
  exact ⟨scope, App.alarm_of_extends a b h hdrawn q scope halarm, hahead⟩

namespace Scheduler

/-- An alternative in which the alarms with some numbers were looked at. Each of them is done, or
    its wait is not over. -/
structure Decided (app : App) (s : ControlState Store) (looked : List ThreadId)
    (a : ControlState Store) : Prop where
  truthful : Truthful app s a
  same : List.Forall₂ Thread.Same s.conditions a.conditions
  decided : ∀ q ∈ a.conditions, q.id ∈ looked → q.status = .done
    ∨ ∀ scope, app.Alarm q scope →
      eval s.data (waitIsOver (wakeUpVariable scope)) = .ok (.bool false)

section Evaluate

variable (c : Control Store) (hc : c.analysis = .explicit) (app : App) (happ : app.WellMade)
  (hall : app.Exhaustive) (s : ControlState Store) (hs : app.Alarmed s)
  (hids : (s.conditions.map Thread.id).Nodup)

include hc happ hall hs hids

theorem decided_of_evaluateCondition (a b : ControlState Store) (looked : List ThreadId)
    (waiter : Nat) (checker : ThreadId) (found : List (ControlState Store))
    (ha : Decided app s looked a) (h : evaluateCondition c app a waiter checker = .ok found)
    (hb : b ∈ found) : Decided app s (looked ++ [checker]) b := by
  have htruth := truthful_of_evaluateCondition c hc app happ s a b waiter checker found hs
    ha.truthful h hb
  have hnodup : (a.conditions.map Thread.id).Nodup := by
    rw [map_id_of_same _ _ ha.same]
    exact hids
  -- Three outcomes. An alarm that is not there any more has nothing to be decided, one whose wait
  -- is not over stays, and one whose wait is over is done.
  cases ruling_of_evaluateCondition c hc app happ a b waiter checker found
    (alarmed_of_truthful app s a hs ha.truthful) h hb with
  | absent hnobody =>
      refine ⟨htruth, ha.same, fun r hr hlooked => ?_⟩
      rcases List.mem_append.mp hlooked with hold | hnew
      · exact ha.decided r hr hold
      · exact absurd (List.mem_singleton.mp hnew) (hnobody r hr)
  | fails position q hq hid hahead =>
      refine ⟨htruth, ha.same, fun r hr hlooked => ?_⟩
      rcases List.mem_append.mp hlooked with hold | hnew
      · exact ha.decided r hr hold
      · rcases List.getElem?_of_mem hr with ⟨i, hi⟩
        -- Numbers tell alarms apart, so the one that was looked at is the one that is asked about.
        have hsame := position_of_id a.conditions hnodup i position r q hi hq
          ((List.mem_singleton.mp hnew).trans hid.symm)
        rw [hsame, hq] at hi
        cases hi
        refine Or.inr fun scope hscope => ?_
        rw [← ha.truthful.data]
        exact hahead hall scope hscope
  | holds position q _ hq hid _ hsettle =>
      have hconditions := (fixed_of_settleCondition app a b waiter position q hsettle).2
      refine ⟨htruth, ?_, fun r hr hlooked => ?_⟩
      · rw [hconditions]
        exact forall₂_trans Thread.Same same_trans _ _ _ ha.same
          (forall₂_set Thread.Same a.conditions (fun r _ => same_refl r) position q _ hq
            ⟨rfl, rfl, rfl⟩)
      · rw [hconditions] at hr
        rcases List.getElem?_of_mem hr with ⟨i, hi⟩
        -- The one that is done now, or another one that was decided before.
        by_cases hi' : position = i
        · rw [← hi', List.getElem?_set_self (List.getElem?_eq_some_iff.mp hq).1] at hi
          exact Or.inl (by rw [← Option.some.inj hi])
        · rw [List.getElem?_set_ne hi'] at hi
          rcases List.mem_append.mp hlooked with hold | hnew
          · exact ha.decided r (List.mem_of_getElem? hi) hold
          · exact absurd (position_of_id a.conditions hnodup position i q r hq hi
              (hid.trans (List.mem_singleton.mp hnew).symm)) hi'

/-- The evaluation of alarms decides all of them. -/
theorem decided_of_evaluatePending (pending : List (Nat × ThreadId))
    (alternatives found : List (ControlState Store))
    (halternatives : ∀ a ∈ alternatives, Decided app s [] a)
    (h : evaluatePending c app pending alternatives = .ok found) :
    ∀ b ∈ found, Decided app s (pending.map Prod.snd) b := by
  intro b hb
  -- Those that were looked at and those that are left make up the pending ones.
  have hlooked : ∃ looked, looked ++ [] = pending.map Prod.snd ∧ Decided app s looked b := by
    refine invariant_of_evaluatePending c app (fun rest a => ∃ looked,
      looked ++ rest.map Prod.snd = pending.map Prod.snd ∧ Decided app s looked a) ?_ pending
      alternatives found (fun a ha => ⟨[], rfl, halternatives a ha⟩) h b hb
    rintro waiter checker rest a b bs ⟨looked, hlooked, ha⟩ heval hb
    refine ⟨looked ++ [checker], ?_, decided_of_evaluateCondition c hc app happ hall s hs hids a b
      looked waiter checker bs ha heval hb⟩
    rw [← hlooked, List.append_assoc]
    rfl
  rcases hlooked with ⟨looked, hlooked, hdecided⟩
  rw [List.append_nil] at hlooked
  rwa [hlooked] at hdecided

/-- What is left of the alarms was evaluated, and their waits are not over. -/
theorem punctual_of_evaluateConditions (u : ControlState Store)
    (found : List (ControlState Store)) (h : evaluateConditions c app s = .ok found)
    (hu : u ∈ found) : app.Punctual u := by
  have htruth := truthful_of_evaluateConditions c hc app happ s u hs found h hu
  rcases pending_of_evaluateConditions c app s u found h hu with
    ⟨pending, alternatives, a, _, halternatives, ha, rfl⟩
  have hstart : Decided app s [] s :=
    ⟨truthful_refl app s, List.forall₂_same.mpr fun q _ => same_refl q,
      fun q _ hlooked => absurd hlooked List.not_mem_nil⟩
  have hdecided := decided_of_evaluatePending c hc app happ hall s hs hids pending [s]
    alternatives (List.forall_mem_singleton.mpr hstart) halternatives a ha
  intro q hq
  -- Those that are done are dropped, so whoever is left has a wait that is not over.
  rcases (mem_dropConditions pending a q).mp hq with ⟨hqa, hnot, waiter, hp⟩
  rcases alarmed_of_truthful app s a hs hdecided.truthful q hqa with ⟨scope, halarm⟩
  have hlooked : q.id ∈ pending.map Prod.snd := List.mem_map_of_mem hp
  refine ⟨scope, halarm, ?_⟩
  rw [htruth.data]
  exact (hdecided.decided q hqa hlooked).resolve_left hnot scope halarm

end Evaluate

/-- No alarm is overdue at the end of a step. -/
theorem punctual_of_ending (c : Control Store) (hc : c.analysis = .explicit) (before after : App)
    (concern : Concern) (s s' : ControlState Store) (index : Nat) (t : Thread) (data : Store)
    (hafter : after.WellMade) (hall : after.Exhaustive) (hs : after.Alarmed s)
    (hids : (s.conditions.map Thread.id).Nodup)
    (h : Ending c before after concern s index t data s') : after.Punctual s' := by
  rcases h with ⟨threads, started, released, u, _, _, _, hlooked, hturn⟩
  rcases fixed_of_passTurn after u s' index hturn with ⟨hdata, hconditions⟩
  unfold App.Punctual
  rw [hdata, hconditions]
  -- Either there are no alarms or they were evaluated, with the clock moved on if need be.
  cases hlooked with
  | none hempty hsame =>
      rw [hsame]
      intro q hq
      rw [hempty] at hq
      cases hq
  | evaluated moved found _ heval hu =>
      exact punctual_of_evaluateConditions c hc after hafter hall
        { afterStep s index released data with data := moved } hs hids u found heval hu

/-- The conditions of all scripts are settled when a move is over. -/
theorem exhaustive_of_passage (c : Control Store) (k k' : Scheduler) (m : Move Store)
    (w : Passage c k k' m) (hk : k.Sound) (hall : k.app.Exhaustive) : w.k₅.app.Exhaustive := by
  rcases related_of_passage additive_exhaustive c k k' m w with
    ⟨htried, hfollow, hsettle, hcomplete⟩
  exact (hcomplete (hsettle (hfollow (htried ⟨hk, hall⟩)))).2

/-- No alarm is overdue after a move. -/
theorem punctual_of_middle (c : Control Store) (hc : c.analysis = .explicit) (k k' : Scheduler)
    (m : Move Store) (w : Passage c k k' m) (hw : Middle w) (hall : w.k₅.app.Exhaustive) :
    k'.app.Punctual m.target := by
  have hended := punctual_of_ending c hc _ _ _ _ _ _ _ _ hw.soundAfter.wellMade hall
    (App.alarmed_of_extends _ _ hw.completing hw.soundLast.wellMade.relations _ hw.alarmed)
    (App.nodup_conditions _ _ _ hw.coherent.linked) hw.ending
  exact App.punctual_of_extends _ _ w.grown hw.soundAfter.wellMade.relations _ hended

end Scheduler

namespace Session

section Found

variable (c : Control Store) (hc : c.analysis = .explicit) (app : App) (happ : app.WellMade)
  (hall : app.Exhaustive) (x : Session Store) (h : Explored c app x)

include hc happ hall h

/-- In no state that was found is an alarm overdue. -/
theorem punctual_of_explored (s : ControlState Store) (hs : s ∈ x.found) :
    x.scheduler.app.Punctual s := by
  refine (invariant_of_moves c app (fun k => k.Sound ∧ k.app.Exhaustive)
    (fun app s => app.Punctual s) ⟨Scheduler.sound_new app happ, hall⟩
    Scheduler.additive_exhaustive ?_ ?_ ?_ x h).2 s hs
  · exact fun k b s hk hext hs => App.punctual_of_extends _ _ hext hk.1.wellMade.relations s hs
  · intro data k k' s hgives q hq
    rw [Scheduler.conditions_of_gives_startState data k k' s hgives] at hq
    cases hq
  · intro y k m hy hfound hk hs w
    have hsteady := steady_of_explored c app happ.relations y hy m.source hfound
    exact Scheduler.punctual_of_middle c hc _ _ m w
      (Scheduler.middle_of_passage c hc _ _ m w hk.1 hsteady (App.alarmed_of_punctual _ _ hs))
      (Scheduler.exhaustive_of_passage c _ _ m w hk.1 hk.2)

end Found

end Session

end ActorCheck

import ActorCheck.Proofs.Control.Ahead

/-!
# Sleepers

A thread that waits for an alarm is left alone by most of what happens in a step. It is not at
the end of its relation, nobody takes an alarm off its waiting set but the evaluation of the alarm
itself, and the turn is passed among threads that can run. Only two things start such a thread
again before its wait is over: a message that its script waits for, and a statement of the
program, if its script is that of a monitor.

So a sleeper that nobody starts again sleeps on at the end of a step, or its alarm was found to
hold, which means that the clock has reached the end of the wait.

## Main definitions

* `App.Sleeper`: A thread that waits for an alarm.
* `Move.Restarts`: A step that starts a thread again.

## Theorems

* `Scheduler.untouched_of_effect`: Statements leave sleepers alone.
* `Scheduler.sleeper_of_ending`: Sleepers at the end of a step.
-/

namespace ActorCheck

/-- The thread at an index waits for an alarm of a scope. -/
structure App.Sleeper {σ : Type} (app : App) (s : ControlState σ) (i : Nat) (scope : List String)
    (t q : Thread) : Prop where
  thread : s.threads[i]? = some t
  status : t.status = .wait
  condition : q ∈ s.conditions
  waitingFor : q.id ∈ t.waitingFor
  alarm : app.Alarm q scope

theorem App.sleeper_of_extends {σ : Type} (a b : App) (h : a.Extends b) (hdrawn : a.RelationsDrawn)
    (s : ControlState σ) (i : Nat) (scope : List String) (t q : Thread)
    (ht : a.Sleeper s i scope t q) : b.Sleeper s i scope t q :=
  ⟨ht.thread, ht.status, ht.condition, ht.waitingFor,
    alarm_of_extends a b h hdrawn q scope ht.alarm⟩

/-- The step starts the thread again: by a statement of the program, if the thread is a monitor, or
    by a message that its script waits for. -/
def Move.Restarts {σ : Type} (app : App) (m : Move σ) (t : Thread) : Prop :=
  ∃ script, app.scriptOf t = .ok script
    ∧ ((script.event = .afterStatement ∧ ∃ u actor, m.source.threads[m.index]? = some u
        ∧ app.actorNamed u.actor = .ok actor ∧ actor.concern = .program)
      ∨ ∃ message name, (m.edge.1.statement = .broadcast message
          ∨ m.edge.1.statement = .broadcastAndWait message)
        ∧ messageName message = .ok name ∧ script.event.matchesName name = true)

namespace App

variable (app : App)

section Phases

variable (ts us : List Thread) (i : Nat) (t : Thread) (ht : ts[i]? = some t)

include ht

theorem stays_of_finishThreads (hleaves : app.hasLeaving t = .ok true)
    (h : app.finishThreads ts = .ok us) : us[i]? = some t := by
  rcases getElem?_of_forall₂_left _ ts us (app.finished_of_finishThreads ts us h) i t ht with
    ⟨u, hu, hfinished⟩
  cases hfinished with
  | kept => exact hu
  | stopped _ stays =>
      rw [hleaves] at stays
      cases stays

theorem stays_of_startMonitors (concern : Concern)
    (hmonitor : concern = .program → ¬ app.IsMonitor t)
    (h : app.startMonitors concern ts = .ok us) : us[i]? = some t := by
  rcases getElem?_of_forall₂_left _ ts us (app.started_of_startMonitors concern ts us h) i t ht with
    ⟨u, hu, hstarted⟩
  cases hstarted with
  | kept => exact hu
  | restarted program _ monitor => exact absurd monitor (hmonitor program)

/-- A thread that waits for somebody who is no thread goes on waiting. -/
theorem waits_of_releaseWaiting (hwait : t.status = .wait) (id : ThreadId)
    (hid : id ∈ t.waitingFor) (hother : ∀ u ∈ ts, u.id ≠ id) (h : app.releaseWaiting ts = .ok us) :
    ∃ u, us[i]? = some u ∧ u.status = .wait ∧ id ∈ u.waitingFor := by
  rcases getElem?_of_forall₂_left _ ts us ((except_mapM_ok _ _ _).mp h) i t ht with ⟨u, hu, hone⟩
  -- Only numbers of threads are taken off a waiting set.
  have hunfinished : id ∉ finishedIds ts := by
    intro hmem
    rcases (mem_finishedIds ts id).mp hmem with ⟨v, hv, hvid, _⟩
    exact hother v hv hvid
  exact ⟨u, hu, app.waits_of_reduced _ t u (app.reduced_of_releaseThread t u _ hone)
    (fun _ hid => (Std.ExtTreeSet.mem_diff_iff.mp hid).1) hwait id
    (Std.ExtTreeSet.mem_diff_iff.mpr ⟨hid, hunfinished⟩)⟩

end Phases

variable {σ : Type}

/-- Passing the turn lets a thread run that could, and changes nothing else about a thread, unless
    it is the one that gives its turn away. -/
theorem turn_of_passTurn (s s' : ControlState σ) (index i : Nat) (t : Thread)
    (ht : s.threads[i]? = some t)
    (hother : index = i → t.status ≠ .running ∧ t.status ≠ .yield)
    (h : app.passTurn s index = .ok s') :
    s'.threads[i]? = some t ∨ ((t.status = .running ∨ t.status = .yield)
      ∧ s'.threads[i]? = some { t with status := .running }) := by
  rcases app.turned_of_passTurn s s' index h with ⟨u, more, hu, _, _, ⟨rfl, _⟩ | hgrant⟩
  · exact Or.inl ht
  -- A thread that gives its turn away is not one that stands still.
  · have hgiven : (s.setThread index (giveTurnAway more u)).threads[i]? = some t := by
      by_cases hi : index = i
      · subst hi
        rw [ht] at hu
        cases hu
        rcases hother rfl with ⟨hrun, hyield⟩
        rcases giveTurnAway_cases more t with ⟨_, hactive, _⟩ | ⟨_, hstatus, _⟩ | ⟨_, hsame⟩
        · exact absurd hactive (not_or.mpr ⟨hrun, hyield⟩)
        · exact absurd hstatus hrun
        · rw [hsame, setThread_self s index t ht]
          exact ht
      · exact (List.getElem?_set_ne hi).trans ht
    rcases app.turned_of_grantTurn _ s' index hgrant with rfl | ⟨j, v, hv, hstatus, _, rfl⟩
    · exact Or.inl hgiven
    · by_cases hj : j = i
      · subst hj
        rw [hgiven] at hv
        cases hv
        exact Or.inr ⟨hstatus, List.getElem?_set_self (List.getElem?_eq_some_iff.mp hgiven).1⟩
      · exact Or.inl ((List.getElem?_set_ne hj).trans hgiven)

/-- The turn is passed among threads that can run. -/
theorem waits_of_passTurn (s s' : ControlState σ) (index i : Nat) (t : Thread)
    (ht : s.threads[i]? = some t) (hwait : t.status = .wait)
    (h : app.passTurn s index = .ok s') : s'.threads[i]? = some t := by
  have hidle : t.status ≠ .running ∧ t.status ≠ .yield := by
    rw [hwait]
    exact ⟨nofun, nofun⟩
  rcases app.turn_of_passTurn s s' index i t ht (fun _ => hidle) h with hsame | ⟨hactive, _⟩
  · exact hsame
  · exact absurd hactive (not_or.mpr hidle)

/-- A message leaves those alone who wait and whose scripts do not wait for it. -/
theorem waits_of_broadcast (message : Message) (ts us : List Thread)
    (receivers : Std.ExtTreeSet ThreadId) (i : Nat) (t : Thread) (ht : ts[i]? = some t)
    (hwait : t.status = .wait)
    (hdeaf : ∀ script name, app.scriptOf t = .ok script → messageName message = .ok name →
      script.event.matchesName name = false)
    (h : app.broadcast message ts = .ok (us, receivers)) : us[i]? = some t := by
  rcases app.sent_of_broadcast message ts us receivers h with
    ⟨name, delivered, hname, hsent, rfl, _⟩
  rcases getElem?_of_forall₂_left _ ts delivered hsent i t ht with ⟨p, hp, hone | ⟨_, hasleep, _⟩⟩
  · rcases app.received_of_deliver name t p hone with ⟨rfl, _⟩ | ⟨_, ⟨script, hscript, hmatches⟩, _⟩
    · rw [List.getElem?_map, hp]
      rfl
    · rw [hdeaf script name hscript hname] at hmatches
      cases hmatches
  · exact absurd (hwait.symm.trans hasleep) nofun

end App

namespace Scheduler

/-- A statement of another thread leaves those alone who wait, unless it is a message that their
    scripts wait for. Condition threads stay. -/
theorem untouched_of_effect {σ : Type} (before after : App) (s s' : ControlState σ) (index : Nat)
    (t : Thread) (statement : Statement) (h : Effect before after s index t statement s') (i : Nat)
    (hne : index ≠ i) (u : Thread) (hu : s.threads[i]? = some u) (hwait : u.status = .wait)
    (hdeaf : ∀ message script name,
      (statement = .broadcast message ∨ statement = .broadcastAndWait message) →
      before.scriptOf u = .ok script → messageName message = .ok name →
        script.event.matchesName name = false) :
    s'.threads[i]? = some u ∧ ∀ q ∈ s.conditions, q ∈ s'.conditions := by
  have hset : ∀ v : Thread, (s.threads.set index v)[i]? = some u := fun v =>
    (List.getElem?_set_ne hne).trans hu
  have hkept : ∀ q ∈ s.conditions, q ∈ s.conditions := fun q hq => hq
  -- Messages are the only statements that change threads other than their own.
  cases h with
  | unchanged => exact ⟨hu, hkept⟩
  | signalled properties => exact ⟨hset _, hkept⟩
  | opened => exact ⟨hset _, hkept⟩
  | closed inside => exact ⟨hset _, hkept⟩
  | entered method args result v same waitingFor status => exact ⟨hset _, hkept⟩
  | returned result v same waitingFor status => exact ⟨hset _, hkept⟩
  | sent message threads receivers broadcast =>
      refine ⟨before.waits_of_broadcast message _ threads receivers i u hu hwait ?_ broadcast,
        hkept⟩
      exact fun script name => hdeaf message script name (Or.inl rfl)
  | unheard message threads broadcast =>
      refine ⟨before.waits_of_broadcast message _ threads ∅ i u hu hwait ?_ broadcast, hkept⟩
      exact fun script name => hdeaf message script name (Or.inr rfl)
  | asked message threads receivers sender broadcast others heard known =>
      have hsent := before.waits_of_broadcast message _ threads receivers i u hu hwait
        (fun script name => hdeaf message script name (Or.inr rfl)) broadcast
      exact ⟨(List.getElem?_set_ne hne).trans hsent, hkept⟩
  | paused args result checker ops new below ready =>
      exact ⟨hset _, fun q hq => List.mem_append_left _ hq⟩
  | resolved v e name => exact ⟨hu, hkept⟩

section Ending

variable (c : Control Store) (hc : c.analysis = .explicit) (app : App) (happ : app.WellMade)
  (s u : ControlState Store) (found : List (ControlState Store)) (i : Nat) (scope : List String)
  (t q : Thread)

include hc happ

/-- A sleeper when the conditions are evaluated. It sleeps on, or its alarm was found to hold. -/
theorem sleeper_of_evaluateConditions (hr : app.Released s.threads s.conditions)
    (hcheck : ∀ q ∈ s.conditions, q.status ≠ .done) (hs : app.Alarmed s)
    (ht : app.Sleeper s i scope t q) (h : evaluateConditions c app s = .ok found) (hu : u ∈ found) :
    (∃ t' q', app.Sleeper u i scope t' q')
      ∨ eval u.data (waitIsOver (wakeUpVariable scope)) = .ok (.bool true) := by
  rcases alternative_of_evaluateConditions c app s u found hr hcheck h hu with
    ⟨pending, alternatives, b, hpending, halternatives, hb, halternative, rfl⟩
  have htruth := truthful_of_evaluatePending c hc app happ s pending [s] alternatives hs
    (List.forall_mem_singleton.mpr (truthful_refl app s)) halternatives b hb
  rcases mem_of_forall₂_left _ _ _ halternative.conditions q ht.condition with ⟨q', hq', hsame⟩
  rcases htruth.conditions q' hq' with ⟨p, hp, hpq⟩
  -- Condition threads are told apart by their numbers.
  have hpid : p.id = q.id := by
    rcases hpq with rfl | ⟨rfl, _⟩
    · exact hsame.id
    · exact hsame.id
  have hpeq : p = q :=
    List.inj_on_of_nodup_map (app.nodup_conditions _ _ hr.linked) hp ht.condition hpid
  rw [hpeq] at hpq
  rcases hpq with rfl | ⟨_, hover⟩
  -- Nothing was decided about the alarm. It is still waited for, so it is not cleared away.
  · rcases halternative.undecided q' hq' (hcheck q' ht.condition) i t ht.thread ht.status
      ht.waitingFor with ⟨t', ht', hwait', hid'⟩
    refine Or.inl ⟨t', q', ht', hwait', ?_, hid', ht.alarm⟩
    refine (mem_dropConditions pending b q').mpr ⟨hq', hcheck q' ht.condition, i, ?_⟩
    exact (mem_pendingConditions s pending hpending i q'.id).mpr
      ⟨t, ht.thread, ht.status, ht.waitingFor, q', ht.condition, rfl⟩
  · refine Or.inr ?_
    have hdata : (dropConditions (pending.map Prod.snd) b).data = s.data := htruth.data
    rw [hdata]
    exact hover scope ht.alarm

end Ending

/-- A sleeper at the end of a step that does not start it again. It sleeps on, or the clock has
    reached the end of its wait. -/
theorem sleeper_of_ending (c : Control Store) (hc : c.analysis = .explicit) (before after : App)
    (hext : before.Extends after) (hdrawn : before.RelationsDrawn) (hafter : after.WellMade)
    (concern : Concern) (s s' : ControlState Store) (index : Nat) (u : Thread) (data : Store)
    (hs : before.Coherent (s.setThread index { u with operations := [] }))
    (halarmed : after.Alarmed s)
    (i : Nat) (scope : List String) (t q : Thread)
    (ht : before.Sleeper (s.setThread index { u with operations := [] }) i scope t q)
    (hleaves : before.hasLeaving t = .ok true)
    (hmonitor : concern = .program → ¬ before.IsMonitor t) (n : Int64)
    (hend : data[(wakeUpVariable scope).cellName]? = some (.int n))
    (h : Ending c before after concern s index u data s') :
    (∃ t' q', after.Sleeper s' i scope t' q') ∨ n.toInt ≤ s'.data.time.toInt := by
  rcases h with ⟨threads, started, released, v, hfinish, hstart, hrelease, hlooked, hturn⟩
  -- Nobody is done, started again or released.
  have hfinished := before.stays_of_finishThreads _ threads i t ht.thread hleaves hfinish
  have hmonitored := before.stays_of_startMonitors threads started i t hfinished concern hmonitor
    hstart
  -- The alarm is no thread, so it is not among those that are done.
  have hothers : ∀ v ∈ started, v.id ≠ q.id := by
    rcases before.going_of_finishThreads _ threads hs.linked.orderly hfinish with ⟨hlater, hgoing⟩
    have hlinked := before.linked_of_later _ s.conditions threads hs.linked hlater
    have hlinked' := before.linked_of_later threads s.conditions started hlinked
      (before.going_of_startMonitors concern threads started hlinked.orderly hgoing hstart).1
    exact fun v hv => before.apart_of_linked started s.conditions hlinked' v hv q ht.condition
  rcases before.waits_of_releaseWaiting started released i t hmonitored ht.status q.id ht.waitingFor
    hothers hrelease with ⟨t', ht', hwait', hid'⟩
  have hreleased := before.released_of_extends after hext hdrawn released s.conditions
    (before.released_of_phases concern _ threads started released s.conditions hs.linked hfinish
      hstart hrelease)
  have halarm := App.alarm_of_extends before after hext hdrawn q scope ht.alarm
  rcases fixed_of_passTurn after v s' index hturn with ⟨hdata, hconditions⟩
  cases hlooked with
  | none hempty _ =>
      -- There is an alarm, so there is something to evaluate.
      have hq : q ∈ s.conditions := ht.condition
      rw [show s.conditions = [] from hempty] at hq
      cases hq
  | evaluated moved found hmoved heval hv =>
      let looked := { afterStep s index released data with data := moved }
      have hsleeps : after.Sleeper looked i scope t' q := ⟨ht', hwait', ht.condition, hid', halarm⟩
      rcases sleeper_of_evaluateConditions c hc after hafter looked v found i scope t' q hreleased
        hs.checking halarmed hsleeps heval hv with ⟨w, r, hw⟩ | hover
      · refine Or.inl ⟨w, r, after.waits_of_passTurn v s' index i w hw.thread hw.status hturn,
          hw.status, ?_, hw.waitingFor, hw.alarm⟩
        rw [hconditions]
        exact hw.condition
      · refine Or.inr ?_
        have hlookedData : v.data = moved :=
          (truthful_of_evaluateConditions c hc after hafter looked v halarmed found heval hv).data
        have hcell : v.data[(wakeUpVariable scope).cellName]? = some (.int n) := by
          rw [hlookedData, ← hend]
          cases hmoved with
          | still => rfl
          | moved _ _ _ _ _ hcells _ => exact hcells _ (wakeUp_ne_clock scope)
        rw [hdata]
        exact le_of_waitIsOver v.data scope n hcell hover

end Scheduler

end ActorCheck

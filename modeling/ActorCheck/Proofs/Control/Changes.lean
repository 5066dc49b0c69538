import ActorCheck.Control.Wake
import ActorCheck.Proofs.Control.Links

/-!
# What May Happen to a Thread

A step changes threads in five ways. A message may be heard, a thread at the end of its relation is
finished, a monitor is started, a thread is relieved of some of those it waits for, and the turn is
passed. For each of them a relation between a thread before and after it lists what it can do, with
the reason for every change. `Ended` chains the last four.

Each of the functions of the scheduler that do this is opened once, in order to show that it stays
within its relation. An invariant about single threads is then shown by going through these
relations, and need not look at the lists of threads or at the program in between.

## Main definitions

* `App.Heard`: A thread after a message was sent.
* `App.Finished`, `App.Started`, `App.Relieved`, `App.Turned`: A thread after a phase of the end
  of a step.
* `App.Ended`: A thread after the end of a step.
* `App.Reduced`: What exactly happens to a thread that is relieved.

## Theorems

* `App.kept_of_heard`, `App.kept_of_ended`: What these relations leave alone.
* `App.same_of_ended`, `App.fewer_of_ended`: They mix up no threads, and nobody begins to wait.
* `App.ended_of_extends`: They survive additions to the program.
* `App.sent_of_broadcast`, `App.heard_of_broadcast`: What a message does to the threads, and who
  receives it.
* `App.finished_of_finishThreads`, `App.started_of_startMonitors`,
  `App.relieved_of_releaseWaiting`: The phases before the conditions are looked at.
* `App.reduced_of_releaseThread`, `App.reduced_of_conditionHolds`: The two ways of being relieved.
-/

namespace ActorCheck

namespace App

/-- A thread after a message was sent. A monitor is enabled if bootstrapping is over, and a thread
    whose script waits for the message is started again unless it has failed. -/
inductive Heard (app : App) (m : Message) (t : Thread) : Thread → Prop where
  | kept : Heard app m t t
  | enabled (ends : endsBootstrap m = true) (asleep : t.status = .disabled)
      (monitor : app.IsMonitor t) : Heard app m t { t with status := .done }
  | restarted (alive : t.status ≠ .failure) (hearer : app.NoMonitor t) (entry : Place)
      (start : app.entryPlace t = .ok entry) : Heard app m t (t.atStart entry)

/-- A thread after those at the end of their relations were found. -/
inductive Finished (app : App) (t : Thread) : Thread → Prop where
  | kept (going : t.status = .failure ∨ t.status = .done ∨ app.hasLeaving t = .ok true) :
      Finished app t t
  | stopped (active : t.status ≠ .failure ∧ t.status ≠ .done)
      (stays : app.hasLeaving t = .ok false) : Finished app t { t with status := .done }

/-- A thread after the monitors were started by a step of a concern. -/
inductive Started (app : App) (concern : Concern) (t : Thread) : Thread → Prop where
  | kept (reason : concern ≠ .program ∨ t.status = .disabled ∨ app.NoMonitor t) :
      Started app concern t t
  | restarted (program : concern = .program) (enabled : t.status ≠ .disabled)
      (monitor : app.IsMonitor t) (entry : Place) (start : app.entryPlace t = .ok entry) :
      Started app concern t (t.atStart entry)

/-- A thread after it was relieved of some of those it waits for. Its wait may be over. -/
inductive Relieved (app : App) (t : Thread) : Thread → Prop where
  | kept (ids : Std.ExtTreeSet ThreadId) (fewer : ∀ id, id ∈ ids → id ∈ t.waitingFor) :
      Relieved app t { t with waitingFor := ids }
  | awake (ids : Std.ExtTreeSet ThreadId) (fewer : ∀ id, id ∈ ids → id ∈ t.waitingFor)
      (waits : t.status = .wait) (more : Bool) (leaves : app.hasLeaving t = .ok more) :
      Relieved app t { t with waitingFor := ids, status := if more then .yield else .done }

/-- A thread after its waiting set was reduced to those that are left. The wait of a thread that is
    left with nobody is over. -/
inductive Reduced (app : App) (rest : Std.ExtTreeSet ThreadId) (t : Thread) : Thread → Prop where
  | kept (nobody : t.waitingFor = ∅) : Reduced app rest t t
  | fewer (left : t.status = .wait → rest ≠ ∅) : Reduced app rest t { t with waitingFor := rest }
  | awake (waits : t.status = .wait) (nobodyLeft : rest = ∅) (more : Bool)
      (leaves : app.hasLeaving t = .ok more) :
      Reduced app rest t { t with waitingFor := rest, status := if more then .yield else .done }

/-- A thread after the turn was passed. -/
inductive Turned (app : App) (t : Thread) : Thread → Prop where
  | kept : Turned app t t
  | paused (runs : t.status = .running) : Turned app t { t with status := .yield }
  | stopped (active : t.status = .running ∨ t.status = .yield)
      (stays : app.hasLeaving t = .ok false) : Turned app t { t with status := .done }
  | granted (active : t.status = .running ∨ t.status = .yield)
      (leaves : app.hasLeaving t = .ok true) : Turned app t { t with status := .running }

/-- A thread after the end of a step of a concern. -/
inductive Ended (app : App) (concern : Concern) (t u : Thread) : Prop where
  | intro (finished started relieved : Thread) (finish : app.Finished t finished)
      (start : app.Started concern finished started) (relieve : app.Relieved started relieved)
      (turn : app.Turned relieved u)

section Kept

variable (app : App) (P : Thread → Prop)
  (hstatus : ∀ (t : Thread) (status : ThreadStatus), P t → P { t with status := status })
  (hstart : ∀ (t : Thread) (entry : Place), app.entryPlace t = .ok entry → P t →
    P (t.atStart entry))

include hstatus hstart

/-- What does not depend on the status of a thread and holds again when the thread is restarted. -/
theorem kept_of_heard (m : Message) (t u : Thread) (h : app.Heard m t u) (ht : P t) : P u := by
  cases h with
  | kept => exact ht
  | enabled => exact hstatus t _ ht
  | restarted _ _ entry start => exact hstart t entry start ht

omit hstatus in
theorem kept_of_started (concern : Concern) (t u : Thread) (h : app.Started concern t u)
    (ht : P t) : P u := by
  cases h with
  | kept => exact ht
  | restarted _ _ _ entry start => exact hstart t entry start ht

omit hstart in
theorem kept_of_finished (t u : Thread) (h : app.Finished t u) (ht : P t) : P u := by
  cases h with
  | kept => exact ht
  | stopped => exact hstatus t _ ht

omit hstart in
theorem kept_of_turned (t u : Thread) (h : app.Turned t u) (ht : P t) : P u := by
  cases h with
  | kept => exact ht
  | paused => exact hstatus t _ ht
  | stopped => exact hstatus t _ ht
  | granted => exact hstatus t _ ht

variable (hwaits : ∀ (t : Thread) (ids : Std.ExtTreeSet ThreadId), P t →
  P { t with waitingFor := ids })

include hwaits

omit hstart in
theorem kept_of_relieved (t u : Thread) (h : app.Relieved t u) (ht : P t) : P u := by
  cases h with
  | kept ids => exact hwaits t ids ht
  | awake ids => exact hstatus _ _ (hwaits t ids ht)

/-- The same for the end of a step, if it does not depend on whom a thread waits for either. -/
theorem kept_of_ended (concern : Concern) (t u : Thread) (h : app.Ended concern t u) (ht : P t) :
    P u := by
  rcases h with ⟨finished, started, relieved, hfinish, hbegin, hrelieve, hturn⟩
  -- The four phases in the order in which they happen.
  have hfinished := app.kept_of_finished P hstatus t finished hfinish ht
  have hstarted := app.kept_of_started P hstart concern finished started hbegin hfinished
  have hrelieved := app.kept_of_relieved P hstatus hwaits started relieved hrelieve hstarted
  exact app.kept_of_turned P hstatus relieved u hturn hrelieved

end Kept

section Ends

variable (app : App) (t u : Thread)

theorem same_of_heard (m : Message) (h : app.Heard m t u) : t.Same u := by
  cases h <;> exact ⟨rfl, rfl, rfl⟩

theorem same_of_finished (h : app.Finished t u) : t.Same u := by
  cases h <;> exact ⟨rfl, rfl, rfl⟩

theorem same_of_started (concern : Concern) (h : app.Started concern t u) : t.Same u := by
  cases h <;> exact ⟨rfl, rfl, rfl⟩

theorem same_of_relieved (h : app.Relieved t u) : t.Same u := by
  cases h <;> exact ⟨rfl, rfl, rfl⟩

theorem same_of_turned (h : app.Turned t u) : t.Same u := by
  cases h <;> exact ⟨rfl, rfl, rfl⟩

/-- The end of a step does not mix up threads. -/
theorem same_of_ended (concern : Concern) (h : app.Ended concern t u) : t.Same u := by
  rcases h with ⟨finished, started, relieved, hfinish, hstart, hrelieve, hturn⟩
  -- Being the same thread is transitive, so the phases can be taken one by one.
  exact same_trans t relieved u (same_trans t started relieved (same_trans t finished started
    (app.same_of_finished t finished hfinish) (app.same_of_started finished started concern hstart))
    (app.same_of_relieved started relieved hrelieve)) (app.same_of_turned relieved u hturn)

theorem fewer_of_heard (m : Message) (h : app.Heard m t u) (id : ThreadId)
    (hid : id ∈ u.waitingFor) : id ∈ t.waitingFor := by
  cases h with
  | kept => exact hid
  | enabled => exact hid
  | restarted => exact absurd hid Std.ExtTreeSet.not_mem_empty

theorem fewer_of_finished (h : app.Finished t u) : u.waitingFor = t.waitingFor := by
  cases h with
  | kept => rfl
  | stopped => rfl

theorem fewer_of_started (concern : Concern) (h : app.Started concern t u) (id : ThreadId)
    (hid : id ∈ u.waitingFor) : id ∈ t.waitingFor := by
  cases h with
  | kept => exact hid
  | restarted => exact absurd hid Std.ExtTreeSet.not_mem_empty

theorem fewer_of_relieved (h : app.Relieved t u) (id : ThreadId) (hid : id ∈ u.waitingFor) :
    id ∈ t.waitingFor := by
  cases h with
  | kept ids fewer => exact fewer id hid
  | awake ids fewer => exact fewer id hid

theorem fewer_of_turned (h : app.Turned t u) : u.waitingFor = t.waitingFor := by
  cases h with
  | kept => rfl
  | paused => rfl
  | stopped => rfl
  | granted => rfl

/-- At the end of a step nobody begins to wait. -/
theorem fewer_of_ended (concern : Concern) (h : app.Ended concern t u) (id : ThreadId)
    (hid : id ∈ u.waitingFor) : id ∈ t.waitingFor := by
  rcases h with ⟨finished, started, relieved, hfinish, hstart, hrelieve, hturn⟩
  -- Back from the end: passing the turn and finding those at their ends do not touch the sets.
  rw [app.fewer_of_turned relieved u hturn] at hid
  rw [← app.fewer_of_finished t finished hfinish]
  exact app.fewer_of_started finished started concern hstart id
    (app.fewer_of_relieved started relieved hrelieve id hid)

end Ends

section Growth

variable (a b : App) (h : a.Extends b) (hdrawn : a.RelationsDrawn) (t u : Thread)

include h

theorem isMonitor_of_extends (ht : a.IsMonitor t) : b.IsMonitor t := by
  rcases ht with ⟨script, hscript, hevent⟩
  exact ⟨script, scriptOf_of_extends a b h t script hscript, hevent⟩

theorem noMonitor_of_extends (ht : a.NoMonitor t) : b.NoMonitor t := by
  rcases ht with ⟨script, hscript, hevent⟩
  exact ⟨script, scriptOf_of_extends a b h t script hscript, hevent⟩

include hdrawn

theorem heard_of_extends (m : Message) (ht : a.Heard m t u) : b.Heard m t u := by
  cases ht with
  | kept => exact .kept
  | enabled ends asleep monitor => exact .enabled ends asleep (isMonitor_of_extends a b h t monitor)
  | restarted alive hearer entry start =>
      exact .restarted alive (noMonitor_of_extends a b h t hearer) entry
        (entryPlace_of_extends a b h hdrawn t entry start)

theorem finished_of_extends (ht : a.Finished t u) : b.Finished t u := by
  cases ht with
  | kept going =>
      -- All that a relation says of the program are look-ups, and what was found before additions
      -- is found after them.
      exact .kept (going.imp_right (Or.imp_right (hasLeaving_of_extends a b h hdrawn t true)))
  | stopped active stays => exact .stopped active (hasLeaving_of_extends a b h hdrawn t false stays)

theorem started_of_extends (concern : Concern) (ht : a.Started concern t u) :
    b.Started concern t u := by
  cases ht with
  | kept reason => exact .kept (reason.imp_right (Or.imp_right (noMonitor_of_extends a b h t)))
  | restarted program enabled monitor entry start =>
      exact .restarted program enabled (isMonitor_of_extends a b h t monitor) entry
        (entryPlace_of_extends a b h hdrawn t entry start)

theorem relieved_of_extends (ht : a.Relieved t u) : b.Relieved t u := by
  cases ht with
  | kept ids fewer => exact .kept ids fewer
  | awake ids fewer waits more leaves =>
      exact .awake ids fewer waits more (hasLeaving_of_extends a b h hdrawn t more leaves)

theorem turned_of_extends (ht : a.Turned t u) : b.Turned t u := by
  cases ht with
  | kept => exact .kept
  | paused runs => exact .paused runs
  | stopped active stays => exact .stopped active (hasLeaving_of_extends a b h hdrawn t false stays)
  | granted active leaves =>
      exact .granted active (hasLeaving_of_extends a b h hdrawn t true leaves)

/-- What a program said about the end of a step it still says after additions. -/
theorem ended_of_extends (concern : Concern) (ht : a.Ended concern t u) : b.Ended concern t u := by
  rcases ht with ⟨finished, started, relieved, hfinish, hstart, hrelieve, hturn⟩
  exact .intro finished started relieved (finished_of_extends a b h hdrawn t finished hfinish)
    (started_of_extends a b h hdrawn finished started concern hstart)
    (relieved_of_extends a b h hdrawn started relieved hrelieve)
    (turned_of_extends a b h hdrawn relieved u hturn)

end Growth

section Phases

variable (app : App)

/-- A broadcast in parts: the message that ends the bootstrap enables monitors first, and
    every message is then delivered in the same way. -/
theorem broadcast_ok (m : Message) (ts us : List Thread)
    (receivers : Std.ExtTreeSet ThreadId) (h : app.broadcast m ts = .ok (us, receivers)) :
    ∃ name ready delivered, messageName m = .ok name
      ∧ ((endsBootstrap m = true ∧ app.enableMonitors ts = .ok ready)
        ∨ (endsBootstrap m = false ∧ ready = ts))
      ∧ ready.mapM (app.deliver name) = .ok delivered ∧ delivered.map Prod.fst = us
      ∧ Std.ExtTreeSet.ofList ((delivered.filter Prod.snd).map fun p => p.1.id) = receivers := by
  unfold broadcast at h
  rcases (except_bind_ok _ _ _).mp h with ⟨name, hname, h⟩
  dsimp only at h
  split at h
  next hends =>
    rcases (except_bind_ok _ _ _).mp h with ⟨ready, hready, h⟩
    rcases (except_bind_ok _ _ _).mp h with ⟨delivered, hdelivered, h⟩
    rcases Prod.mk.inj ((except_pure_ok _ _).mp h) with ⟨hus, hreceivers⟩
    exact ⟨name, ready, delivered, hname, Or.inl ⟨hends, hready⟩, hdelivered, hus, hreceivers⟩
  next hends =>
    rcases (except_bind_ok _ _ _).mp h with ⟨ready, hready, h⟩
    rcases (except_bind_ok _ _ _).mp h with ⟨delivered, hdelivered, h⟩
    rcases Prod.mk.inj ((except_pure_ok _ _).mp h) with ⟨hus, hreceivers⟩
    -- Any other message enables nobody, and the threads it is delivered to are those it found.
    refine ⟨name, ready, delivered, hname, Or.inr ⟨?_, ?_⟩, hdelivered, hus, hreceivers⟩
    · simpa using hends
    · exact ((except_pure_ok _ _).mp hready).symm

/-- A message that ends the bootstrap first enables the monitors that were not started yet. -/
theorem enabled_of_enableMonitor (t u : Thread) (h : app.enableMonitor t = .ok u) :
    u = t ∨ (t.status = .disabled ∧ app.IsMonitor t ∧ u = { t with status := .done }) := by
  unfold enableMonitor at h
  split at h
  next hasleep =>
    rcases (except_bind_ok _ _ _).mp h with ⟨script, hscript, h⟩
    -- Whether it is enabled depends on the event of its script alone.
    have hu := (except_pure_ok _ _).mp h
    split at hu
    next hevent => exact Or.inr ⟨hasleep, ⟨script, hscript, hevent⟩, hu.symm⟩
    next => exact Or.inl hu.symm
  next =>
    cases h
    exact Or.inl rfl

/-- A message is delivered to those who have not failed and whose scripts wait for it. -/
theorem received_of_deliver (name : String) (t : Thread) (p : Thread × Bool)
    (h : app.deliver name t = .ok p) :
    (p = (t, false) ∧ (t.status = .failure
        ∨ ∃ script, app.scriptOf t = .ok script ∧ script.event.matchesName name = false))
      ∨ (t.status ≠ .failure
        ∧ (∃ script, app.scriptOf t = .ok script ∧ script.event.matchesName name = true)
        ∧ ∃ entry, app.entryPlace t = .ok entry ∧ p = (t.atStart entry, true)) := by
  unfold deliver at h
  split at h
  -- The guards in their order: a failed thread hears nothing, then the script decides, and a
  -- restart needs an entry.
  next hfailed =>
    cases h
    exact Or.inl ⟨rfl, Or.inl hfailed⟩
  next halive =>
    rcases (except_bind_ok _ _ _).mp h with ⟨script, hscript, h⟩
    split at h
    next hmatch =>
      rcases (except_bind_ok _ _ _).mp h with ⟨v, hv, h⟩
      cases (except_pure_ok _ _).mp h
      unfold restart at hv
      rcases (except_bind_ok _ _ _).mp hv with ⟨entry, hentry, hv⟩
      cases (except_pure_ok _ _).mp hv
      exact Or.inr ⟨halive, ⟨script, hscript, hmatch⟩, entry, hentry, rfl⟩
    next hother =>
      cases (except_pure_ok _ _).mp h
      exact Or.inl ⟨rfl, Or.inr ⟨script, hscript, Bool.eq_false_iff.mpr hother⟩⟩

/-- A script that reacts to messages is none that reacts to statements. -/
theorem noMonitor_of_matches (name : String) (t : Thread)
    (h : ∃ script, app.scriptOf t = .ok script ∧ script.event.matchesName name = true) :
    app.NoMonitor t := by
  rcases h with ⟨script, hscript, hmatch⟩
  refine ⟨script, hscript, fun hevent => ?_⟩
  -- An event has one kind, and that of a monitor has no name to match.
  rw [hevent] at hmatch
  cases hmatch

/-- What a message does to each thread. It is delivered, except that a monitor that it enables
    receives no message. -/
theorem sent_of_broadcast (m : Message) (ts us : List Thread) (receivers : Std.ExtTreeSet ThreadId)
    (h : app.broadcast m ts = .ok (us, receivers)) :
    ∃ name delivered, messageName m = .ok name
      ∧ List.Forall₂ (fun t p => app.deliver name t = .ok p ∨ (endsBootstrap m = true
          ∧ t.status = .disabled ∧ app.IsMonitor t ∧ p = ({ t with status := .done }, false)))
          ts delivered
      ∧ delivered.map Prod.fst = us
      ∧ Std.ExtTreeSet.ofList ((delivered.filter Prod.snd).map fun p => p.1.id) = receivers := by
  rcases app.broadcast_ok m ts us receivers h with
    ⟨name, ready, delivered, hname, hready, hdelivered, hus, hreceivers⟩
  have hsent := (except_mapM_ok _ _ _).mp hdelivered
  refine ⟨name, delivered, hname, ?_, hus, hreceivers⟩
  -- If monitors are enabled first, the list in between is composed away. A monitor that was enabled
  -- has no script that matches, so its delivery kept it as it was.
  rcases hready with ⟨hends, hready⟩ | ⟨_, rfl⟩
  · refine (forall₂_comp _ _ ts ready delivered ((except_mapM_ok _ _ _).mp hready) hsent).imp ?_
    rintro t p ⟨v, hv, hp⟩
    rcases app.enabled_of_enableMonitor t v hv with rfl | ⟨hasleep, hmonitor, rfl⟩
    · exact Or.inl hp
    · rcases app.received_of_deliver name _ p hp with ⟨rfl, _⟩ | ⟨_, hmatches, _⟩
      · exact Or.inr ⟨hends, hasleep, hmonitor, rfl⟩
      · exact absurd hmonitor (app.not_isMonitor_of_noMonitor t
          (app.noMonitor_of_matches name t hmatches))
  · exact hsent.imp fun _ _ hp => Or.inl hp

/-- A message that was sent. Those who receive it are no monitors and wait for nobody afterwards. -/
theorem heard_of_broadcast (m : Message) (ts us : List Thread) (receivers : Std.ExtTreeSet ThreadId)
    (h : app.broadcast m ts = .ok (us, receivers)) :
    List.Forall₂ (app.Heard m) ts us
      ∧ ∀ id, id ∈ receivers → ∃ u ∈ us, u.id = id ∧ app.NoMonitor u ∧ u.waitingFor = ∅ := by
  rcases app.sent_of_broadcast m ts us receivers h with ⟨name, delivered, _, hsent, rfl, rfl⟩
  refine ⟨List.forall₂_map_right_iff.mpr (hsent.imp ?_), fun id hid => ?_⟩
  -- What a delivery does falls under the three cases of the relation.
  · rintro t p (hp | ⟨hends, hasleep, hmonitor, rfl⟩)
    · rcases app.received_of_deliver name t p hp with
        ⟨rfl, _⟩ | ⟨halive, hmatches, entry, hentry, rfl⟩
      · exact .kept
      · exact .restarted halive (app.noMonitor_of_matches name t hmatches) entry hentry
    · exact .enabled hends hasleep hmonitor
  -- A receiver is one whose delivery was marked, and only a restart is marked.
  · rw [Std.ExtTreeSet.mem_ofList, List.contains_iff_mem] at hid
    rcases List.mem_map.mp hid with ⟨p, hp, rfl⟩
    rcases List.mem_filter.mp hp with ⟨hp, hgot⟩
    rcases mem_of_forall₂_right _ ts delivered hsent p hp with ⟨t, _, hone | ⟨_, _, _, rfl⟩⟩
    · rcases app.received_of_deliver name t p hone with ⟨rfl, _⟩ | ⟨_, hmatches, entry, _, rfl⟩
      · cases hgot
      · exact ⟨_, List.mem_map_of_mem hp, rfl, app.noMonitor_of_matches name _ hmatches, rfl⟩
    · cases hgot

theorem finished_of_finishThread (t u : Thread) (h : app.finishThread t = .ok u) :
    app.Finished t u := by
  unfold finishThread at h
  split at h
  next hstopped =>
    cases h
    exact .kept (hstopped.imp_right Or.inl)
  next hactive =>
    rcases (except_bind_ok _ _ _).mp h with ⟨more, hmore, h⟩
    cases more with
    | true =>
        cases (except_pure_ok _ _).mp h
        exact .kept (Or.inr (Or.inr hmore))
    | false =>
        cases (except_pure_ok _ _).mp h
        exact .stopped (not_or.mp hactive) hmore

theorem finished_of_finishThreads (ts us : List Thread) (h : app.finishThreads ts = .ok us) :
    List.Forall₂ app.Finished ts us :=
  ((except_mapM_ok _ _ _).mp h).imp app.finished_of_finishThread

theorem started_of_startMonitors (concern : Concern) (ts us : List Thread)
    (h : app.startMonitors concern ts = .ok us) : List.Forall₂ (app.Started concern) ts us := by
  unfold startMonitors at h
  split at h
  -- Monitors are started by steps of the program only. For the others the list is kept as a whole.
  next hprogram =>
    refine ((except_mapM_ok _ _ _).mp h).imp fun t u hu => ?_
    unfold startMonitor at hu
    split at hu
    next hasleep =>
      cases hu
      exact .kept (Or.inr (Or.inl hasleep))
    next henabled =>
      rcases (except_bind_ok _ _ _).mp hu with ⟨script, hscript, hu⟩
      split at hu
      next hevent =>
        unfold restart at hu
        rcases (except_bind_ok _ _ _).mp hu with ⟨entry, hentry, hu⟩
        cases (except_pure_ok _ _).mp hu
        exact .restarted hprogram henabled ⟨script, hscript, hevent⟩ entry hentry
      next hevent =>
        cases (except_pure_ok _ _).mp hu
        exact .kept (Or.inr (Or.inr ⟨script, hscript, hevent⟩))
  next hother =>
    cases h
    exact List.forall₂_same.mpr fun t _ => .kept (Or.inl hother)

theorem relieved_refl (t : Thread) : app.Relieved t t := .kept t.waitingFor fun _ hid => hid

/-- A thread that was relieved twice. Only the first time can it be in `Wait`, if its wait is over
    then. -/
theorem relieved_trans (t u v : Thread) (h : app.Relieved t u) (h' : app.Relieved u v) :
    app.Relieved t v := by
  cases h with
  | kept ids fewer =>
      cases h' with
      | kept ids' fewer' => exact .kept ids' fun id hid => fewer id (fewer' id hid)
      | awake ids' fewer' waits more leaves =>
          exact .awake ids' (fun id hid => fewer id (fewer' id hid)) waits more
            ((app.hasLeaving_of_place t _ rfl).symm.trans leaves)
  | awake ids fewer waits more leaves =>
      cases h' with
      | kept ids' fewer' =>
          exact .awake ids' (fun id hid => fewer id (fewer' id hid)) waits more leaves
      -- After its wait is over the thread is in `Yield` or `Done`, so it is not over a second time.
      | awake _ _ waits' _ _ => cases more <;> cases waits'

end Phases

section Reducing

variable (app : App) (rest : Std.ExtTreeSet ThreadId) (t u : Thread)

theorem reduced_of_wake (hwait : t.status = .wait) (hover : rest = ∅)
    (h : app.wake { t with waitingFor := rest } = .ok u) : app.Reduced rest t u := by
  unfold wake at h
  rcases (except_bind_ok _ _ _).mp h with ⟨more, hmore, h⟩
  cases (except_pure_ok _ _).mp h
  exact .awake hwait hover more ((app.hasLeaving_of_place t _ rfl).symm.trans hmore)

/-- Those who are done are taken off the waiting set. -/
theorem reduced_of_releaseThread (finished : Std.ExtTreeSet ThreadId)
    (h : app.releaseThread finished t = .ok u) : app.Reduced (t.waitingFor \ finished) t u := by
  unfold releaseThread at h
  split at h
  next hempty =>
    cases h
    exact .kept (Std.ExtTreeSet.isEmpty_iff.mp hempty)
  next =>
    dsimp only at h
    split at h
    -- The wait is over exactly if nobody is left and the thread was in `Wait`.
    next hover => exact app.reduced_of_wake _ t u hover.1 (Std.ExtTreeSet.isEmpty_iff.mp hover.2) h
    next hstays =>
      cases h
      exact .fewer fun hwait hempty => hstays ⟨hwait, Std.ExtTreeSet.isEmpty_iff.mpr hempty⟩

/-- A condition that holds is taken off the waiting set of the thread that waits for it. -/
theorem reduced_of_conditionHolds (checker : ThreadId) (hwait : t.status = .wait)
    (h : Scheduler.conditionHolds app checker t = .ok u) :
    app.Reduced (t.waitingFor.erase checker) t u := by
  unfold Scheduler.conditionHolds at h
  dsimp only at h
  split at h
  next hempty => exact app.reduced_of_wake _ t u hwait (Std.ExtTreeSet.isEmpty_iff.mp hempty) h
  next hsome =>
    cases h
    exact .fewer fun _ hempty => hsome (Std.ExtTreeSet.isEmpty_iff.mpr hempty)

variable (h : app.Reduced rest t u)

include h

theorem mem_of_reduced (id : ThreadId) (hid : id ∈ u.waitingFor) : id ∈ rest := by
  cases h with
  | kept nobody =>
      rw [nobody] at hid
      exact absurd hid Std.ExtTreeSet.not_mem_empty
  | fewer => exact hid
  | awake => exact hid

variable (hfewer : ∀ id, id ∈ rest → id ∈ t.waitingFor)

include hfewer

theorem relieved_of_reduced : app.Relieved t u := by
  cases h with
  | kept => exact app.relieved_refl t
  | fewer => exact .kept rest hfewer
  | awake waits _ more leaves => exact .awake rest hfewer waits more leaves

/-- A thread that waits goes on waiting for those that are left. -/
theorem waits_of_reduced (hwait : t.status = .wait) (id : ThreadId) (hid : id ∈ rest) :
    u.status = .wait ∧ id ∈ u.waitingFor := by
  cases h with
  | kept => exact ⟨hwait, hfewer id hid⟩
  | fewer => exact ⟨hwait, hid⟩
  -- It would have been relieved of everybody, but one is left.
  | awake _ nobodyLeft =>
      rw [nobodyLeft] at hid
      exact absurd hid Std.ExtTreeSet.not_mem_empty

end Reducing

theorem relieved_of_releaseWaiting (app : App) (ts us : List Thread)
    (h : app.releaseWaiting ts = .ok us) : List.Forall₂ app.Relieved ts us :=
  ((except_mapM_ok _ _ _).mp h).imp fun t u hu => app.relieved_of_reduced _ t u
    (app.reduced_of_releaseThread t u (finishedIds ts) hu)
    fun _ hid => (Std.ExtTreeSet.mem_diff_iff.mp hid).1

end App

end ActorCheck

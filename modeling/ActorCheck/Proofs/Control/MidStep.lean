import ActorCheck.Proofs.Control.Phases
import ActorCheck.Proofs.Control.Statements

/-!
# In the Middle of a Step

What the checks of the scheduler rely on while a thread takes its step. The thread is
there, no other thread runs, and every thread waits for one condition at most. Which
thread runs next is decided at the very end, so until then nobody begins to run: threads
are started, woken up and finished, but all that they become is able to run or done.

Only two statements make a thread wait for more than before. A timed wait adds a
condition thread with a new number to the waiting set of a thread that waited for nobody.
A broadcast makes its sender wait for threads, and threads are no condition threads.

## Main definitions

* `Thread.Calmer`: A thread after a change that neither lets it run nor makes it wait.
* `ControlState.Calmer`: The same for all threads of a state.
* `ControlState.SingleChecks`: Every thread waits for one condition at most.
* `ControlState.InStep`: A state in the middle of a step.

## Theorems

* `ControlState.inStep_of_calmer`: What survives calming changes.
* `Scheduler.inStep_of_effect`: Every statement leaves the state in the middle of a step.
* `Scheduler.calmer_of_woken`: Waking up is calming.
-/

namespace ActorCheck

/-- A thread after a change that neither lets it run nor makes it wait for more. -/
structure Thread.Calmer (t u : Thread) : Prop where
  running : u.status = .running → t.status = .running
  fewer : ∀ id, id ∈ u.waitingFor → id ∈ t.waitingFor

namespace Thread

theorem calmer_refl (t : Thread) : t.Calmer t := ⟨fun h => h, fun _ h => h⟩

theorem calmer_trans (t u v : Thread) (h : t.Calmer u) (h' : u.Calmer v) : t.Calmer v :=
  ⟨fun hrun => h.running (h'.running hrun), fun id hid => h.fewer id (h'.fewer id hid)⟩

end Thread

namespace App

variable (app : App)

section Changes

variable (t u : Thread)

theorem calmer_of_heard (m : Message) (h : app.Heard m t u) : t.Calmer u := by
  refine ⟨?_, app.fewer_of_heard t u m h⟩
  cases h with
  | kept => exact id
  | enabled => exact nofun
  | restarted => exact nofun

theorem calmer_of_finished (h : app.Finished t u) : t.Calmer u := by
  refine ⟨?_, fun id hid => app.fewer_of_finished t u h ▸ hid⟩
  cases h with
  | kept => exact id
  | stopped => exact nofun

theorem calmer_of_started (concern : Concern) (h : app.Started concern t u) : t.Calmer u := by
  refine ⟨?_, app.fewer_of_started t u concern h⟩
  cases h with
  | kept => exact id
  | restarted => exact nofun

/-- A thread whose wait is over can run or is done. -/
theorem calmer_of_relieved (h : app.Relieved t u) : t.Calmer u := by
  refine ⟨?_, app.fewer_of_relieved t u h⟩
  cases h with
  | kept => exact id
  | awake _ _ _ more _ =>
      cases more with
      | true => exact nofun
      | false => exact nofun

end Changes

theorem calmer_of_broadcast (m : Message) (ts us : List Thread)
    (receivers : Std.ExtTreeSet ThreadId) (h : app.broadcast m ts = .ok (us, receivers)) :
    List.Forall₂ Thread.Calmer ts us :=
  (app.heard_of_broadcast m ts us receivers h).1.imp fun t u hu => app.calmer_of_heard t u m hu

end App

namespace ControlState

variable {σ : Type}

/-- Every thread waits for one condition at most. -/
def SingleChecks (s : ControlState σ) : Prop :=
  ∀ t ∈ s.threads, ∀ p ∈ s.conditions, ∀ q ∈ s.conditions,
    p.id ∈ t.waitingFor → q.id ∈ t.waitingFor → p.id = q.id

/-- A state in the middle of a step of the thread at an index: the thread is there, no
    other thread runs, and every thread waits for one condition at most. -/
structure InStep (s : ControlState σ) (index : Nat) : Prop where
  present : index < s.threads.length
  alone : ∀ i t, s.threads[i]? = some t → t.status = .running → i = index
  single : s.SingleChecks

/-- A state in which all threads are calmer and no condition thread is new. -/
structure Calmer (s u : ControlState σ) : Prop where
  threads : List.Forall₂ Thread.Calmer s.threads u.threads
  conditions : ∀ q ∈ u.conditions, ∃ p ∈ s.conditions, p.id = q.id

theorem calmer_refl (s : ControlState σ) : s.Calmer s :=
  ⟨List.forall₂_same.mpr fun t _ => t.calmer_refl, fun q hq => ⟨q, hq, rfl⟩⟩

theorem calmer_trans (s u v : ControlState σ) (h : s.Calmer u) (h' : u.Calmer v) : s.Calmer v := by
  refine ⟨forall₂_trans Thread.Calmer Thread.calmer_trans _ _ _ h.threads h'.threads, ?_⟩
  intro r hr
  rcases h'.conditions r hr with ⟨q, hq, hqr⟩
  rcases h.conditions q hq with ⟨p, hp, hpq⟩
  exact ⟨p, hp, hpq.trans hqr⟩

/-- Only the threads change. -/
theorem calmer_of_threads (s : ControlState σ) (us : List Thread)
    (h : List.Forall₂ Thread.Calmer s.threads us) : s.Calmer { s with threads := us } :=
  ⟨h, fun q hq => ⟨q, hq, rfl⟩⟩

/-- One thread changes. -/
theorem calmer_of_setThread (s : ControlState σ) (index : Nat) (t u : Thread)
    (ht : s.threads[index]? = some t) (h : t.Calmer u) : s.Calmer (s.setThread index u) :=
  calmer_of_threads s _
    (forall₂_set Thread.Calmer s.threads (fun v _ => v.calmer_refl) index t u ht h)

theorem singleChecks_of_calmer (s u : ControlState σ) (h : s.Calmer u) (hs : s.SingleChecks) :
    u.SingleChecks := by
  -- Whoever waits for two conditions now has waited for both before, under the same numbers.
  intro v hv p hp q hq hpv hqv
  rcases mem_of_forall₂_right _ _ _ h.threads v hv with ⟨t, ht, htv⟩
  rcases h.conditions p hp with ⟨p', hp', hpid⟩
  rcases h.conditions q hq with ⟨q', hq', hqid⟩
  rw [← hpid, ← hqid]
  refine hs t ht p' hp' q' hq' ?_ ?_
  · rw [hpid]
    exact htv.fewer _ hpv
  · rw [hqid]
    exact htv.fewer _ hqv

/-- Calming changes leave the state in the middle of a step. -/
theorem inStep_of_calmer (s u : ControlState σ) (index : Nat) (h : s.Calmer u)
    (hs : s.InStep index) : u.InStep index := by
  refine ⟨h.threads.length_eq ▸ hs.present, ?_, singleChecks_of_calmer s u h hs.single⟩
  intro i v hv hrun
  rcases getElem?_of_forall₂_right _ _ _ h.threads i v hv with ⟨t, ht, htv⟩
  exact hs.alone i t ht (htv.running hrun)

/-- One thread changes, and does not wait for two conditions. -/
theorem singleChecks_of_setThread (s : ControlState σ) (index : Nat) (u : Thread)
    (hs : s.SingleChecks) (hu : ∀ p ∈ s.conditions, ∀ q ∈ s.conditions,
      p.id ∈ u.waitingFor → q.id ∈ u.waitingFor → p.id = q.id) :
    (s.setThread index u).SingleChecks := by
  intro v hv
  rcases List.mem_or_eq_of_mem_set hv with hv | rfl
  · exact hs v hv
  · exact hu

/-- The thread that takes the step changes. It may do anything but wait for two
    conditions. -/
theorem inStep_of_setThread (s : ControlState σ) (index : Nat) (u : Thread)
    (hs : s.InStep index) (hu : ∀ p ∈ s.conditions, ∀ q ∈ s.conditions,
      p.id ∈ u.waitingFor → q.id ∈ u.waitingFor → p.id = q.id) :
    (s.setThread index u).InStep index := by
  refine ⟨?_, ?_, singleChecks_of_setThread s index u hs.single hu⟩
  · unfold setThread
    rw [List.length_set]
    exact hs.present
  · intro i v hv hrun
    by_contra hne
    unfold setThread at hv
    rw [List.getElem?_set_ne (Ne.symm hne)] at hv
    exact hne (hs.alone i v hv hrun)

/-- The thread that takes the step changes, but waits for the same as before. -/
theorem inStep_of_sameWait (s : ControlState σ) (index : Nat) (t u : Thread)
    (hs : s.InStep index) (ht : s.threads[index]? = some t) (hsame : u.waitingFor = t.waitingFor) :
    (s.setThread index u).InStep index := by
  refine inStep_of_setThread s index u hs ?_
  rw [hsame]
  exact hs.single t (List.mem_of_getElem? ht)

/-- A condition thread is added. Whoever waits for it waits for no other. -/
theorem inStep_of_newCondition (s : ControlState σ) (index : Nat) (c : Thread)
    (hs : s.InStep index) (hnew : ∀ t ∈ s.threads, c.id ∈ t.waitingFor →
      ∀ q ∈ s.conditions, q.id ∈ t.waitingFor → q.id = c.id) :
    ({ s with conditions := s.conditions ++ [c] } : ControlState σ).InStep index := by
  refine ⟨hs.present, hs.alone, ?_⟩
  -- Both conditions are old, both are the new one, or one is new and one is old. In the last case
  -- the premise applies.
  intro t ht p hp q hq hpt hqt
  rcases List.mem_append.mp hp with hp | hp
  · rcases List.mem_append.mp hq with hq | hq
    · exact hs.single t ht p hp q hq hpt hqt
    · rw [List.mem_singleton.mp hq] at hqt ⊢
      exact hnew t ht hqt p hp hpt
  · rw [List.mem_singleton.mp hp] at hpt ⊢
    rcases List.mem_append.mp hq with hq | hq
    · exact (hnew t ht hpt q hq hqt).symm
    · rw [List.mem_singleton.mp hq]

end ControlState

namespace Scheduler

variable {σ : Type}

section Statements

/-- Every statement leaves the state in the middle of a step. -/
theorem inStep_of_effect (app after : App) (s u : ControlState σ) (index : Nat) (t : Thread)
    (statement : Statement) (hs : s.InStep index) (hlinked : app.Linked s.threads s.conditions)
    (ht : s.threads[index]? = some t) (hrun : t.status = .running)
    (h : Effect app after s index t statement u) : u.InStep index := by
  have hsent : ∀ m threads receivers, app.broadcast m s.threads = .ok (threads, receivers) →
      ({ s with threads := threads } : ControlState σ).InStep index := by
    intro m threads receivers hbroadcast
    exact s.inStep_of_calmer _ index
      (s.calmer_of_threads threads (app.calmer_of_broadcast m _ threads receivers hbroadcast)) hs
  -- Most statements change the one thread and nothing of what it waits for. Messages calm the
  -- others.
  cases h with
  | unchanged => exact hs
  | signalled properties =>
      have hfailed := s.inStep_of_sameWait index t
        { t with status := .failure, failedFor := t.failedFor ∪ properties } hs ht rfl
      -- What is marked as violated belongs to the state and is not looked at here.
      exact ⟨hfailed.present, hfailed.alone, hfailed.single⟩
  | opened => exact s.inStep_of_sameWait index t _ hs ht rfl
  | closed => exact s.inStep_of_sameWait index t _ hs ht rfl
  | entered _ _ _ v _ hsame => exact s.inStep_of_sameWait index t v hs ht hsame
  | returned _ v _ hsame => exact s.inStep_of_sameWait index t v hs ht hsame
  | sent m threads receivers hbroadcast => exact hsent m threads receivers hbroadcast
  | unheard m threads hbroadcast => exact hsent m threads ∅ hbroadcast
  | asked m threads receivers sender hbroadcast =>
      refine ControlState.inStep_of_setThread _ index _ (hsent m threads receivers hbroadcast) ?_
      -- The sender waits for threads, and no thread has the number of a condition thread.
      rcases app.later_of_broadcast m s.threads threads receivers hlinked.orderly hbroadcast with
        ⟨hlater, hreceivers⟩
      have hlinked' := app.linked_of_later s.threads s.conditions threads hlinked hlater
      intro p hp q _ hpid _
      rcases hreceivers p.id hpid with ⟨v, hv, hvid, _⟩
      exact absurd hvid (app.apart_of_linked threads s.conditions hlinked' v hv p hp)
  | paused args result checker ops hnew =>
      -- A thread that runs waits for nobody, so it waits for the new condition thread alone.
      have hfree : t.waitingFor = ∅ :=
        app.waitingFor_of_orderly t (hlinked.orderly t (List.mem_of_getElem? ht))
          (by rw [hrun]; decide) (by rw [hrun]; decide)
      have honly : ∀ id : Nat, id ∈ t.waitingFor.insert checker.id → id = checker.id := by
        intro id hid
        rcases Std.ExtTreeSet.mem_insert.mp hid with heq | hold
        · exact (Std.LawfulEqCmp.eq_of_compare heq).symm
        · rw [hfree] at hold
          exact absurd hold Std.ExtTreeSet.not_mem_empty
      refine ControlState.inStep_of_newCondition _ index checker
        (s.inStep_of_setThread index _ hs ?_) ?_
      · intro p _ q _ hp hq
        exact (honly p.id hp).trans (honly q.id hq).symm
      · intro v hv hcv q hq hqv
        rcases List.mem_or_eq_of_mem_set hv with hv | rfl
        -- Nobody else can wait for a number that was not drawn before.
        · exact absurd (hlinked.awaited v hv checker.id hcv) (Nat.not_lt.mpr hnew)
        · exact honly q.id hqv
  | resolved => exact ⟨hs.present, hs.alone, hs.single⟩

/-- Taking an edge leaves the state in the middle of a step. -/
theorem inStep_of_gives_follow (s : ControlState σ) (index : Nat) (op : Operation)
    (target : Place) (t : Thread) (k k' : Scheduler) (outcomes : List (ControlState.Outcome σ))
    (hs : s.InStep index) (hlinked : k.app.Linked s.threads s.conditions)
    (ht : s.threads[index]? = some t) (hrun : t.status = .running)
    (h : Gives (follow s index op target) k outcomes k') : ∀ o ∈ outcomes, o.1.InStep index := by
  rcases effect_of_gives_follow s index op target t k k' outcomes ht h with ⟨loops, heffect⟩
  let moved : Thread := { t with loops := loops, place := target }
  have hlater : k.app.Later t moved :=
    k.app.later_of_running t moved (hlinked.orderly t (List.mem_of_getElem? ht)) hrun
      ⟨rfl, rfl, rfl⟩ rfl (by change t.status ≠ .wait; rw [hrun]; decide)
  intro o ho
  exact inStep_of_effect k.app k'.app (s.setThread index moved) o.1 index moved op.statement
    (s.inStep_of_sameWait index t moved hs ht rfl)
    (k.app.linked_of_set s.threads s.conditions hlinked index t moved ht hlater)
    (List.getElem?_set_self (List.getElem?_eq_some_iff.mp ht).1) hrun (heffect o ho)

end Statements

/-- The threads at the end of their relations are done. -/
theorem calmer_afterStep (app : App) (s : ControlState σ) (index : Nat) (t : Thread)
    (threads : List Thread) (data : σ) (ht : s.threads[index]? = some t)
    (h : app.finishThreads (s.setThread index { t with operations := [] }).threads = .ok threads) :
    s.Calmer (afterStep s index threads data) := by
  have hcleared := s.calmer_of_setThread index t { t with operations := [] } ht
    ⟨fun hrun => hrun, fun _ hid => hid⟩
  refine ⟨?_, fun q hq => ⟨q, hq, rfl⟩⟩
  exact forall₂_trans Thread.Calmer Thread.calmer_trans _ _ _ hcleared.threads
    ((app.finished_of_finishThreads _ threads h).imp app.calmer_of_finished)

section Waking

/-- The threads once the monitors were started and the others released. -/
theorem calmer_of_released (app : App) (concern : Concern) (s : ControlState σ)
    (started released : List Thread) (hstart : app.startMonitors concern s.threads = .ok started)
    (hrelease : app.releaseWaiting started = .ok released) :
    s.Calmer { s with threads := released } :=
  s.calmer_of_threads released (forall₂_trans Thread.Calmer Thread.calmer_trans _ _ _
    ((app.started_of_startMonitors concern s.threads started hstart).imp
      fun t u hu => app.calmer_of_started t u concern hu)
    ((app.relieved_of_releaseWaiting started released hrelease).imp app.calmer_of_relieved))

/-- The conditions are evaluated where nobody begins to run or to wait. -/
theorem calmer_of_surveyed (app : App) (s u : ControlState σ) (h : app.Surveyed s u) :
    s.Calmer u := by
  refine ⟨h.threads.imp app.calmer_of_relieved, fun q hq => ?_⟩
  rcases h.conditions q hq with ⟨p, hp, hsame⟩
  exact ⟨p, hp, hsame.id.symm⟩

/-- Waking up is calming. -/
theorem calmer_of_woken [DecidableEq σ] (c : Control σ) (before after : App) (concern : Concern)
    (s u : ControlState σ) (h : Woken c before after concern s u) : s.Calmer u := by
  rcases h with ⟨started, released, hstart, hrelease, hcheck⟩
  exact s.calmer_trans _ u (calmer_of_released before concern s started released hstart hrelease)
    (calmer_of_surveyed after _ u (surveyed_of_checked c after _ u hcheck))

end Waking

end Scheduler

end ActorCheck

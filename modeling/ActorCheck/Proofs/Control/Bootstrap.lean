import ActorCheck.Proofs.Control.Failures

/-!
# Before the Bootstrap Is Over

A monitor is disabled when the program starts, and only one message enables it. Until that message
is sent, no statement of the program starts the monitor.

There is one other way out of `Disabled`. A thread from whose place nothing leaves counts as done
when a step is over, whether it was ever enabled or not. A monitor that has nothing to do is in this
situation from the beginning, so the first step makes it done, and every further step of the program
starts it again. All other monitors stay disabled: `Resting` says which case a monitor is in once a
step was taken.

## Main definitions

* `Move.EndsBootstrap`: A move says that the bootstrap is over.
* `App.Resting`: A monitor that was not enabled.

## Theorems

* `App.resting_of_ended`: A monitor at the end of a step.
* `Scheduler.resting_of_passage`: A monitor after a move.
* `Session.resting_of_course`: A monitor before the bootstrap is over.
* `Session.disabled_iff_watches`: Which monitors are disabled.
* `Session.enabled_without_message`: A monitor that is not disabled any more.
-/

namespace ActorCheck

/-- The move sends the message that the bootstrap is over. -/
def Move.EndsBootstrap {σ : Type} (m : Move σ) : Prop :=
  ∃ message, m.Sends message ∧ endsBootstrap message = true

namespace App

variable (app : App) (t u : Thread)

/-- The thread is disabled, or it has nowhere to go and does not run. -/
def Resting (app : App) (t : Thread) : Prop :=
  (t.status = .disabled ∧ app.hasLeaving t = .ok true)
    ∨ ((t.status = .failure ∨ t.status = .done ∨ t.status = .yield)
      ∧ app.hasLeaving t = .ok false)

theorem resting_of_extends (b : App) (h : app.Extends b) (hdrawn : app.RelationsDrawn)
    (ht : app.Resting t) : b.Resting t :=
  ht.imp (And.imp_right (hasLeaving_of_extends app b h hdrawn t true))
    (And.imp_right (hasLeaving_of_extends app b h hdrawn t false))

theorem idle_of_resting (h : app.Resting t) : t.status ≠ .running ∧ t.status ≠ .wait := by
  rcases h with ⟨hstatus, _⟩ | ⟨hstatus | hstatus | hstatus, _⟩ <;> rw [hstatus] <;>
    exact ⟨nofun, nofun⟩

theorem disabled_iff_of_resting (h : app.Resting t) :
    t.status = .disabled ↔ app.hasLeaving t = .ok true := by
  rcases h with ⟨hasleep, hleaves⟩ | ⟨hstatus, hstays⟩
  · exact iff_of_true hasleep hleaves
  · refine iff_of_false ?_ (by rw [hstays]; nofun)
    rcases hstatus with hstatus | hstatus | hstatus <;> rw [hstatus] <;> nofun

/-- Where the ends of relations are looked for, a thread that has nowhere to go is found. -/
theorem resting_of_finished (h : t.status = .disabled ∨ app.Resting t)
    (hfinish : app.Finished t u) :
    app.Resting u ∧ u.place = t.place := by
  cases hfinish with
  | kept going =>
      -- A disabled thread is only left alone if something leaves its place. Otherwise it would have
      -- been stopped.
      refine ⟨h.elim (fun hasleep => Or.inl ⟨hasleep, ?_⟩) id, rfl⟩
      refine (going.resolve_left ?_).resolve_left ?_ <;> rw [hasleep] <;> nofun
  | stopped active stays =>
      exact ⟨Or.inr ⟨Or.inr (Or.inl rfl), (app.hasLeaving_of_place t _ rfl).trans stays⟩, rfl⟩

/-- A monitor that is started again goes back to where it is. -/
theorem resting_of_started (concern : Concern) (hplace : app.entryPlace t = .ok t.place)
    (h : app.Resting t) (hstart : app.Started concern t u) : app.Resting u := by
  cases hstart with
  | kept => exact h
  -- A disabled monitor is not started. One that rests is started at the place where it stands, and
  -- nothing leaves that.
  | restarted _ enabled _ entry start =>
      rw [hplace] at start
      cases start
      rcases h with ⟨hasleep, _⟩ | ⟨_, hstays⟩
      · exact absurd hasleep enabled
      · exact Or.inr ⟨Or.inr (Or.inr rfl), (app.hasLeaving_of_place t _ rfl).trans hstays⟩

theorem resting_of_relieved (h : app.Resting t) (hrelieve : app.Relieved t u) : app.Resting u := by
  cases hrelieve with
  | kept ids =>
      unfold Resting
      rwa [app.hasLeaving_of_place t { t with waitingFor := ids } rfl]
  -- A resting thread does not wait, so it is not woken.
  | awake _ _ waits => exact absurd waits (app.idle_of_resting t h).2

/-- A thread that has nowhere to go does not get the turn. -/
theorem resting_of_turned (h : app.Resting t) (hturn : app.Turned t u) : app.Resting u := by
  cases hturn with
  | kept => exact h
  | paused runs => exact absurd runs (app.idle_of_resting t h).1
  | stopped active stays =>
      exact Or.inr ⟨Or.inr (Or.inl rfl), (app.hasLeaving_of_place t _ rfl).trans stays⟩
  | granted active leaves =>
      -- The turn is only granted to a thread that is active and has somewhere to go. A resting one
      -- lacks the one or the other.
      rcases h with ⟨hstatus, _⟩ | ⟨_, hstays⟩
      · rw [hstatus] at active
        rcases active with hactive | hactive <;> cases hactive
      · rw [leaves] at hstays
        cases hstays

/-- A monitor at the end of a step. -/
theorem resting_of_ended (concern : Concern) (hplace : app.entryPlace t = .ok t.place)
    (h : t.status = .disabled ∨ app.Resting t) (hended : app.Ended concern t u) :
    app.Resting u := by
  rcases hended with ⟨finished, started, relieved, hfinish, hstart, hrelieve, hturn⟩
  rcases app.resting_of_finished t finished h hfinish with ⟨hfinished, hsame⟩
  have hplace' : app.entryPlace finished = .ok finished.place := by
    have hkept : t.Same finished := by
      cases hfinish with
      | kept => exact same_refl t
      | stopped => exact ⟨rfl, rfl, rfl⟩
    rw [app.entryPlace_of_same t finished hkept, hsame]
    exact hplace
  -- Through the four phases, one after the other.
  exact app.resting_of_turned relieved u (app.resting_of_relieved started relieved
    (app.resting_of_started finished started concern hplace' hfinished hstart) hrelieve) hturn

/-- A thread at the entry of its script is there again after a step that does not move it. -/
theorem entry_of_ended (concern : Concern) (hplace : app.entryPlace t = .ok t.place)
    (hended : app.Ended concern t u) : app.entryPlace u = .ok u.place := by
  refine app.kept_of_ended (fun v => app.entryPlace v = .ok v.place) ?_ ?_ ?_ concern t u hended
    hplace
  · exact fun v status hv => (app.entryPlace_of_same v _ ⟨rfl, rfl, rfl⟩).trans hv
  · exact fun v entry hentry _ => (app.entryPlace_of_same v _ ⟨rfl, rfl, rfl⟩).trans hentry
  · exact fun v ids hv => (app.entryPlace_of_same v _ ⟨rfl, rfl, rfl⟩).trans hv

end App

namespace Scheduler

variable {σ : Type} [DecidableEq σ]

/-- A monitor after a move that does not end the bootstrap. -/
theorem resting_of_passage (c : Control σ) (k k' : Scheduler) (m : Move σ) (w : Passage c k k' m)
    (hdrawn : k.app.RelationsDrawn) (hquiet : ¬ m.EndsBootstrap) (i : Nat) (t u : Thread)
    (ht : m.source.threads[i]? = some t) (hu : m.target.threads[i]? = some u)
    (hmonitor : k.app.IsMonitor t) (hplace : k.app.entryPlace t = .ok t.place)
    (h : t.status = .disabled ∨ k.app.Resting t) :
    k'.app.entryPlace u = .ok u.place ∧ k'.app.Resting u := by
  have hext := extends_of_passage c k k' m w
  -- Whoever moves runs and has somewhere to go.
  have hne : m.index ≠ i := by
    rintro rfl
    rw [w.thread] at ht
    cases ht
    have hruns := m.source.isRunning_of_running m.index w.t w.running w.thread
    rcases h with hasleep | hrests
    · rw [hasleep] at hruns
      cases hruns
    · exact (k.app.idle_of_resting w.t hrests).1 hruns
  rcases bystander_of_passage c k k' m w hdrawn i hne t ht with ⟨v, u', hv, hu', hended⟩
  rw [hu] at hu'
  cases hu'
  -- No message changes the monitor: its script is not started by messages, and the one that enables
  -- it is not sent.
  have hvt : v = t := by
    rcases hv with rfl | ⟨message, hsends, hheard⟩
    · rfl
    · cases hheard with
      | kept => rfl
      | enabled ends => exact absurd ⟨message, hsends, ends⟩ hquiet
      | restarted _ hearer =>
          exact absurd (App.isMonitor_of_extends _ _ hext t hmonitor)
            (k'.app.not_isMonitor_of_noMonitor t hearer)
  rw [hvt] at hended
  have hplace' := App.entryPlace_of_extends _ _ hext hdrawn t t.place hplace
  exact ⟨k'.app.entry_of_ended t u w.actor.concern hplace' hended,
    k'.app.resting_of_ended t u w.actor.concern hplace'
      (h.imp_right (k.app.resting_of_extends t k'.app hext hdrawn)) hended⟩

omit [DecidableEq σ] in
/-- A monitor when the program starts. -/
theorem disabled_of_gives_startState (data : σ) (k k' : Scheduler) (s : ControlState σ)
    (hd : k'.app.Distinct) (h : Gives (startState data) k s k') (t : Thread) (ht : t ∈ s.threads)
    (hmonitor : k'.app.IsMonitor t) :
    t.status = .disabled ∧ k'.app.entryPlace t = .ok t.place := by
  rcases mem_of_forall₂_right _ _ _ (begun_of_gives_startState data k k' s h) t ht with
    ⟨entry, hentry, v, hbegins, hturned⟩
  have hplace := k'.app.entryPlace_of_begins hd entry hentry v hbegins
  have hscript := k'.app.scriptOf_of_isOf hd entry hentry v (k'.app.isOf_of_begins entry v hbegins)
  -- The event of the script is that of a monitor, and so its first status is disabled.
  have hevent : entry.2.event = .afterStatement := by
    rcases hmonitor with ⟨script, hfound, hevent⟩
    rw [k'.app.scriptOf_of_same v t (k'.app.same_of_turned v t hturned), hscript] at hfound
    cases hfound
    exact hevent
  have hasleep : v.status = .disabled := by
    rcases hbegins with ⟨r, l, _, _, hv⟩
    rw [hv, hevent]
    rfl
  cases hturned with
  | kept => exact ⟨hasleep, hplace⟩
  | paused runs =>
      rw [hasleep] at runs
      cases runs
  | stopped active =>
      rw [hasleep] at active
      rcases active with hactive | hactive <;> cases hactive
  | granted active =>
      rw [hasleep] at active
      rcases active with hactive | hactive <;> cases hactive

end Scheduler

/-- A program that does nothing for a while, with a monitor of the specification. -/
def idling (watching : List Statement) : App :=
  supervisedApp .specification [.epsilon, .epsilon, .epsilon] watching

/-- The idling program after a number of steps. -/
def idlingSession (watching : List Statement) : Nat → Session Unit :=
  supervisedSession .specification [.epsilon, .epsilon, .epsilon] watching

namespace Session

variable {σ : Type} [DecidableEq σ]

/-- A monitor before the bootstrap is over. -/
theorem resting_of_course (c : Control σ) (app : App) (hdrawn : app.RelationsDrawn)
    (hd : app.Distinct) (x : Session σ) (s : ControlState σ) (moves : List (Move σ))
    (h : Course c app x s moves) (hquiet : ∀ m ∈ moves, ¬ m.EndsBootstrap) (t : Thread)
    (ht : t ∈ s.threads) (hmonitor : app.IsMonitor t) :
    x.scheduler.app.entryPlace t = .ok t.place
      ∧ ((moves = [] ∧ t.status = .disabled)
        ∨ (moves ≠ [] ∧ x.scheduler.app.Resting t)) := by
  -- By induction on the moves. What is carried along is that the monitor stands at its entry, which
  -- decides how it rests after the next move.
  induction moves generalizing x s t with
  | nil =>
      rcases course_nil c app x s h with ⟨data, k, k', hstart, hext, hext'⟩
      rcases Scheduler.disabled_of_gives_startState data k k' s
        (App.distinct_of_extends _ _ hext hd)
        hstart t ht (App.isMonitor_of_extends _ _ hext t hmonitor) with ⟨hasleep, hplace⟩
      exact ⟨App.entryPlace_of_extends _ _ hext' (App.relationsDrawn_of_extends _ _ hext hdrawn) t _
        hplace, Or.inl ⟨rfl, hasleep⟩⟩
  | cons m moves ih =>
      rcases course_cons c app x s m moves h with ⟨rfl, y, k, hy, ⟨w⟩, hk⟩
      have hexplored := (explored_of_course c app y m.source moves hy).1
      have hext := extends_of_explored c app y hexplored
      have hdrawnY := App.relationsDrawn_of_extends _ _ hext hdrawn
      rcases List.getElem?_of_mem ht with ⟨i, hi⟩
      rcases Scheduler.source_of_passage c _ k m w i t hi with ⟨v, hv, hsame⟩
      have hmonitor' := app.isMonitor_of_same t v (same_symm _ _ hsame) hmonitor
      rcases ih y m.source hy (fun m' hm' => hquiet m' (List.mem_cons_of_mem _ hm')) v
        (List.mem_of_getElem? hv) hmonitor' with ⟨hplace, hrests⟩
      rcases Scheduler.resting_of_passage c _ k m w hdrawnY (hquiet m List.mem_cons_self) i v t hv
        hi
        (App.isMonitor_of_extends _ _ hext v hmonitor') hplace (hrests.imp And.right And.right) with
        ⟨hplace', hrests'⟩
      have hdrawnK := App.relationsDrawn_of_extends _ _ (Scheduler.extends_of_passage c _ k m w)
        hdrawnY
      exact ⟨App.entryPlace_of_extends _ _ hk hdrawnK t _ hplace',
        Or.inr ⟨List.cons_ne_nil m moves, k.app.resting_of_extends t _ hk hdrawnK hrests'⟩⟩

/-- Until the message is sent that the bootstrap is over, a monitor is disabled as long as no step
    was taken, and after that exactly if something leaves the entry of its script. -/
theorem disabled_iff_watches (c : Control σ) (app : App) (hdrawn : app.RelationsDrawn)
    (hd : app.Distinct) (x : Session σ) (s : ControlState σ) (moves : List (Move σ))
    (h : Course c app x s moves) (hquiet : ∀ m ∈ moves, ¬ m.EndsBootstrap) (t : Thread)
    (ht : t ∈ s.threads) (hmonitor : app.IsMonitor t) :
    x.scheduler.app.entryPlace t = .ok t.place
      ∧ (t.status = .disabled ↔ moves = [] ∨ x.scheduler.app.hasLeaving t = .ok true) := by
  rcases resting_of_course c app hdrawn hd x s moves h hquiet t ht hmonitor with
    ⟨hplace, ⟨hnone, hasleep⟩ | ⟨hsome, hrests⟩⟩
  · exact ⟨hplace, iff_of_true hasleep (Or.inl hnone)⟩
  · rw [or_iff_right hsome]
    exact ⟨hplace, x.scheduler.app.disabled_iff_of_resting t hrests⟩

/-- The first move of a program that does nothing for a while. -/
theorem course_idling (watching : List Statement)
    (hlength : ∀ i < 2, (idlingSession watching i).found.length = i + 1)
    (hfirst : ∀ s ∈ (idlingSession watching 0).found.getLast?, s.running = [0]
      ∧ ∃ t ∈ s.threads[0]?,
        ∃ edges ∈ ((idlingSession watching 0).scheduler.app.leaving s t).toOption,
        ∀ edge ∈ edges, edge.1.statement = .epsilon) :
    ∃ s m, Course .indifferent (idling watching) (idlingSession watching 1) s [m]
      ∧ s ∈ (idlingSession watching 1).found.getLast? ∧ ¬ m.EndsBootstrap := by
  rcases course_supervisedSession .specification _ watching 1 hlength with
    ⟨s, moves, h, hs, hone, hmoves⟩
  rcases List.length_eq_one_iff.mp hone with ⟨m, rfl⟩
  rcases hmoves 0 m rfl with ⟨hsource, k, ⟨w⟩⟩
  rcases hfirst m.source hsource with ⟨hrunning, t, ht, edges, hedges, hall⟩
  have hedge := (Scheduler.edge_of_passage _ _ _ m w 0 t edges hrunning ht
    ((mem_toOption _ _).mp hedges)).2.2
  refine ⟨s, m, h, hs, ?_⟩
  -- All edges that can be taken do nothing, so no message is sent.
  rintro ⟨message, hsends | hsends, _⟩
  · rw [hall m.edge hedge] at hsends
    cases hsends
  · rw [hall m.edge hedge] at hsends
    cases hsends

/-- A monitor that has something to do is still disabled after a step. -/
theorem disabled_iff_watches_idling : ∃ (s : ControlState Unit) (m : Move Unit),
    Course .indifferent (idling [.epsilon]) (idlingSession [.epsilon] 1) s [m]
      ∧ ¬ m.EndsBootstrap
      ∧ ∃ t ∈ s.threads, (idling [.epsilon]).IsMonitor t ∧ t.status = .disabled := by
  rcases course_idling [.epsilon] (by decide +kernel) (by decide +kernel) with
    ⟨s, m, h, hs, hquiet⟩
  -- What has to be known of the state is computed. That the monitor is disabled is not part of it
  -- but follows.
  have hwatches : ∀ s ∈ (idlingSession [.epsilon] 1).found.getLast?, ∃ t ∈ s.threads,
      (∃ script ∈ ((idling [.epsilon]).scriptOf t).toOption, script.event = .afterStatement)
        ∧ (idlingSession [.epsilon] 1).scheduler.app.hasLeaving t = .ok true := by
    decide +kernel
  rcases hwatches s hs with ⟨t, ht, ⟨script, hscript, hevent⟩, hleaves⟩
  have hmonitor : (idling [.epsilon]).IsMonitor t :=
    ⟨script, (mem_toOption _ _).mp hscript, hevent⟩
  refine ⟨s, m, h, hquiet, t, ht, hmonitor, ?_⟩
  exact (disabled_iff_watches .indifferent _ (App.relationsDrawn_of_draft _ _)
    (App.distinct_of_draft _ _) _ s [m] h (List.forall_mem_singleton.mpr hquiet) t ht
    hmonitor).2.mpr (Or.inr hleaves)

/-- A monitor that has nothing to do is not disabled any more after the first step, although nobody
    has said that the bootstrap is over. -/
theorem enabled_without_message : ¬ ∀ (c : Control Unit) (app : App) (x : Session Unit)
    (s : ControlState Unit) (moves : List (Move Unit)),
    app.RelationsDrawn → app.Distinct → Course c app x s moves →
      (∀ m ∈ moves, ¬ m.EndsBootstrap) →
      ∀ t ∈ s.threads, app.IsMonitor t → t.status = .disabled := by
  intro h
  rcases course_idling [] (by decide +kernel) (by decide +kernel) with ⟨s, m, hcourse, hs, hquiet⟩
  have hstarted : ∀ s ∈ (idlingSession [] 1).found.getLast?, ∃ t ∈ s.threads,
      (∃ script ∈ ((idling []).scriptOf t).toOption, script.event = .afterStatement)
        ∧ t.status ≠ .disabled := by
    decide +kernel
  rcases hstarted s hs with ⟨t, ht, ⟨script, hscript, hevent⟩, henabled⟩
  exact henabled (h .indifferent _ _ s [m] (App.relationsDrawn_of_draft _ _)
    (App.distinct_of_draft _ _) hcourse (List.forall_mem_singleton.mpr hquiet) t ht
    ⟨script, (mem_toOption _ _).mp hscript, hevent⟩)

end Session

end ActorCheck

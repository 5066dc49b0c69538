import ActorCheck.Proofs.Control.Failures
import ActorCheck.Proofs.Control.Messages
import ActorCheck.Proofs.Control.Places
import ActorCheck.Proofs.Control.Priority

/-!
# What a Step Does to Other Threads

A step does nothing to the threads that do not take it, except that it starts some of them again.
These are the threads that receive the message of the step, and the monitors if the step was one of
the program under test. All others stay where they are, with everything that belongs to their place:
the pending calls, the loops around it and the atomic blocks that are open.

A thread that is started again stands at the entry of its script, with nothing pending. There is one
exception to being started, but none to this: a monitor that was not enabled yet is left alone by a
step of the program, and it stands at its entry anyway because it has never been anywhere else.
That is an invariant. At the start all threads stand at their entries, and nobody is disabled later.

## Main definitions

* `Move.StartsAgain`: A thread is among those that a move starts again.

## Theorems

* `Scheduler.delivered_of_passage`: The statement of a move.
* `Session.atEntry_of_disabled`: Where disabled threads stand.
* `Session.others_only_restarted`: What a move does to the other threads.
-/

namespace ActorCheck

/-- A move starts a thread again: the thread receives the message of the move, unless it has failed,
    or it is a monitor and the move is a step of the program under test. -/
def Move.StartsAgain {σ : Type} (app : App) (m : Move σ) (t : Thread) : Prop :=
  (∃ message, m.Sends message ∧ t.status ≠ .failure ∧ app.Receives message t)
    ∨ (app.IsMonitor t ∧ m.OfProgram app)

theorem sends_unique {σ : Type} (m : Move σ) (message message' : Message)
    (h : m.Sends message) (h' : m.Sends message') : message = message' := by
  unfold Move.Sends at h h'
  rcases h with h | h <;> rcases h' with h' | h' <;> cases h.symm.trans h' <;> rfl

namespace App

variable (app : App) (t u : Thread)

/-- Nobody is disabled by the end of a step. -/
theorem disabled_of_ended (concern : Concern) (h : app.Ended concern t u)
    (hu : u.status = .disabled) : t.status = .disabled := by
  rcases h with ⟨finished, started, relieved, hfinish, hstart, hrelieve, hturn⟩
  -- Back through the phases of the end: every change of status leads to another one than this.
  have hrelieved : relieved.status = .disabled := by
    cases hturn with
    | kept => exact hu
    | paused => cases hu
    | stopped => cases hu
    | granted => cases hu
  have hstarted : started.status = .disabled := by
    cases hrelieve with
    | kept => exact hrelieved
    | awake ids _ _ more => cases more <;> cases hrelieved
  have hfinished : finished.status = .disabled := by
    cases hstart with
    | kept => exact hstarted
    | restarted => cases hstarted
  cases hfinish with
  | kept => exact hfinished
  | stopped => cases hfinished

end App

namespace Scheduler

variable {σ : Type}

/-- A message that is sent leaves the other threads as its broadcast has found them. -/
theorem sent_of_gives_interpret (s : ControlState σ) (index : Nat) (t : Thread)
    (statement : Statement) (source target : Place) (message : Message)
    (hsends : statement = .broadcast message ∨ statement = .broadcastAndWait message)
    (k k' : Scheduler) (outcomes : List (ControlState.Outcome σ))
    (h : Gives (interpret s index t statement source target) k outcomes k')
    (o : ControlState.Outcome σ) (ho : o ∈ outcomes) :
    ∃ threads receivers, k.app.broadcast message s.threads = .ok (threads, receivers)
      ∧ ∀ i, index ≠ i → o.1.threads[i]? = threads[i]? := by
  unfold interpret at h
  rw [gives_program_bind] at h
  rcases (gives_lookUp_bind _ _ _ _ _).mp h with ⟨actor, _, h⟩
  -- A broadcast keeps the list that it yields. One that waits also replaces the sender, which is at
  -- another index.
  rcases hsends with rfl | rfl
  · rcases (gives_lookUp_bind _ _ _ _ _).mp h with ⟨⟨threads, receivers⟩, hsent, h⟩
    rcases (gives_pure _ _ _ _).mp h with ⟨rfl, rfl⟩
    rw [List.mem_singleton.mp ho]
    exact ⟨threads, receivers, hsent, fun i _ => rfl⟩
  · rcases (gives_lookUp_bind _ _ _ _ _).mp h with ⟨next, hnext, h⟩
    rcases (gives_pure _ _ _ _).mp h with ⟨rfl, rfl⟩
    rw [List.mem_singleton.mp ho]
    unfold broadcastAndWait at hnext
    rcases (except_bind_ok _ _ _).mp hnext with ⟨⟨threads, receivers⟩, hsent, hnext⟩
    refine ⟨threads, receivers, hsent, fun i hne => ?_⟩
    dsimp only at hnext
    split at hnext
    · cases hnext
    · split at hnext
      · cases (except_pure_ok _ _).mp hnext
        rfl
      · rcases (except_bind_ok _ _ _).mp hnext with ⟨sender, _, hnext⟩
        cases (except_pure_ok _ _).mp hnext
        exact List.getElem?_set_ne hne

variable [DecidableEq σ] (c : Control σ) (k k' : Scheduler) (m : Move σ) (w : Passage c k k' m)

/-- What the statement of a move does to a thread that does not make the move. -/
theorem delivered_of_passage (i : Nat) (hne : m.index ≠ i) (t : Thread)
    (ht : m.source.threads[i]? = some t) : ∃ v, w.s₁.threads[i]? = some v
      ∧ ((v = t ∧ ∀ message, ¬ m.Sends message)
        ∨ ∃ message, m.Sends message ∧ w.k₁.app.Delivered message t v) := by
  rcases interpreted_of_gives_follow m.source m.index m.edge.1 m.edge.2 w.t w.k₁ w.k₂ _ w.thread
    w.followed with ⟨loops, hinterpret⟩
  have hmem : (w.s₁, w.settled) ∈ w.outcomes ++ (w.s₁, w.settled) :: w.outcomes' :=
    List.mem_append_right _ List.mem_cons_self
  have hmoved : (m.source.setThread m.index
      { w.t with loops := loops, place := m.edge.2 }).threads[i]? = some t :=
    (List.getElem?_set_ne hne).trans ht
  -- If a message is sent, its broadcast says what was delivered. If none is, the effects of the
  -- other statements do not reach this thread.
  by_cases hsends : ∃ message, m.Sends message
  · rcases hsends with ⟨message, hsends⟩
    rcases sent_of_gives_interpret _ m.index _ _ _ _ message hsends w.k₁ w.k₂ _ hinterpret
      (w.s₁, w.settled) hmem with ⟨threads, receivers, hsent, hothers⟩
    rcases getElem?_of_forall₂_left _ _ _
      (w.k₁.app.delivered_of_broadcast message _ threads receivers hsent) i t hmoved with
      ⟨v, hv, hdelivered⟩
    exact ⟨v, (hothers i hne).trans hv, Or.inr ⟨message, hsends, hdelivered⟩⟩
  · rcases bystander_of_effect _ _ _ w.s₁ m.index _ _ (effect_of_gives_interpret _ m.index _ _ _ _
      w.k₁ w.k₂ _ hinterpret (w.s₁, w.settled) hmem) i hne t hmoved with ⟨v, hv, hheard⟩
    refine ⟨v, hv, Or.inl ⟨hheard.resolve_right ?_, fun message h => hsends ⟨message, h⟩⟩⟩
    rintro ⟨message, hstatement, _⟩
    exact hsends ⟨message, hstatement⟩

/-- The thread that makes a move is not disabled after its statement. -/
theorem not_disabled_of_passage : w.t₁.status ≠ .disabled := by
  rcases executed_of_passage c k k' m w with ⟨loops, hexecuted⟩
  cases hexecuted with
  | running runs => exact fun h => absurd (runs.symm.trans h) nofun
  | failed _ _ fails => exact fun h => absurd (fails.symm.trans h) nofun
  | restarted ready => exact fun h => absurd (ready.symm.trans h) nofun
  | paused _ _ _ waits => exact fun h => absurd (waits.symm.trans h) nofun
  | asked _ _ _ _ _ _ waits => exact fun h => absurd (waits.symm.trans h) nofun

include w in
/-- If the disabled threads stood at their entries before a move, they do so after it. -/
theorem atEntry_of_passage (hdrawn : k.app.RelationsDrawn)
    (hs : ∀ t ∈ m.source.threads, t.status = .disabled → k.app.AtEntry t) (u : Thread)
    (hu : u ∈ m.target.threads) (hasleep : u.status = .disabled) : k'.app.AtEntry u := by
  rcases List.getElem?_of_mem hu with ⟨i, hi⟩
  -- The thread that moved is not disabled afterwards. Any other one that is disabled now was
  -- disabled before and has not been touched by the statement.
  by_cases hne : m.index = i
  · subst hne
    rcases stepper_of_passage c k k' m w hdrawn with ⟨u', hu', hended⟩
    cases hu'.symm.trans hi
    have hasleep' := k'.app.disabled_of_ended _ u _ hended hasleep
    exact absurd hasleep' (not_disabled_of_passage c k k' m w)
  · rcases source_of_passage c k k' m w i u hi with ⟨t, ht, _⟩
    rcases delivered_of_passage c k k' m w i hne t ht with ⟨v, hv, hvt⟩
    rcases rest_of_passage c k k' m w hdrawn i hne v hv with ⟨u', hu', hended⟩
    cases hu'.symm.trans hi
    have hv' := k'.app.disabled_of_ended v u _ hended hasleep
    -- A delivery that changes a thread leaves it in another status.
    have hsame : v = t := by
      rcases hvt with ⟨rfl, _⟩ | ⟨_, _, hdelivered⟩
      · rfl
      · cases hdelivered with
        | spared => rfl
        | enabled => cases hv'
        | restarted => cases hv'
    rw [hsame] at hv' hended
    exact k'.app.atEntry_of_ended t u _ hended (k.app.atEntry_of_extends t k'.app
      (extends_of_passage c k k' m w) hdrawn (hs t (List.mem_of_getElem? ht) hv'))

/-- The end of a move, for a thread that has received no message of the move. -/
theorem stays_or_restarts_of_deaf (app : App) (hext : app.Extends k.app) (t v u : Thread)
    (script : Script) (hscript : app.scriptOf t = .ok script) (hsame : t.Same v)
    (hstays : t.Stays v)
    (hdeaf : ¬ ∃ message, m.Sends message ∧ t.status ≠ .failure ∧ app.Receives message t)
    (hasleep : v.status = .disabled → k'.app.AtEntry t)
    (hended : k'.app.Ended w.actor.concern v u) :
    (m.StartsAgain app t → k'.app.AtEntry u) ∧ (¬ m.StartsAgain app t → t.Stays u) := by
  have hext' := App.extends_trans _ _ _ hext (extends_of_passage c k k' m w)
  have hprogram := ofProgram_iff c k k' m w app hext
  have hmonitor := app.isMonitor_iff_of_extends k'.app hext' t script hscript
  -- The end of the move keeps the place or restarts the thread, and gives the reason for either.
  rcases k'.app.stays_or_restarts_of_ended v u _ hended with
    ⟨hkept, hreason⟩ | ⟨hconcern, hisMonitor, hentry⟩
  · refine ⟨fun hagain => ?_, fun _ => stays_trans t v u hstays hkept⟩
    rcases hagain.resolve_left hdeaf with ⟨hisMonitor, hof⟩
    have hisMonitor' := k'.app.isMonitor_of_same t v hsame (hmonitor.mpr hisMonitor)
    -- It should have been started, so it is a monitor and the step one of the program. What kept it
    -- is that it is disabled, and then it stands at its entry anyway.
    rcases hreason with hother | hdisabled | hno
    · exact absurd (hprogram.mp hof) hother
    · exact k'.app.atEntry_of_stays t u (same_trans t v u hsame (k'.app.same_of_ended v u _ hended))
        (stays_trans t v u hstays hkept) (hasleep hdisabled)
    · exact absurd hisMonitor' (k'.app.not_isMonitor_of_noMonitor v hno)
  · refine ⟨fun _ => hentry, fun hno => absurd (Or.inr ⟨?_, hprogram.mpr hconcern⟩) hno⟩
    exact hmonitor.mp (k'.app.isMonitor_of_same v t (same_symm t v hsame) hisMonitor)

/-- The end of a move, for a thread that the message of the move has been delivered to. -/
theorem stays_or_restarts_of_delivered (app : App) (hext : app.Extends k.app)
    (hdrawn : k.app.RelationsDrawn) (t v u : Thread) (script : Script)
    (hscript : app.scriptOf t = .ok script) (message : Message) (hsends : m.Sends message)
    (hdelivered : w.k₁.app.Delivered message t v)
    (hasleep : t.status = .disabled → k'.app.AtEntry t)
    (hended : k'.app.Ended w.actor.concern v u) :
    (m.StartsAgain app t → k'.app.AtEntry u) ∧ (¬ m.StartsAgain app t → t.Stays u) := by
  rcases related_of_passage additive_extends c k k' m w with ⟨hext₁, hext₂, hext₄, hext₅⟩
  have hreceives := app.receives_iff_of_extends message t w.k₁.app
    (App.extends_trans _ _ _ hext hext₁) script hscript
  have hdeaf := stays_or_restarts_of_deaf c k k' m w app hext t v u script hscript
    (App.same_of_delivered _ message t v hdelivered).1
  -- A thread that the message passed by is deaf to it, since a move sends one message only. For a
  -- receiver what counts is the restart it got in the middle of the move.
  cases hdelivered with
  | spared deaf =>
      refine hdeaf (stays_refl t) ?_ hasleep hended
      rintro ⟨message', hsends', halive, hears⟩
      cases sends_unique m _ _ hsends hsends'
      exact deaf.elim halive fun hnot => hnot (hreceives.mpr hears)
  | enabled deaf asleep =>
      refine hdeaf ⟨rfl, rfl, rfl, rfl⟩ ?_ nofun hended
      rintro ⟨message', hsends', _, hears⟩
      cases sends_unique m _ _ hsends hsends'
      exact deaf (hreceives.mpr hears)
  | restarted alive hears entry start =>
      have hlater := App.extends_trans _ _ _ (App.extends_trans _ _ _ hext₂ hext₄)
        (App.extends_trans _ _ _ hext₅ w.grown)
      have hentry : k'.app.AtEntry (t.atStart entry) := k'.app.atEntry_of_atStart t entry
        (App.entryPlace_of_extends w.k₁.app k'.app hlater
          (App.relationsDrawn_of_extends _ _ hext₁ hdrawn) t entry start)
      refine ⟨fun _ => k'.app.atEntry_of_ended _ u _ hended hentry, fun hno => absurd ?_ hno⟩
      exact Or.inl ⟨message, hsends, alive, hreceives.mp hears⟩

omit [DecidableEq σ] in
/-- When a program starts, all threads stand at their entries. -/
theorem atEntry_of_gives_startState (data : σ) (k k' : Scheduler) (s : ControlState σ)
    (hd : k'.app.Distinct) (h : Gives (startState data) k s k') (t : Thread) (ht : t ∈ s.threads) :
    k'.app.AtEntry t := by
  -- A thread begins at the entry with nothing pending, and passing the turn only changes its
  -- status.
  rcases mem_of_forall₂_right _ _ _ (begun_of_gives_startState data k k' s h) t ht with
    ⟨entry, hentry, v, hbegins, hturned⟩
  refine k'.app.atEntry_of_stays v t (k'.app.same_of_turned v t hturned)
    (k'.app.stays_of_turned v t hturned)
    ⟨k'.app.entryPlace_of_begins hd entry hentry v hbegins, ?_, ?_, ?_⟩
  all_goals
    rcases hbegins with ⟨r, l, _, _, hv⟩
    rw [hv]
    rfl

end Scheduler

namespace Session

section Frame

variable {σ : Type} [DecidableEq σ] (c : Control σ) (app : App) (hdrawn : app.RelationsDrawn)
  (hd : app.Distinct) (x : Session σ) (h : Explored c app x)

include hdrawn hd h

/-- Disabled threads have never been anywhere but at their entries. -/
theorem atEntry_of_disabled : ∀ s ∈ x.found, ∀ t ∈ s.threads, t.status = .disabled →
    x.scheduler.app.AtEntry t := by
  refine invariant_of_explored c app
    (fun b s => ∀ t ∈ s.threads, t.status = .disabled → b.AtEntry t) ?_ ?_ ?_ x h
  -- An invariant in three parts: additions to the program, the first state, and one move.
  · intro a b s ha hab hs t ht hasleep
    exact a.atEntry_of_extends t b hab (App.relationsDrawn_of_extends app a ha hdrawn)
      (hs t ht hasleep)
  · intro k k' data s hext hgives t ht _
    have hext' := App.extends_trans _ _ _ hext
      (Scheduler.extends_of_gives _ (Scheduler.grows_startState data) k k' s hgives)
    exact Scheduler.atEntry_of_gives_startState data k k' s (App.distinct_of_extends _ _ hext' hd)
      hgives t ht
  · intro k k' s next hext hs hgives s' hs'
    rcases Scheduler.passage_of_gives_successors c s s' k k' next hgives hs' with
      ⟨index, edge, operations, ⟨w⟩⟩
    exact Scheduler.atEntry_of_passage c k k' _ w
      (App.relationsDrawn_of_extends app k.app hext hdrawn) hs

/-- A move keeps every other thread what it is, and what it has failed for. Those that the move
    starts again stand at the entries of their scripts afterwards, and the others stay where they
    are. -/
theorem others_only_restarted (k : Scheduler) (m : Move σ)
    (w : Scheduler.Passage c x.scheduler k m) (hs : m.source ∈ x.found) (i : Nat)
    (hne : m.index ≠ i) (t : Thread) (ht : m.source.threads[i]? = some t) :
    ∃ u, m.target.threads[i]? = some u ∧ u.id = t.id ∧ u.actor = t.actor ∧ u.script = t.script
      ∧ u.failedFor = t.failedFor ∧ (m.StartsAgain app t → k.app.AtEntry u)
      ∧ (¬ m.StartsAgain app t → t.Stays u) := by
  have hext := extends_of_explored c app x h
  have hdrawnX := App.relationsDrawn_of_extends _ _ hext hdrawn
  have hmem := List.mem_of_getElem? ht
  rcases scriptOf_of_explored c app x h m.source hs hd t hmem with ⟨script, hscript⟩
  -- The move in two halves, the statement and the end. In between the thread is `v`.
  rcases Scheduler.delivered_of_passage c _ k m w i hne t ht with ⟨v, hv, hvt⟩
  rcases Scheduler.rest_of_passage c _ k m w hdrawnX i hne v hv with ⟨u, hu, hended⟩
  have hdisabled : t.status = .disabled → k.app.AtEntry t := fun hasleep =>
    App.atEntry_of_extends _ t k.app (Scheduler.extends_of_passage c _ k m w) hdrawnX
      (atEntry_of_disabled c app hdrawn hd x h m.source hs t hmem hasleep)
  have hsame : t.Same v ∧ v.failedFor = t.failedFor := by
    rcases hvt with ⟨rfl, _⟩ | ⟨message, _, hdelivered⟩
    · exact ⟨same_refl v, rfl⟩
    · exact App.same_of_delivered _ message t v hdelivered
  have hfailed : u.failedFor = v.failedFor :=
    k.app.kept_of_ended (fun u => u.failedFor = v.failedFor) (fun _ _ h => h) (fun _ _ _ h => h)
      (fun _ _ h => h) w.actor.concern v u hended rfl
  have hsame' := same_trans t v u hsame.1 (k.app.same_of_ended v u _ hended)
  refine ⟨u, hu, hsame'.id, hsame'.actor, hsame'.script, hfailed.trans hsame.2, ?_⟩
  -- Without a message only the end can start it again, with one the delivery may have done so
  -- before.
  rcases hvt with ⟨rfl, hsilent⟩ | ⟨message, hsends, hdelivered⟩
  · exact Scheduler.stays_or_restarts_of_deaf c _ k m w app hext v v u script hscript (same_refl v)
      (stays_refl v) (fun ⟨message, hsends, _⟩ => hsilent message hsends) hdisabled hended
  · exact Scheduler.stays_or_restarts_of_delivered c _ k m w app hext hdrawnX t v u script hscript
      message hsends hdelivered hdisabled hended

end Frame

/-- When the sender sends its first message, the watcher is started again, and the guest stays where
    it is. -/
theorem others_only_restarted_patrol : ∃ (k : Scheduler) (m : Move Unit) (t u v w : Thread),
    Nonempty (Scheduler.Passage .indifferent (patrolSession watchful 0).scheduler k m)
      ∧ m.source.threads[0]? = some t ∧ m.target.threads[0]? = some u
      ∧ (patrol watchful).Receives ⟨.str "app", .str "go"⟩ t ∧ k.app.AtEntry u
      ∧ m.source.threads[2]? = some v ∧ m.target.threads[2]? = some w
      ∧ ¬ m.StartsAgain (patrol watchful) v ∧ v.Stays w := by
  rcases passage_of_expandLast .indifferent (patrolSession watchful 0) (by decide +kernel) with
    ⟨m, k, hsource, _, _, ⟨p⟩⟩
  have hfirst : ∀ s ∈ (patrolSession watchful 0).found.getLast?, s.running = [1]
      ∧ ∃ t ∈ s.threads[1]?, ∃ edges ∈
        ((patrolSession watchful 0).scheduler.app.leaving s t).toOption,
        ∀ edge ∈ edges, edge.1.statement = .broadcast ⟨.str "app", .str "go"⟩ := by
    decide +kernel
  have hothers : ∀ s ∈ (patrolSession watchful 0).found.getLast?,
      (∃ t ∈ s.threads[0]?, t.status = .done ∧ ∃ script ∈ ((patrol watchful).scriptOf t).toOption,
        script.event.matchesName "go" = true)
      ∧ ∃ t ∈ s.threads[2]?, ∃ script ∈ ((patrol watchful).scriptOf t).toOption,
        script.event = .bootstrap := by
    decide +kernel
  rcases hfirst m.source hsource with ⟨hrunning, sender, hsender, edges, hedges, hsends⟩
  rcases hothers m.source hsource with
    ⟨⟨t, ht, hdone, script, hscript, hmatch⟩, v, hv, script', hscript', hbootstrap⟩
  rcases Scheduler.edge_of_passage _ _ _ m p 1 sender edges hrunning hsender
    ((mem_toOption _ _).mp hedges) with ⟨hindex, _, hedge⟩
  have hstep := others_only_restarted .indifferent (patrol watchful)
    (App.relationsDrawn_of_draft _ _) (App.distinct_of_draft _ _) (patrolSession watchful 0)
    (explored_patrolSession _ 0) k m p (List.mem_of_getLast? hsource)
  have hreceives : (patrol watchful).Receives ⟨.str "app", .str "go"⟩ t :=
    ⟨"go", script, rfl, (mem_toOption _ _).mp hscript, hmatch⟩
  -- The script of the guest runs at the bootstrap, so it neither waits for a message nor is a
  -- monitor.
  have hspared : ¬ m.StartsAgain (patrol watchful) v := by
    have hevent : ∀ other, (patrol watchful).scriptOf v = .ok other → other.event = .bootstrap := by
      intro other hother
      cases hother.symm.trans ((mem_toOption _ _).mp hscript')
      exact hbootstrap
    rintro (⟨message, _, _, name, other, _, hother, hmatches⟩ | ⟨⟨other, hother, hmonitor⟩, _⟩)
    · rw [hevent other hother] at hmatches
      cases hmatches
    · rw [hevent other hother] at hmonitor
      cases hmonitor
  rcases hstep 0 (by rw [hindex]; decide) t ht with ⟨u, hu, _, _, _, _, hrestarted, _⟩
  rcases hstep 2 (by rw [hindex]; decide) v hv with ⟨w, hw, _, _, _, _, _, hstays⟩
  refine ⟨k, m, t, u, v, w, ⟨p⟩, ht, hu, hreceives, hrestarted ?_, hv, hw, hspared,
    hstays hspared⟩
  exact Or.inl ⟨_, Or.inl (hsends m.edge hedge), hdone ▸ nofun, hreceives⟩

end Session

end ActorCheck

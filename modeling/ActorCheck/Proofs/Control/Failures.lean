import ActorCheck.Proofs.Control.Rosters
import ActorCheck.Proofs.Control.WakeUps

/-!
# Failed Threads

A signal fails the thread that executes it. Messages, waking up and the choice of the next thread
leave a failed thread alone, but the monitors do not: when a step of the program is over, every
monitor that is enabled starts again, and nobody asks whether it has failed. If the monitor belongs
to the program itself, this is the end of the very step that has failed it.

So a thread is in `Failure` exactly if it has failed and has not been started again since. `Since`
puts this in terms of the moves of a course. What a thread has failed for is never forgotten, and
neither is the state marked any less as a target.

## Main definitions

* `Move.Fails`: A move fails a thread.
* `Move.OfProgram`: A move is a step of the program under test.
* `App.FailedSince`: A thread has failed and was not started again.

## Theorems

* `App.failed_of_ended`: Who is failed at the end of a step.
* `Scheduler.failed_of_passage`: Who is failed after a move.
* `Session.failed_until_restarted`: Who is failed in a course, and what a target is.
* `Session.revived_monitor`: A target in which nobody is failed.
-/

namespace ActorCheck

section Moves

variable {σ : Type}

/-- The move fails the thread at an index. -/
def Move.Fails (m : Move σ) (i : Nat) : Prop :=
  m.index = i ∧ ∃ properties, m.edge.1.statement = .signal properties

/-- The thread that makes the move belongs to the program under test. -/
def Move.OfProgram (app : App) (m : Move σ) : Prop :=
  ∃ t actor, m.source.threads[m.index]? = some t ∧ app.actorNamed t.actor = .ok actor
    ∧ actor.concern = .program

/-- One of the moves, which are listed from the last one to the first one, has failed the thread at
    an index. If it is a monitor, no step of the program has started it again, beginning with that
    move. -/
def App.FailedSince (app : App) (moves : List (Move σ)) (i : Nat) (t : Thread) : Prop :=
  ∃ later m earlier, moves = later ++ m :: earlier ∧ m.Fails i
    ∧ (app.IsMonitor t → ∀ m' ∈ later ++ [m], ¬ m'.OfProgram app)

/-- A thread has failed by the last move or before it, and the last move did not start it again. -/
theorem App.failedSince_cons (app : App) (m : Move σ) (moves : List (Move σ)) (i : Nat)
    (t : Thread) : app.FailedSince (m :: moves) i t
      ↔ (m.Fails i ∨ app.FailedSince moves i t) ∧ ¬ (app.IsMonitor t ∧ m.OfProgram app) := by
  constructor
  · rintro ⟨later, m', earlier, heq, hfails, hkept⟩
    -- The move that has failed the thread is the last one or an earlier one.
    cases later with
    | nil =>
        cases heq
        refine ⟨Or.inl hfails, fun hrestarted => ?_⟩
        exact hkept hrestarted.1 _ List.mem_cons_self hrestarted.2
    | cons _ later =>
        cases heq
        refine ⟨Or.inr ⟨later, m', earlier, rfl, hfails, fun hmonitor m'' hm'' => ?_⟩, ?_⟩
        · exact hkept hmonitor m'' (List.mem_cons_of_mem _ hm'')
        · exact fun hrestarted => hkept hrestarted.1 _ List.mem_cons_self hrestarted.2
  · rintro ⟨hfails | ⟨later, m', earlier, rfl, hfails, hkept⟩, hstays⟩
    · exact ⟨[], m, moves, rfl, hfails, fun hmonitor =>
        List.forall_mem_singleton.mpr fun hprogram => hstays ⟨hmonitor, hprogram⟩⟩
    · exact ⟨m :: later, m', earlier, rfl, hfails, fun hmonitor =>
        List.forall_mem_cons.mpr ⟨fun hprogram => hstays ⟨hmonitor, hprogram⟩, hkept hmonitor⟩⟩

end Moves

namespace App

variable (app : App) (t u : Thread)

/-- A message does not fail anybody, and a thread that has failed does not hear it. -/
theorem failed_of_heard (m : Message) (h : app.Heard m t u) :
    u.status = .failure ↔ t.status = .failure := by
  cases h with
  | kept => exact Iff.rfl
  | enabled _ asleep => exact iff_of_false nofun (by rw [asleep]; nofun)
  | restarted alive => exact iff_of_false nofun alive

theorem failed_of_finished (h : app.Finished t u) : u.status = .failure ↔ t.status = .failure := by
  cases h with
  | kept => exact Iff.rfl
  | stopped active => exact iff_of_false nofun active.1

/-- The only phase that brings a failed thread back. -/
theorem failed_of_started (concern : Concern) (h : app.Started concern t u) :
    u.status = .failure ↔ t.status = .failure ∧ ¬ (concern = .program ∧ app.IsMonitor t) := by
  cases h with
  | kept reason =>
      refine ⟨fun hfailed => ⟨hfailed, ?_⟩, And.left⟩
      rintro ⟨hprogram, hmonitor⟩
      -- A monitor that is left alone in a step of the program is disabled, and so it is not failed.
      rcases reason with hother | hasleep | hplain
      · exact hother hprogram
      · rw [hasleep] at hfailed
        cases hfailed
      · exact app.not_isMonitor_of_noMonitor t hplain hmonitor
  | restarted program _ monitor => exact iff_of_false nofun fun h => h.2 ⟨program, monitor⟩

theorem failed_of_relieved (h : app.Relieved t u) : u.status = .failure ↔ t.status = .failure := by
  cases h with
  | kept => exact Iff.rfl
  | awake _ _ waits more =>
      refine iff_of_false ?_ (by rw [waits]; nofun)
      -- A thread that is awake again goes on or is done.
      cases more with
      | true => nofun
      | false => nofun

theorem failed_of_turned (h : app.Turned t u) : u.status = .failure ↔ t.status = .failure := by
  have hactive : t.status = .running ∨ t.status = .yield → t.status ≠ .failure := by
    rintro (hruns | hyields)
    · rw [hruns]
      nofun
    · rw [hyields]
      nofun
  cases h with
  | kept => exact Iff.rfl
  | paused runs => exact iff_of_false nofun (hactive (Or.inl runs))
  | stopped active => exact iff_of_false nofun (hactive active)
  | granted active => exact iff_of_false nofun (hactive active)

/-- At the end of a step nobody fails. A monitor that has failed is started again if it was a step
    of the program. -/
theorem failed_of_ended (concern : Concern) (h : app.Ended concern t u) :
    u.status = .failure ↔ t.status = .failure ∧ ¬ (concern = .program ∧ app.IsMonitor t) := by
  rcases h with ⟨finished, started, relieved, hfinish, hstart, hrelieve, hturn⟩
  -- To finish a thread changes its status only, so its script still has the same event.
  have hmonitor : app.IsMonitor finished ↔ app.IsMonitor t := by
    cases hfinish with
    | kept => exact Iff.rfl
    | stopped => exact Iff.rfl
  rw [app.failed_of_turned relieved u hturn, app.failed_of_relieved started relieved hrelieve,
    app.failed_of_started finished started concern hstart,
    app.failed_of_finished t finished hfinish,
    hmonitor]

end App

namespace Scheduler

variable {σ : Type}

/-- What an effect finds violated, it has failed the thread for. -/
theorem targetFor_of_effect (before after : App) (s s' : ControlState σ) (index : Nat) (t : Thread)
    (statement : Statement) (h : Effect before after s index t statement s') :
    s'.targetFor = s.targetFor
      ∨ ∃ properties, statement = .signal properties ∧ s' = fail s index t properties := by
  -- There is only one statement that adds to what is violated.
  cases h with
  | signalled properties => exact Or.inr ⟨properties, rfl, rfl⟩
  | _ => exact Or.inl rfl

/-- A signal has one outcome: the thread has failed. -/
theorem failed_of_gives_follow (s : ControlState σ) (index : Nat) (op : Operation) (target : Place)
    (t : Thread) (properties : Std.ExtTreeSet String) (hop : op.statement = .signal properties)
    (k k' : Scheduler) (outcomes : List (ControlState.Outcome σ)) (ht : s.threads[index]? = some t)
    (h : Gives (follow s index op target) k outcomes k') (o : ControlState.Outcome σ)
    (ho : o ∈ outcomes) : ∃ u, o.1.threads[index]? = some u ∧ u.status = .failure := by
  rcases interpreted_of_gives_follow s index op target t k k' outcomes ht h with ⟨loops, h⟩
  unfold interpret at h
  rw [hop, gives_program_bind] at h
  rcases (gives_lookUp_bind _ _ _ _ _).mp h with ⟨actor, _, h⟩
  rcases (gives_pure _ _ _ _).mp h with ⟨rfl, rfl⟩
  rw [List.mem_singleton.mp ho]
  refine ⟨_, List.getElem?_set_self ?_, rfl⟩
  change index < (s.threads.set index _).length
  rw [List.length_set]
  exact (List.getElem?_eq_some_iff.mp ht).1

variable [DecidableEq σ] (c : Control σ) (k k' : Scheduler) (m : Move σ) (w : Passage c k k' m)

/-- The statement of a move has failed the thread that moves exactly if it is a signal. -/
theorem failed_of_statement : w.t₁.status = .failure ↔ m.Fails m.index := by
  refine ⟨fun hfailed => ⟨rfl, ?_⟩, ?_⟩
  · rcases executed_of_passage c k k' m w with ⟨loops, hexecuted⟩
    -- The status after a statement is failed only in the case of the signal. In all others it is
    -- another one.
    cases hexecuted with
    | running runs => exact absurd (runs.symm.trans hfailed) nofun
    | failed properties signal => exact ⟨properties, signal⟩
    | restarted ready => exact absurd (ready.symm.trans hfailed) nofun
    | paused _ _ _ waits => exact absurd (waits.symm.trans hfailed) nofun
    | asked _ _ _ _ _ _ waits => exact absurd (waits.symm.trans hfailed) nofun
  · rintro ⟨_, properties, hsignal⟩
    rcases failed_of_gives_follow m.source m.index m.edge.1 m.edge.2 w.t properties hsignal w.k₁
      w.k₂ _ w.thread w.followed (w.s₁, w.settled) (List.mem_append_right _ List.mem_cons_self) with
      ⟨u, hu, hfailed⟩
    rw [w.moved] at hu
    cases hu
    exact hfailed

theorem ofProgram_iff (app : App) (hext : app.Extends k.app) :
    m.OfProgram app ↔ w.actor.concern = .program := by
  have hacting := (App.actorNamed_of_extends app k.app hext w.t.actor).symm.trans w.acting
  constructor
  -- The actor was looked up in an earlier program, which gives the same answer as the later one.
  · rintro ⟨t, actor, ht, hactor, hconcern⟩
    rw [w.thread] at ht
    cases ht
    rw [hacting] at hactor
    cases hactor
    exact hconcern
  · exact fun hconcern => ⟨w.t, w.actor, w.thread, hacting, hconcern⟩

/-- Who is failed after a move. -/
theorem failed_of_passage (hdrawn : k.app.RelationsDrawn) (i : Nat) (t u : Thread)
    (ht : m.source.threads[i]? = some t) (hu : m.target.threads[i]? = some u) :
    u.status = .failure ↔ (m.Fails i ∨ t.status = .failure)
      ∧ ¬ (w.actor.concern = .program ∧ k'.app.IsMonitor t) := by
  by_cases hi : m.index = i
  · subst hi
    rw [w.thread] at ht
    cases ht
    rcases stepper_of_passage c k k' m w hdrawn with ⟨u', hu', hended⟩
    rw [hu] at hu'
    cases hu'
    have hsame := same_of_passage c k k' m w
    have hmonitor : k'.app.IsMonitor { w.t₁ with operations := [] } ↔ k'.app.IsMonitor w.t :=
      ⟨k'.app.isMonitor_of_same _ w.t ⟨hsame.id.symm, hsame.actor.symm, hsame.script.symm⟩,
        k'.app.isMonitor_of_same w.t _ ⟨hsame.id, hsame.actor, hsame.script⟩⟩
    -- Whoever takes a step runs before it, so it has not failed before.
    have halive : w.t.status ≠ .failure := by
      rw [m.source.isRunning_of_running m.index w.t w.running w.thread]
      nofun
    rw [k'.app.failed_of_ended _ u w.actor.concern hended, hmonitor, or_iff_left halive]
    exact and_congr_left fun _ => failed_of_statement c k k' m w
  · rcases bystander_of_passage c k k' m w hdrawn i hi t ht with ⟨v, u', hv, hu', hended⟩
    rw [hu] at hu'
    cases hu'
    -- A message that is heard on the way does not matter: it fails nobody, and nobody who has
    -- failed hears it.
    have hheard : (v.status = .failure ↔ t.status = .failure) ∧ t.Same v := by
      rcases hv with rfl | ⟨message, _, hheard⟩
      · exact ⟨Iff.rfl, same_refl v⟩
      · exact ⟨k'.app.failed_of_heard t v message hheard, k'.app.same_of_heard t v message hheard⟩
    have hmonitor : k'.app.IsMonitor v ↔ k'.app.IsMonitor t :=
      ⟨k'.app.isMonitor_of_same v t (same_symm _ _ hheard.2),
        k'.app.isMonitor_of_same t v hheard.2⟩
    rw [k'.app.failed_of_ended v u w.actor.concern hended, hheard.1, hmonitor,
      or_iff_right fun hfails => hi hfails.1]

include w in
/-- If something is violated after a move, the thread that has moved has failed for something. -/
theorem violated_of_passage (hdrawn : k.app.RelationsDrawn) (htarget : m.target.isTarget = true) :
    m.Fails m.index ∧ ∃ u, m.target.threads[m.index]? = some u ∧ u.failedFor ≠ ∅ := by
  have hnone : m.source.targetFor = ∅ := by
    have hnoTarget := w.noTarget
    unfold ControlState.isTarget at hnoTarget
    rw [Bool.not_eq_false'] at hnoTarget
    exact Std.ExtTreeSet.isEmpty_iff.mp hnoTarget
  -- After the statement nothing changes what is violated, so the statement itself has found it.
  have hsome : w.s₁.targetFor ≠ ∅ := by
    intro hempty
    unfold ControlState.isTarget at htarget
    rw [(ended_of_passage c k k' m w hdrawn).2, hempty] at htarget
    cases htarget
  rcases effect_of_passage c k k' m w with ⟨loops, heffect⟩
  rcases targetFor_of_effect _ _ _ _ _ _ _ heffect with hsame | ⟨properties, hsignal, hfail⟩
  · exact absurd (hsame.trans hnone) hsome
  · have hfor : w.t₁.failedFor = w.t.failedFor ∪ properties := by
      have hmoved := w.moved
      rw [hfail] at hmoved
      have hlt : m.index < (m.source.threads.set m.index
          { w.t with loops := loops, place := m.edge.2 }).length := by
        rw [List.length_set]
        exact (List.getElem?_eq_some_iff.mp w.thread).1
      have hset := (List.getElem?_set_self hlt).symm.trans hmoved
      rw [← Option.some.inj hset]
    rcases stepper_of_passage c k k' m w hdrawn with ⟨u, hu, hended⟩
    have hkept := k'.app.kept_of_ended (fun v => v.failedFor = w.t₁.failedFor) (fun _ _ hv => hv)
      (fun _ _ _ hv => hv) (fun _ _ hv => hv) w.actor.concern _ u hended rfl
    refine ⟨⟨rfl, properties, hsignal⟩, u, hu, fun hempty => hsome ?_⟩
    -- The thread has failed for whatever is found violated now.
    rw [hkept, hfor] at hempty
    refine Std.ExtTreeSet.ext_mem fun p => iff_of_false ?_ Std.ExtTreeSet.not_mem_empty
    rw [hfail]
    intro hp
    rcases Std.ExtTreeSet.mem_union_iff.mp hp with hp | hp
    · have hp' : p ∈ m.source.targetFor := hp
      rw [hnone] at hp'
      exact Std.ExtTreeSet.not_mem_empty hp'
    · exact Std.ExtTreeSet.not_mem_empty (hempty ▸ Std.ExtTreeSet.mem_union_iff.mpr (Or.inr hp))

end Scheduler

/-- A program with a monitor of a concern. The program does something first, and the monitor watches
    it by some statements. -/
def supervised (concern : Concern) (opening watching : List Statement) : AppDraft where
  name := "supervised"
  relations := [.sequence opening, .sequence watching]
  actors := [
    ⟨"worker", .program, none, [], [], [], [(.bootstrap, 0)]⟩,
    ⟨"supervisor", concern, none, [], [], [], [(.afterStatement, 1)]⟩]

/-- The supervised program as it was written. -/
def supervisedApp (concern : Concern) (opening watching : List Statement) : App :=
  ((supervised concern opening watching).build.run (App.new "supervised")).2

/-- The supervised program after a number of steps. -/
def supervisedSession (concern : Concern) (opening watching : List Statement) :
    Nat → Session Unit
  | 0 => (Session.new (supervisedApp concern opening watching)).start ()
  | n + 1 => (supervisedSession concern opening watching n).expandLast .indifferent

/-- A monitor that reports a violation when the bootstrap is over. -/
def accusing (concern : Concern) : Nat → Session Unit :=
  supervisedSession concern [.broadcast .bootstrapOver, .epsilon, .epsilon]
    [.signal {"p"}, .epsilon]

theorem explored_supervisedSession (concern : Concern) (opening watching : List Statement)
    (n : Nat) : Session.Explored .indifferent (supervisedApp concern opening watching)
      (supervisedSession concern opening watching n) := by
  induction n with
  | zero => exact .start _ () .new
  | succ n ih => exact Session.explored_of_expandLast _ _ _ ih

/-- The moves of the supervised program, which finds one state after the other. -/
theorem course_supervisedSession (concern : Concern) (opening watching : List Statement) (n : Nat)
    (hlength : ∀ i < n + 1, (supervisedSession concern opening watching i).found.length = i + 1) :
    ∃ s moves, Session.Course .indifferent (supervisedApp concern opening watching)
        (supervisedSession concern opening watching n) s moves
      ∧ s ∈ (supervisedSession concern opening watching n).found.getLast? ∧ moves.length = n
      ∧ ∀ (i : Nat) (m : Move Unit), moves.reverse[i]? = some m →
        m.source ∈ (supervisedSession concern opening watching i).found.getLast?
          ∧ ∃ k, Nonempty (Scheduler.Passage .indifferent
            (supervisedSession concern opening watching i).scheduler k m) := by
  have hnew : (Session.new (supervisedApp concern opening watching) : Session Unit).found.length
      < (supervisedSession concern opening watching 0).found.length := by
    rw [hlength 0 (Nat.succ_pos n)]
    exact Nat.zero_lt_one
  rcases Session.course_of_expansions .indifferent _ (supervisedSession concern opening watching)
    (fun _ => rfl) (Session.course_of_start _ _ _ _ .new hnew) n
    (fun i hi => by rw [hlength i (by omega), hlength (i + 1) (by omega)]; omega) with
    ⟨s, moves, h, hs, hcount, hmoves⟩
  exact ⟨s, moves, h, hs, hcount, fun i m hm => ⟨(hmoves i m hm).1, (hmoves i m hm).2.2⟩⟩

namespace Session

variable {σ : Type} [DecidableEq σ]

omit [DecidableEq σ] in
/-- When a program starts, nobody is failed. -/
theorem not_failed_of_start (data : σ) (k k' : Scheduler) (s : ControlState σ)
    (h : Gives (Scheduler.startState data) k s k') (t : Thread) (ht : t ∈ s.threads) :
    t.status ≠ .failure := by
  rcases mem_of_forall₂_right _ _ _ (Scheduler.begun_of_gives_startState data k k' s h) t ht with
    ⟨entry, _, u, ⟨r, l, _, _, hu⟩, hturned⟩
  refine fun hfailed => absurd ((k'.app.failed_of_turned u t hturned).mp hfailed) ?_
  rw [hu]
  change Scheduler.initialStatus entry.2.event (r.hasEdgesFrom l) ≠ .failure
  unfold Scheduler.initialStatus
  split
  · split <;> nofun
  · nofun
  · nofun

/-- A thread is failed exactly if it has failed and was not started again since. In a target the
    thread that has taken the last step has failed for something, and it is still failed unless that
    step has started it again. -/
theorem failed_until_restarted (c : Control σ) (app : App) (hdrawn : app.RelationsDrawn)
    (hd : app.Distinct) (x : Session σ) (s : ControlState σ) (moves : List (Move σ))
    (h : Course c app x s moves) :
    (∀ i t, s.threads[i]? = some t → (t.status = .failure ↔ app.FailedSince moves i t))
      ∧ (s.isTarget = true → ∃ m earlier t, moves = m :: earlier
        ∧ s.threads[m.index]? = some t ∧ t.failedFor ≠ ∅
        ∧ (t.status = .failure ∨ (app.IsMonitor t ∧ m.OfProgram app))) := by
  -- By induction on the moves, from the last one back. The session is generalized, since before the
  -- last move it was another one.
  induction moves generalizing x s with
  | nil =>
      rcases course_nil c app x s h with ⟨data, k, k', hstart, _⟩
      refine ⟨fun i t ht => iff_of_false ?_ ?_, fun htarget => ?_⟩
      · exact not_failed_of_start data k k' s hstart t (List.mem_of_getElem? ht)
      · rintro ⟨later, m, earlier, heq, _⟩
        exact List.append_ne_nil_of_right_ne_nil later (List.cons_ne_nil m earlier) heq.symm
      · rcases Scheduler.turned_of_gives_startState data k k' s hstart with ⟨_, _, _, hnone, _⟩
        unfold ControlState.isTarget at htarget
        rw [hnone] at htarget
        cases htarget
  | cons m moves ih =>
      rcases course_cons c app x s m moves h with ⟨rfl, y, k, hy, ⟨w⟩, _⟩
      rcases explored_of_course c app y m.source moves hy with ⟨hexplored, hfound⟩
      have hext := extends_of_explored c app y hexplored
      have hext' := App.extends_trans _ _ _ hext (Scheduler.extends_of_passage c _ k m w)
      have hdrawnY := App.relationsDrawn_of_extends _ _ hext hdrawn
      have hstatus : ∀ i u, m.target.threads[i]? = some u →
          (u.status = .failure ↔ app.FailedSince (m :: moves) i u) := by
        intro i u hu
        rcases Scheduler.source_of_passage c _ k m w i u hu with ⟨t, ht, hsame⟩
        rcases scriptOf_of_explored c app y hexplored m.source hfound hd t
          (List.mem_of_getElem? ht) with ⟨script, hscript⟩
        have hmonitor : app.IsMonitor u ↔ app.IsMonitor t :=
          ⟨app.isMonitor_of_same u t (same_symm _ _ hsame),
            app.isMonitor_of_same t u hsame⟩
        -- The induction hypothesis is about the thread before the move. Whether it is a monitor has
        -- not changed.
        have hearlier : app.FailedSince moves i u ↔ t.status = .failure := by
          unfold App.FailedSince
          rw [hmonitor]
          exact ((ih y m.source hy).1 i t ht).symm
        -- Both sides now say the same of the last move: it fails the thread or leaves it failed,
        -- and does not start it again.
        rw [App.failedSince_cons, hearlier, hmonitor,
          Scheduler.ofProgram_iff c _ k m w app hext,
          Scheduler.failed_of_passage c _ k m w hdrawnY i t u ht hu,
          app.isMonitor_iff_of_extends k.app hext' t script hscript]
        exact and_congr_right fun _ => not_congr and_comm
      refine ⟨hstatus, fun htarget => ?_⟩
      rcases Scheduler.violated_of_passage c _ k m w hdrawnY htarget with ⟨hfails, u, hu, hfor⟩
      refine ⟨m, moves, u, rfl, hu, hfor, ?_⟩
      -- The thread that moves may be a monitor of the program, which is started again at the end of
      -- its own step.
      by_cases hrestarted : app.IsMonitor u ∧ m.OfProgram app
      · exact Or.inr hrestarted
      · refine Or.inl ((hstatus m.index u hu).mpr ?_)
        exact (app.failedSince_cons m moves m.index u).mpr ⟨Or.inl hfails, hrestarted⟩

/-- A monitor of the specification that has reported a violation is failed in the target. -/
theorem failed_until_restarted_accusing : ∃ (app : App) (s : ControlState Unit)
    (moves : List (Move Unit)), Course .indifferent app (accusing .specification 2) s moves
      ∧ s.isTarget = true ∧ ∃ t, s.threads[1]? = some t ∧ app.FailedSince moves 1 t := by
  have hlength : ∀ i < 3, (accusing .specification i).found.length = i + 1 := by
    decide +kernel
  rcases course_supervisedSession _ _ _ 2 hlength with ⟨s, moves, h, hs, _⟩
  have hfailed : ∀ s ∈ (accusing .specification 2).found.getLast?, s.isTarget = true
      ∧ ∃ t ∈ s.threads[1]?, t.status = .failure := by
    decide +kernel
  rcases hfailed s hs with ⟨htarget, t, ht, hfailure⟩
  refine ⟨_, s, moves, h, htarget, t, ht, ?_⟩
  exact ((failed_until_restarted .indifferent _ (App.relationsDrawn_of_draft _ _)
    (App.distinct_of_draft _ _) _ s moves h).1 1 t ht).mp hfailure

/-- A monitor of the program itself is started again at the end of the step that has failed it, so
    nobody is failed in the target. -/
theorem revived_monitor : ¬ ∀ (c : Control Unit) (app : App) (x : Session Unit),
    app.RelationsDrawn → app.Distinct → Explored c app x →
      ∀ s ∈ x.found, s.isTarget = true → ∃ t ∈ s.threads, t.status = .failure := by
  intro h
  have hfound : ∃ s ∈ (accusing .program 2).found, s.isTarget = true
      ∧ ∀ t ∈ s.threads, t.status ≠ .failure := by
    decide +kernel
  rcases hfound with ⟨s, hs, htarget, hnobody⟩
  rcases h .indifferent _ _ (App.relationsDrawn_of_draft _ _) (App.distinct_of_draft _ _)
    (explored_supervisedSession _ _ _ _) s hs htarget with ⟨t, ht, hfailure⟩
  exact hnobody t ht hfailure

end Session

end ActorCheck

import ActorCheck.Proofs.Control.Frames
import ActorCheck.Proofs.Control.Places
import ActorCheck.Proofs.Control.WakeUps

/-!
# Call Stacks

Every pending call of a thread was made by the thread, and a return continues after the right one.

For the first, `App.Stacked` is an invariant: a move keeps the calls of every thread nested. The
thread that moves changes its stack as `App.Went` says. The others keep theirs, and a thread that is
started again, by a message or as a monitor, has none.

A return does not look for a call. That it continues after the right one is a statement about the
moves that came before. The frame it takes off was left by a call of the same thread, made above the
same frames, and has been on the stack ever since. This is shown from the other end: a move puts one
frame on a stack at most, and only if it is a call.

## Main definitions

* `Move.Pushes`: A move is a call that leaves a frame.
* `CalledSince`: The call that has left a frame.

## Theorems

* `App.went_of_ended`: The end of a step leaves the calls alone or empties the stack.
* `Scheduler.stacked_of_passage`: A move keeps calls nested.
* `Scheduler.pushed_of_passage`: A move puts one frame on a stack at most.
* `Session.stacked_of_course`, `Session.calledSince_of_course`: The stacks of a course.
* `Session.calls_nested`: Calls are nested, and a return continues after the matching call.
-/

namespace ActorCheck

section Moves

variable {σ : Type}

/-- The thread at an index calls a method, which leaves the frame above some others. -/
structure Move.Pushes (m : Move σ) (i : Nat) (frame : Frame) (calls : List Frame) : Prop where
  index : m.index = i
  call : ∃ method args result, m.edge.1.statement = .call method args result
  continues : m.edge.2 = frame.returnTo
  thread : ∃ t, m.source.threads[i]? = some t ∧ t.place = frame.callFrom ∧ t.calls = calls

/-- A call among the moves, which are listed from the last one to the first one, has left the frame
    above some others. It has been on the stack ever since. -/
def CalledSince (moves : List (Move σ)) (i : Nat) (frame : Frame) (calls : List Frame) : Prop :=
  ∃ later call earlier, moves = later ++ call :: earlier ∧ call.Pushes i frame calls
    ∧ ∀ m ∈ later, ∃ t, m.source.threads[i]? = some t ∧ frame :: calls <:+ t.calls

theorem calledSince_of_pushes (m : Move σ) (moves : List (Move σ)) (i : Nat) (frame : Frame)
    (calls : List Frame) (h : m.Pushes i frame calls) : CalledSince (m :: moves) i frame calls :=
  ⟨[], m, moves, rfl, h, nofun⟩

theorem calledSince_cons (m : Move σ) (moves : List (Move σ)) (i : Nat) (frame : Frame)
    (calls : List Frame) (t : Thread) (ht : m.source.threads[i]? = some t)
    (hcalls : frame :: calls <:+ t.calls) (h : CalledSince moves i frame calls) :
    CalledSince (m :: moves) i frame calls := by
  rcases h with ⟨later, call, earlier, rfl, hpush, hlater⟩
  exact ⟨m :: later, call, earlier, rfl, hpush,
    List.forall_mem_cons.mpr ⟨⟨t, ht, hcalls⟩, hlater⟩⟩

end Moves

namespace App

variable (app : App) (t u : Thread)

/-- The end of a step leaves a thread where it is, unless it is a monitor that starts again. -/
theorem went_of_ended (concern : Concern) (h : app.Ended concern t u) :
    (u.calls = t.calls ∧ u.place = t.place) ∨ (concern = .program ∧ app.IsMonitor t
      ∧ u.calls = [] ∧ app.entryPlace t = .ok u.place) := by
  rcases app.stays_or_restarts_of_ended t u concern h with
    ⟨hstays, _⟩ | ⟨hprogram, hmonitor, hentry⟩
  · exact Or.inl ⟨hstays.calls, hstays.place⟩
  · rw [← app.entryPlace_of_same t u (app.same_of_ended t u concern h)]
    exact Or.inr ⟨hprogram, hmonitor, hentry.calls, hentry.place⟩

section Kept

variable (hfiled : app.Filed) (hd : app.Distinct) (entry : Actor × Script)
  (hentry : entry ∈ app.roster)

include hfiled hd hentry

/-- What interpreting a statement makes of nested calls. -/
theorem nested_of_went (target : Place) (statement : Statement) (calls : List Frame) (place : Place)
    (op : Operation) (hjoins : app.Joins t.place target op)
    (hcall : ∀ method args result, statement = .call method args result →
      ∃ args' result', op.statement = .call method args' result')
    (h : app.Went entry.1 target t statement calls place) (ht : app.Stacked entry t) :
    app.Nested entry.1 entry.2.relation calls place := by
  have hn := ht.nested
  -- By what the statement makes of the stack: nothing, a frame more, a frame less, or no frame at
  -- all.
  cases h with
  | along => exact app.nested_of_joins entry.1 hfiled _ _ _ _ op hjoins hn
  | entered method args result callee begin offered found begins =>
      rcases hcall method.name args result rfl with ⟨args', result', hop⟩
      exact ⟨⟨method, ⟨offered, op, args', result', hjoins, hop⟩,
        app.lies_of_entry entry.1 hfiled method.relation callee begin found begins⟩, hn⟩
  -- The edge behind the frame is taken now, while its call was made below it.
  | returned result frame _ pending =>
      rw [pending] at hn
      rcases hn with ⟨⟨method, ⟨_, op', _, _, hback, _⟩, _⟩, hrest⟩
      exact app.nested_of_joins entry.1 hfiled _ _ _ _ op' hback hrest
  | restarted _ _ _ start =>
      exact app.lies_of_entryPlace hfiled hd entry hentry t ht.isOf place start

theorem stacked_of_restart (place : Place) (h : app.entryPlace t = .ok place)
    (ht : app.Stacked entry t) : app.Stacked entry (t.atStart place) :=
  ⟨⟨ht.isOf.actor, ht.isOf.script⟩,
    app.lies_of_entryPlace hfiled hd entry hentry t ht.isOf place h⟩

theorem stacked_of_heard (m : Message) (h : app.Heard m t u) (ht : app.Stacked entry t) :
    app.Stacked entry u :=
  app.kept_of_heard (app.Stacked entry) (fun _ _ h => ⟨⟨h.isOf.actor, h.isOf.script⟩, h.nested⟩)
    (fun v => app.stacked_of_restart v hfiled hd entry hentry) m t u h ht

theorem stacked_of_ended (concern : Concern) (h : app.Ended concern t u)
    (ht : app.Stacked entry t) : app.Stacked entry u :=
  app.kept_of_ended (app.Stacked entry) (fun _ _ h => ⟨⟨h.isOf.actor, h.isOf.script⟩, h.nested⟩)
    (fun v => app.stacked_of_restart v hfiled hd entry hentry)
    (fun _ _ h => ⟨⟨h.isOf.actor, h.isOf.script⟩, h.nested⟩) concern t u h ht

end Kept

/-- A return needs a call that has not been returned from. -/
theorem frame_of_went (actor : Actor) (target : Place) (result : Option Variable)
    (calls : List Frame) (place : Place) (h : app.Went actor target t (.ret result) calls place) :
    ∃ frame, t.calls = frame :: calls ∧ place = frame.returnTo := by
  cases h with
  | along _ stays => exact absurd rfl (stays result)
  | returned _ frame _ pending => exact ⟨frame, pending, rfl⟩
  | restarted _ stays => exact absurd rfl (stays result)

/-- Interpreting a statement puts one frame on the stack at most, and only if it is a call. -/
theorem suffix_of_went (actor : Actor) (target : Place) (statement : Statement)
    (stack : List Frame) (place : Place) (h : app.Went actor target t statement stack place)
    (frame : Frame) (calls : List Frame) (hcalls : frame :: calls <:+ stack) :
    frame :: calls <:+ t.calls ∨ ((∃ method args result, statement = .call method args result)
      ∧ target = frame.returnTo ∧ t.place = frame.callFrom ∧ t.calls = calls) := by
  -- Only a call puts a frame on top. A return and a start take off what was there.
  cases h with
  | along => exact Or.inl hcalls
  | entered method args result =>
      rcases List.suffix_cons_iff.mp hcalls with heq | hcalls
      · cases heq
        exact Or.inr ⟨⟨method.name, args, result, rfl⟩, rfl, rfl, rfl⟩
      · exact Or.inl hcalls
  | returned result top _ pending =>
      rw [pending]
      exact Or.inl (hcalls.trans (List.suffix_cons top stack))
  | restarted => exact absurd (List.suffix_nil.mp hcalls) (List.cons_ne_nil frame calls)

end App

namespace Scheduler

variable {σ : Type} [DecidableEq σ] (c : Control σ) (k k' : Scheduler) (m : Move σ)
  (w : Passage c k k' m)

include w in
theorem registered_of_passage (happ : k.app.Registered) : k'.app.Registered :=
  related_of_gives _ _ (keeps_successors additive_registered c m.source) k k' _ w.whole happ

section Calls

variable (hdrawn : k.app.RelationsDrawn)

include w hdrawn

/-- What the statement of a move does to the calls of the thread. -/
theorem went_of_passage :
    k'.app.Went w.actor m.edge.2 w.t m.edge.1.statement w.t₁.calls w.t₁.place := by
  rcases related_of_passage additive_extends c k k' m w with ⟨hext₁, hext₂, hext₄, hext₅⟩
  have hext := App.extends_trans _ _ _ (App.extends_trans _ _ _ hext₂ hext₄)
    (App.extends_trans _ _ _ hext₅ w.grown)
  have hactor : w.k₁.app.actorNamed w.t.actor = .ok w.actor :=
    (App.actorNamed_of_extends _ _ hext₁ _).trans w.acting
  exact App.went_of_extends _ _ hext (App.relationsDrawn_of_extends _ _ hext₁ hdrawn) w.actor
    m.edge.2 w.t m.edge.1.statement _ _ (went_of_gives_follow m.source m.index m.edge.1 m.edge.2 w.t
      w.t₁ w.actor w.k₁ w.k₂ _ w.thread hactor w.followed (w.s₁, w.settled)
      (List.mem_append_right _ List.mem_cons_self) w.moved)

/-- A move puts one frame on the stack of a thread at most, and only if it is a call. -/
theorem pushed_of_passage (i : Nat) (t u : Thread) (ht : m.source.threads[i]? = some t)
    (hu : m.target.threads[i]? = some u) (frame : Frame) (calls : List Frame)
    (hcalls : frame :: calls <:+ u.calls) :
    frame :: calls <:+ t.calls ∨ m.Pushes i frame calls := by
  -- Frames can only go away when the step ends.
  have hended : ∀ v, k'.app.Ended w.actor.concern v u → u.calls <:+ v.calls := fun v hended =>
    k'.app.kept_of_ended (fun u => u.calls <:+ v.calls) (fun _ _ h => h)
      (fun _ _ _ _ => List.nil_suffix) (fun _ _ h => h) w.actor.concern v u hended
      (List.suffix_refl v.calls)
  -- The thread that moves may have pushed a frame by its statement. A bystander has been started
  -- again at most.
  by_cases hindex : m.index = i
  · subst hindex
    rcases stepper_of_passage c k k' m w hdrawn with ⟨u', hu', hend⟩
    cases hu'.symm.trans hu
    cases w.thread.symm.trans ht
    have hcalls' := hcalls.trans (hended { w.t₁ with operations := [] } hend)
    rcases k'.app.suffix_of_went w.t w.actor m.edge.2 _ _ _ (went_of_passage c k k' m w hdrawn)
      frame calls hcalls' with hcalls | ⟨hcall, htarget, hplace, hstack⟩
    · exact Or.inl hcalls
    · exact Or.inr ⟨rfl, hcall, htarget, w.t, ht, hplace, hstack⟩
  · rcases bystander_of_passage c k k' m w hdrawn i hindex t ht with ⟨v, u', hv, hu', hend⟩
    cases hu'.symm.trans hu
    refine Or.inl ((hcalls.trans (hended v hend)).trans ?_)
    rcases hv with rfl | ⟨message, _, hheard⟩
    · exact List.suffix_refl _
    · exact k'.app.kept_of_heard (fun v => v.calls <:+ t.calls) (fun _ _ h => h)
        (fun _ _ _ _ => List.nil_suffix) message t v hheard (List.suffix_refl _)

end Calls

section Kept

variable (happ : k.app.Registered) (entry : Actor × Script) (hentry : entry ∈ k.app.roster)

include w happ hentry

/-- The statement of a move keeps the calls of its thread nested. -/
theorem stacked_of_statement (ht : k.app.Stacked entry w.t) :
    k'.app.Stacked entry { w.t₁ with operations := [] } := by
  have hext := extends_of_passage c k k' m w
  have happ' := registered_of_passage c k k' m w happ
  have hsame := same_of_passage c k k' m w
  refine ⟨⟨hsame.actor.trans ht.isOf.actor, hsame.script.trans ht.isOf.script⟩, ?_⟩
  -- The actor that acts is the one the thread was made for.
  have hactor := w.acting
  rw [k.app.actorNamed_of_isOf happ.distinct entry hentry w.t ht.isOf] at hactor
  have hwent := went_of_passage c k k' m w happ.relations
  rw [← Except.ok.inj hactor] at hwent
  rcases k.app.joins_of_leaving m.source w.t _ w.leaving m.edge
    (List.mem_append_right _ List.mem_cons_self) with ⟨op, hjoins, hcall⟩
  have hjoins' := App.joins_of_extends _ _ hext happ.relations happ.operations _ _ op hjoins
  have hentry' : entry ∈ k'.app.roster := by rwa [App.roster_of_extends _ _ hext]
  exact k'.app.nested_of_went w.t happ'.filed happ'.distinct entry hentry' m.edge.2
    m.edge.1.statement _ _ op hjoins' hcall hwent
    (App.stacked_of_extends _ _ hext happ.relations happ.operations entry w.t ht)

/-- A move keeps the calls of every thread nested. -/
theorem stacked_of_passage (i : Nat) (t u : Thread) (ht : m.source.threads[i]? = some t)
    (hu : m.target.threads[i]? = some u) (hn : k.app.Stacked entry t) :
    k'.app.Stacked entry u := by
  have hext := extends_of_passage c k k' m w
  have happ' := registered_of_passage c k k' m w happ
  have hentry' : entry ∈ k'.app.roster := by rwa [App.roster_of_extends _ _ hext]
  by_cases hindex : m.index = i
  · subst hindex
    cases w.thread.symm.trans ht
    rcases stepper_of_passage c k k' m w happ.relations with ⟨u', hu', hend⟩
    cases hu'.symm.trans hu
    exact k'.app.stacked_of_ended _ u happ'.filed happ'.distinct entry hentry' _ hend
      (stacked_of_statement c k k' m w happ entry hentry hn)
  · rcases bystander_of_passage c k k' m w happ.relations i hindex t ht with
      ⟨v, u', hv, hu', hend⟩
    cases hu'.symm.trans hu
    have ht' := App.stacked_of_extends _ _ hext happ.relations happ.operations entry t hn
    refine k'.app.stacked_of_ended v u happ'.filed happ'.distinct entry hentry' _ hend ?_
    rcases hv with rfl | ⟨message, _, hheard⟩
    · exact ht'
    · exact k'.app.stacked_of_heard t v happ'.filed happ'.distinct entry hentry' message hheard ht'

end Kept

end Scheduler

/-- A script that calls a method, which calls another one. -/
def calling : App :=
  (AppDraft.build
    { name := "calling"
      relations := [
        .sequence [.call "outer" [] none],
        .sequence [.call "inner" [] none, .ret none],
        .sequence [.ret none]]
      actors := [⟨"a", .program, none, [], [], [⟨"outer", [], none, 1⟩, ⟨"inner", [], none, 2⟩],
        [(.bootstrap, 0)]⟩] }).run (App.new "calling") |>.2

/-- The calling program after a number of steps. -/
def callingSession : Nat → Session Unit
  | 0 => (Session.new calling).start ()
  | n + 1 => (callingSession n).expandLast .indifferent

theorem explored_callingSession (n : Nat) :
    Session.Explored .indifferent calling (callingSession n) := by
  induction n with
  | zero => exact .start _ () .new
  | succ n ih => exact Session.explored_of_expandLast _ _ _ ih

namespace Session

variable {σ : Type} [DecidableEq σ] (c : Control σ) (app : App) (x : Session σ)

/-- The threads of a course, each with its own script. -/
theorem stacked_of_course (happ : app.Registered) (s : ControlState σ) (moves : List (Move σ))
    (h : Course c app x s moves) :
    List.Forall₂ x.scheduler.app.Stacked app.roster s.threads := by
  -- By induction on the moves. The session is generalized, as the course before the last move
  -- belongs to an earlier one.
  induction moves generalizing x s with
  | nil =>
      rcases course_nil c app x s h with ⟨data, k, k', hstart, hext, hext'⟩
      have hdrawn := App.relationsDrawn_of_extends _ _ hext happ.relations
      have happ' := registered_of_explored c app x (explored_of_course c app x s _ h).1 happ
      rw [← app.roster_of_extends _ hext]
      refine (Scheduler.begun_of_gives_startState data k k' s hstart).imp ?_
      rintro entry u ⟨t, hbegins, hturned⟩
      have ht := x.scheduler.app.stacked_of_begins happ'.filed entry t
        (App.begins_of_extends _ _ hext' hdrawn entry t hbegins)
      rcases k'.app.stays_of_turned t u hturned with ⟨hplace, hcalls, _, _⟩
      refine ⟨isOf_of_same t u (k'.app.same_of_turned t u hturned) entry ht.isOf, ?_⟩
      rw [hcalls, hplace]
      exact ht.nested
  | cons m moves ih =>
      rcases course_cons c app x s m moves h with ⟨rfl, y, k, hy, ⟨w⟩, hk⟩
      have hexplored := (explored_of_course c app y m.source moves hy).1
      have happY := registered_of_explored c app y hexplored happ
      have happK := Scheduler.registered_of_passage c y.scheduler k m w happY
      have hroster := App.roster_of_extends _ _ (extends_of_explored c app y hexplored)
      have hbefore := ih y m.source hy
      have hkin := Scheduler.kin_of_step c _ _ _ _ (Scheduler.step_of_passage c _ k m w)
      -- Threads stay at their indices, so each is compared with its script index by index.
      refine forall₂_of_getElem? _ _ _ (hbefore.length_eq.trans hkin.length_eq) ?_
      intro i entry u hentry hu
      rcases getElem?_of_forall₂_left _ _ _ hbefore i entry hentry with ⟨t, ht, hstacked⟩
      have hmem : entry ∈ y.scheduler.app.roster := hroster ▸ List.mem_of_getElem? hentry
      exact App.stacked_of_extends _ _ hk happK.relations happK.operations entry u
        (Scheduler.stacked_of_passage c y.scheduler k m w happY entry hmem i t u ht hu hstacked)

/-- Every frame on a stack was left by a call, and it has been there since. -/
theorem calledSince_of_course (hdrawn : app.RelationsDrawn) (s : ControlState σ)
    (moves : List (Move σ)) (h : Course c app x s moves) (i : Nat) (t : Thread)
    (ht : s.threads[i]? = some t) (frame : Frame) (calls : List Frame)
    (hcalls : frame :: calls <:+ t.calls) : CalledSince moves i frame calls := by
  -- Going back from the last move: the frame was pushed by it, or it was on the stack before.
  induction moves generalizing x s t with
  | nil =>
      rcases course_nil c app x s h with ⟨data, k, k', hstart, _⟩
      rcases getElem?_of_forall₂_right _ _ _
        (Scheduler.begun_of_gives_startState data k k' s hstart) i t ht with
        ⟨entry, _, v, ⟨r, l, _, _, hv⟩, hturned⟩
      rw [(k'.app.stays_of_turned v t hturned).calls, hv] at hcalls
      exact absurd (List.suffix_nil.mp hcalls) (List.cons_ne_nil frame calls)
  | cons m moves ih =>
      rcases course_cons c app x s m moves h with ⟨rfl, y, k, hy, ⟨w⟩, _⟩
      have hexplored := (explored_of_course c app y m.source moves hy).1
      have hext := extends_of_explored c app y hexplored
      have hdrawnY := App.relationsDrawn_of_extends _ _ hext hdrawn
      rcases Scheduler.source_of_passage c _ k m w i t ht with ⟨v, hv, _⟩
      rcases Scheduler.pushed_of_passage c y.scheduler k m w hdrawnY i v t hv ht frame calls hcalls
        with hkept | hpush
      · exact calledSince_cons m moves i frame calls v hv hkept (ih y m.source hy v hv hkept)
      · exact calledSince_of_pushes m moves i frame calls hpush

/-- Every thread goes on with its own script, and its calls lead from the relation of the script to
    its place. A return takes off the frame of the call that was made last and not returned from
    yet. It continues behind this call, in the relation in which it was made. A monitor of the
    program starts again when its step is over. -/
theorem calls_nested (happ : app.Registered) (h : Explored c app x) :
    (∀ s ∈ x.found, List.Forall₂ x.scheduler.app.Stacked app.roster s.threads)
      ∧ ∀ (k : Scheduler) (m : Move σ) (w : Scheduler.Passage c x.scheduler k m)
          (result : Option Variable), m.source ∈ x.found → m.edge.1.statement = .ret result →
        ∃ frame, w.t.calls = frame :: w.t₁.calls ∧ w.t₁.place = frame.returnTo
          ∧ frame.returnTo.relation = frame.callFrom.relation
          ∧ (∀ moves, Course c app x m.source moves →
            CalledSince moves m.index frame w.t₁.calls)
          ∧ ∃ u, m.target.threads[m.index]? = some u
            ∧ ((u.place = frame.returnTo ∧ u.calls = w.t₁.calls)
              ∨ (w.actor.concern = .program ∧ k.app.IsMonitor u
                ∧ k.app.entryPlace u = .ok u.place ∧ u.calls = [])) := by
  have hdrawn := (registered_of_explored c app x h happ).relations
  have hstacked : ∀ s ∈ x.found, List.Forall₂ x.scheduler.app.Stacked app.roster s.threads := by
    intro s hs
    rcases course_of_explored c app x h s hs with ⟨moves, hcourse⟩
    exact stacked_of_course c app x happ s moves hcourse
  refine ⟨hstacked, fun k m w result hfound hreturn => ?_⟩
  have hwent := Scheduler.went_of_passage c x.scheduler k m w hdrawn
  rw [hreturn] at hwent
  rcases k.app.frame_of_went w.t w.actor m.edge.2 result _ _ hwent with ⟨frame, hpending, hplace⟩
  rcases getElem?_of_forall₂_right _ _ _ (hstacked m.source hfound) m.index w.t w.thread with
    ⟨entry, _, _, hnested⟩
  rw [hpending] at hnested
  rcases hnested with ⟨⟨method, ⟨_, op, _, _, hjoins, _⟩, _⟩, _⟩
  -- The top of the stack is a call along an edge, and edges stay within a relation.
  have hwithin : frame.returnTo.relation = frame.callFrom.relation := by rw [hjoins.within]
  refine ⟨frame, hpending, hplace, hwithin, ?_, ?_⟩
  · intro moves hcourse
    exact calledSince_of_course c app x happ.relations m.source moves hcourse m.index w.t w.thread
      frame _ (hpending ▸ List.suffix_refl _)
  · rcases Scheduler.stepper_of_passage c x.scheduler k m w hdrawn with ⟨u, hu, hend⟩
    have hsame := k.app.same_of_ended _ u w.actor.concern hend
    refine ⟨u, hu, ?_⟩
    rcases k.app.went_of_ended _ u w.actor.concern hend with
      ⟨hcalls, hstays⟩ | ⟨hconcern, hmonitor, hcalls, hstart⟩
    · exact Or.inl ⟨hstays.trans hplace, hcalls⟩
    · refine Or.inr ⟨hconcern, k.app.isMonitor_of_same _ u hsame hmonitor, ?_, hcalls⟩
      exact (k.app.entryPlace_of_same _ u hsame).trans hstart

/-- The inner one of two methods returns to the outer one. -/
theorem calls_nested_calling : ∃ (m : Move Unit) (k : Scheduler)
    (w : Scheduler.Passage .indifferent (callingSession 2).scheduler k m) (inner outer : Frame),
    m.edge.1.statement = .ret none ∧ w.t.calls = [inner, outer] ∧ w.t₁.calls = [outer]
      ∧ w.t₁.place = inner.returnTo ∧ inner.returnTo.relation = inner.callFrom.relation := by
  rcases passage_of_expandLast .indifferent (callingSession 2) (by decide +kernel) with
    ⟨m, k, hsource, _, _, ⟨w⟩⟩
  have hinside : ∀ s ∈ (callingSession 2).found.getLast?, s.running = [0]
      ∧ ∃ t ∈ s.threads[0]?, t.calls.length = 2
        ∧ ∃ edges ∈ ((callingSession 2).scheduler.app.leaving s t).toOption,
          ∀ edge ∈ edges, edge.1.statement = .ret none := by
    decide +kernel
  rcases hinside m.source hsource with ⟨hrunning, t, ht, hdepth, edges, hedges, hreturns⟩
  rcases Scheduler.edge_of_passage _ _ _ m w 0 t edges hrunning ht ((mem_toOption _ _).mp hedges)
    with ⟨_, rfl, hedge⟩
  have hreturn := hreturns m.edge hedge
  rcases (calls_nested .indifferent calling (callingSession 2) (App.registered_of_draft _ _)
    (explored_callingSession 2)).2 k m w none (List.mem_of_getLast? hsource) hreturn with
    ⟨inner, hpending, hplace, hwithin, _, _⟩
  rw [hpending, List.length_cons] at hdepth
  rcases List.length_eq_one_iff.mp (Nat.succ.inj hdepth) with ⟨outer, houter⟩
  rw [houter] at hpending
  exact ⟨m, k, w, inner, outer, hreturn, hpending, houter, hplace, hwithin⟩

end Session

end ActorCheck

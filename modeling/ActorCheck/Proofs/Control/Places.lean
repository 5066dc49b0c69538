import ActorCheck.Proofs.Control.Changes

/-!
# Where a Step Leaves a Thread

A thread has a place, and with it the calls that are pending, the loops around it and the atomic
blocks that are open. The phases of a step that concern all threads do not move any of them along an
edge, so there are only two possibilities for all of this together. A thread stays where it is, or
it is started again and stands at the entry of its script, with nothing pending.

## Main definitions

* `Thread.Stays`: A thread is where it was.
* `App.AtEntry`: A thread stands at the entry of its script, with nothing pending.

## Theorems

* `App.stays_or_restarts_of_ended`: What the end of a step does.
* `App.atEntry_of_ended`: A thread at the entry of its script is there afterwards.
-/

namespace ActorCheck

/-- The thread is where it was, with everything that belongs to its place. -/
structure Thread.Stays (t u : Thread) : Prop where
  place : u.place = t.place
  calls : u.calls = t.calls
  loops : u.loops = t.loops
  atomic : u.atomic = t.atomic

/-- The thread stands at the entry of its script, with nothing pending. -/
structure App.AtEntry (app : App) (t : Thread) : Prop where
  place : app.entryPlace t = .ok t.place
  calls : t.calls = []
  loops : t.loops = []
  atomic : t.atomic = 0

theorem stays_refl (t : Thread) : t.Stays t := ⟨rfl, rfl, rfl, rfl⟩

theorem stays_trans (t u v : Thread) (h : t.Stays u) (h' : u.Stays v) : t.Stays v :=
  ⟨h'.place.trans h.place, h'.calls.trans h.calls, h'.loops.trans h.loops,
    h'.atomic.trans h.atomic⟩

namespace App

variable (app : App) (t u : Thread)

theorem atEntry_of_extends (b : App) (h : app.Extends b) (hdrawn : app.RelationsDrawn)
    (ht : app.AtEntry t) : b.AtEntry t :=
  ⟨entryPlace_of_extends app b h hdrawn t t.place ht.place, ht.calls, ht.loops, ht.atomic⟩

theorem atEntry_of_atStart (entry : Place) (h : app.entryPlace t = .ok entry) :
    app.AtEntry (t.atStart entry) :=
  ⟨h, rfl, rfl, rfl⟩

theorem atEntry_of_stays (hsame : t.Same u) (hstays : t.Stays u) (h : app.AtEntry t) :
    app.AtEntry u := by
  refine ⟨?_, hstays.calls.trans h.calls, hstays.loops.trans h.loops,
    hstays.atomic.trans h.atomic⟩
  rw [app.entryPlace_of_same t u hsame, hstays.place]
  exact h.place

theorem stays_of_relieved (h : app.Relieved t u) : t.Stays u := by
  cases h <;> exact ⟨rfl, rfl, rfl, rfl⟩

theorem stays_of_turned (h : app.Turned t u) : t.Stays u := by
  cases h <;> exact ⟨rfl, rfl, rfl, rfl⟩

/-- At the end of a step a thread stays where it is, unless it is a monitor that is started again.
    If it is a monitor that is not, it is disabled or the step was none of the program. -/
theorem stays_or_restarts_of_ended (concern : Concern) (h : app.Ended concern t u) :
    (t.Stays u ∧ (concern ≠ .program ∨ t.status = .disabled ∨ app.NoMonitor t))
      ∨ (concern = .program ∧ app.IsMonitor t ∧ app.AtEntry u) := by
  rcases h with ⟨finished, started, relieved, hfinish, hstart, hrelieve, hturn⟩
  have hsame : t.Same finished := app.same_of_finished t finished hfinish
  -- To finish does not move a thread, and it disables nobody.
  have hfinished : t.Stays finished ∧ (finished.status = .disabled → t.status = .disabled) := by
    cases hfinish with
    | kept => exact ⟨stays_refl t, id⟩
    | stopped => exact ⟨⟨rfl, rfl, rfl, rfl⟩, nofun⟩
  have hsame' : started.Same u := same_trans started relieved u
    (app.same_of_relieved started relieved hrelieve) (app.same_of_turned relieved u hturn)
  have hend : started.Stays u := stays_trans started relieved u
    (app.stays_of_relieved started relieved hrelieve) (app.stays_of_turned relieved u hturn)
  -- Only the start of monitors moves anybody. All phases before and after leave the places as they
  -- are.
  cases hstart with
  | kept reason =>
      refine Or.inl ⟨stays_trans t finished u hfinished.1 hend, ?_⟩
      exact reason.imp_right (Or.imp hfinished.2
        (app.noMonitor_of_same finished t (same_symm t finished hsame)))
  | restarted program enabled monitor entry start =>
      exact Or.inr ⟨program, app.isMonitor_of_same finished t (same_symm t finished hsame) monitor,
        app.atEntry_of_stays _ u hsame' hend (app.atEntry_of_atStart finished entry start)⟩

/-- Whoever stands at the entry before the end of a step stands there afterwards. -/
theorem atEntry_of_ended (concern : Concern) (h : app.Ended concern t u) (ht : app.AtEntry t) :
    app.AtEntry u := by
  rcases app.stays_or_restarts_of_ended t u concern h with ⟨hstays, _⟩ | ⟨_, _, hentry⟩
  · exact app.atEntry_of_stays t u (app.same_of_ended t u concern h) hstays ht
  · exact hentry

end App

end ActorCheck

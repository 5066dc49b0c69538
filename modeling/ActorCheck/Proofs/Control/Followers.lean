import ActorCheck.Proofs.Control.DataSteps

/-!
# Threads That Follow Their Scripts

A thread of a bootstrap script stays in the relation of its script as long as nothing is called,
and it is not held up as long as nobody waits. `Follows` says this of a thread, where `Runs` says
what the program knows about actor, script and relation. What the scheduler asks about such a
thread is then answered by the relation and the place in it: whether something leaves the place,
whether the thread has come to its end, and whether it can be restarted.

## Main definitions

* `App.Runs`: An actor has a script that runs a relation by itself.
* `Thread.Follows`: A thread follows a script and is not held up.

## Theorems

* `App.runs_of_only`: The only script of an actor.
* `Thread.hasLeaving_of_follows`, `Thread.noMonitor_of_follows`: What the scheduler asks.
* `Thread.canRun_of_follows`, `Thread.restedAt_of_follows`: A thread that rests.
* `Scheduler.gives_initialThread`: A thread at the beginning of its script.
* `Scheduler.gives_startState`: The state in which a program starts.
-/

namespace ActorCheck

/-- The program has an actor with a script that starts by itself and runs a relation. -/
structure App.Runs (app : App) (a : Actor) (script : Script) (r : Relation) : Prop where
  owner : app.actor a.name = .ok a
  known : app.script a.name script.id = .ok script
  bootstrap : script.event = .bootstrap
  relation : app.relation r.id = .ok r

/-- The only script of an actor. -/
theorem App.runs_of_only (app : App) (a : Actor) (script : Script) (r : Relation)
    (hactor : app.actor a.name = .ok a) (honly : a.scripts = [script])
    (hevent : script.event = .bootstrap) (hr : app.relation r.id = .ok r) :
    app.Runs a script r := by
  refine ⟨hactor, ?_, hevent, hr⟩
  have hfind : a.script? script.id = some script := by
    unfold Actor.script?
    rw [honly]
    -- There is only one script to look at, and the numbers are equal.
    exact List.find?_cons_of_pos (beq_self_eq_true script.id)
  unfold App.script
  refine (except_bind_ok _ _ _).mpr ⟨a, hactor, ?_⟩
  dsimp only
  rw [hfind]
  rfl

/-- A thread follows a script, somewhere in the relation of the script, and is not held up. -/
structure Thread.Follows (t : Thread) (a : Actor) (script : Script) (r : Relation) : Prop where
  actor : t.actor = a.name
  script : t.script = script.id
  home : t.place.actor = a.name
  relation : t.place.relation = r.id
  waits : t.waitingFor = ∅
  free : t.atomic = 0
  operations : t.operations = []

namespace Thread

variable (t : Thread) (a : Actor) (script : Script) (r : Relation) (ht : t.Follows a script r)

section Changes

include ht

/-- Whether it runs does not matter for what a thread follows. -/
theorem follows_of_status (status : ThreadStatus) :
    { t with status := status }.Follows a script r :=
  ⟨ht.actor, ht.script, ht.home, ht.relation, ht.waits, ht.free, ht.operations⟩

/-- A thread that moves within its relation. -/
theorem follows_movedTo (app : App) (l : LocationId) :
    (app.movedTo t { t.place with location := l }).Follows a script r :=
  ⟨ht.actor, ht.script, ht.home, ht.relation, ht.waits, ht.free, ht.operations⟩

end Changes

variable (app : App) (h : app.Runs a script r)

include ht h

theorem actorNamed_of_follows : app.actorNamed t.actor = .ok a := by
  rw [ht.actor]
  exact (ofModel_ok _ _).mpr h.owner

theorem relationOf_of_follows : app.relationOf t.place.relation = .ok r := by
  rw [ht.relation]
  exact (ofModel_ok _ _).mpr h.relation

theorem hasLeaving_of_follows : app.hasLeaving t = .ok (r.hasEdgesFrom t.place.location) :=
  app.hasLeaving_eq t r (relationOf_of_follows t a script r ht app h)

theorem observes_of_follows : app.observes t = .ok a.isObserver := by
  unfold App.observes
  rw [actorNamed_of_follows t a script r ht app h]
  rfl

theorem noMonitor_of_follows : app.NoMonitor t := by
  refine ⟨script, ?_, ?_⟩
  · unfold App.scriptOf
    rw [ht.actor, ht.script]
    exact (ofModel_ok _ _).mpr h.known
  · rw [h.bootstrap]
    exact nofun

/-- A thread that rests can run exactly if something leaves its place. -/
theorem canRun_of_follows
    (hstatus : t.status = if r.hasEdgesFrom t.place.location then .yield else .done) :
    app.canRun t = .ok (r.hasEdgesFrom t.place.location) := by
  have hleaves := hasLeaving_of_follows t a script r ht app h
  unfold App.canRun
  -- A thread that rests is not stopped and not disabled, so the two cases of its status are all
  -- there is.
  cases hmore : r.hasEdgesFrom t.place.location with
  | true =>
      rw [hmore, if_pos rfl] at hstatus
      rw [if_pos hstatus, hleaves, hmore]
  | false =>
      rw [hmore, if_neg Bool.false_ne_true] at hstatus
      rw [if_neg (by rw [hstatus]; decide)]

/-- Once it has moved and given its turn away, a thread is done exactly if nothing leaves its new
    place. -/
theorem restedAt_of_follows (l : LocationId) :
    app.restedAt t { t.place with location := l }
      = { app.movedTo t { t.place with location := l } with
          status := if r.hasEdgesFrom l then .yield else .done } := by
  have hleaves : app.hasLeaving (app.movedTo t { t.place with location := l })
      = .ok (r.hasEdgesFrom l) :=
    hasLeaving_of_follows _ a script r (t.follows_movedTo a script r ht app l) app h
  unfold App.restedAt
  rw [hleaves]
  cases r.hasEdgesFrom l with
  | true => rfl
  | false => rfl

end Thread

/-- The thread of a script at its beginning. -/
theorem Scheduler.gives_initialThread (k : Scheduler) (a : Actor) (script : Script) (r : Relation)
    (h : k.app.Runs a script r) (hruns : script.relation = r.id) (entry : LocationId)
    (hentry : r.soleEntry = .ok entry) :
    ∃ t, Gives (initialThread a script) k t
        { k with app := { k.app with supply := ⟨k.app.supply.next + 1⟩ } }
      ∧ t.Follows a script r ∧ t.place.location = entry
      ∧ t.status = if r.hasEdgesFrom entry then .yield else .done := by
  refine ⟨Thread.new k.app.supply.next a.name script.id ⟨a.name, r.id, entry⟩
    (initialStatus script.event (r.hasEdgesFrom entry)), ?_, ⟨rfl, rfl, rfl, rfl, rfl, rfl, rfl⟩,
    rfl, ?_⟩
  · unfold initialThread
    -- The relation and its entry are looked up, and both are there. The number is drawn first.
    rw [gives_program_bind, gives_lookUp_bind]
    refine ⟨r, ?_, (gives_lookUp_bind _ _ _ _ _).mpr ⟨entry, (ofModel_ok _ _).mpr hentry, rfl⟩⟩
    rw [hruns]
    exact (ofModel_ok _ _).mpr h.relation
  · change initialStatus script.event (r.hasEdgesFrom entry) = _
    rw [h.bootstrap]
    rfl

/-- The state in which a program starts, from its threads and from which of them is the first. -/
theorem Scheduler.gives_startState {σ : Type} (k k' : Scheduler) (threads : List Thread) (data : σ)
    (hthreads : Gives initialThreads k threads k') (hidle : ∀ t ∈ threads, t.status ≠ .running)
    (who : Option Nat)
    (hwho : k'.app.nextThread (ControlState.new threads data) (threads.length - 1) = .ok who) :
    Gives (startState data) k ((ControlState.new threads data).granted who) k' := by
  have hgrant := k'.app.grantTurn_eq _ _ who hwho
  -- No thread runs before the first turn is given, so there is nothing for the check to find.
  have hcheck := k'.app.checkTurn_of_grantTurn _ _ _ hidle hgrant
  unfold startState
  refine (gives_bind _ _ _ _ _).mpr ⟨threads, k', hthreads, ?_⟩
  rw [gives_program_bind, gives_lookUp_bind]
  exact ⟨_, hgrant, (gives_lookUp_bind _ _ _ _ _).mpr ⟨(), hcheck, rfl⟩⟩

end ActorCheck

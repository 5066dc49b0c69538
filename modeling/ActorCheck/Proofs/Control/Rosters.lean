import ActorCheck.Proofs.Control.Passages
import ActorCheck.Proofs.Program.Registry

/-!
# One Thread for Every Script

The threads of a program are made when it starts, one for every script, in the order of the actors
and their scripts. None is made later and none is dropped, so the list of threads goes along the
`roster` of the program at all times. A thread keeps the actor and the script that it was made for.

A thread knows actor and script by name and number only. What it looks up under them is what it was
made for if the program tells its actors and their scripts apart. All that depends on the script of
a thread, above all whether it is a monitor, is then settled by the program as it was written.

## Main definitions

* `App.roster`: The scripts of a program with their actors.
* `Thread.IsOf`: A thread carries out a script of an actor.
* `App.Begins`: The thread of a script before anything has happened.

## Theorems

* `App.scriptOf_of_isOf`: The script that a thread looks up.
* `App.isMonitor_iff_of_extends`: Nobody becomes a monitor.
* `Scheduler.begun_of_gives_startState`: The threads when a program starts.
* `Session.roster_of_explored`: The threads at any time.
* `Session.registered_of_explored`: What is registered at any time.
-/

namespace ActorCheck

/-- The scripts of a program with their actors, actor by actor. -/
def App.roster (app : App) : List (Actor × Script) :=
  app.actors.flatMap fun a => a.scripts.map fun script => (a, script)

/-- The thread carries out a script of an actor. -/
structure Thread.IsOf (t : Thread) (entry : Actor × Script) : Prop where
  actor : t.actor = entry.1.name
  script : t.script = entry.2.id

theorem isOf_of_same (t u : Thread) (h : t.Same u) (entry : Actor × Script) (ht : t.IsOf entry) :
    u.IsOf entry :=
  ⟨h.actor.trans ht.actor, h.script.trans ht.script⟩

namespace App

/-- The thread of a script before anything has happened: it stands at the entry of the relation. -/
def Begins (app : App) (entry : Actor × Script) (t : Thread) : Prop :=
  ∃ r l, app.relationOf entry.2.relation = .ok r ∧ r.soleEntry = .ok l
    ∧ t = Thread.new t.id entry.1.name entry.2.id ⟨entry.1.name, r.id, l⟩
      (Scheduler.initialStatus entry.2.event (r.hasEdgesFrom l))

variable (app : App)

theorem isOf_of_begins (entry : Actor × Script) (t : Thread) (h : app.Begins entry t) :
    t.IsOf entry := by
  rcases h with ⟨r, l, _, _, ht⟩
  rw [ht]
  exact ⟨rfl, rfl⟩

theorem mem_roster (entry : Actor × Script) :
    entry ∈ app.roster ↔ entry.1 ∈ app.actors ∧ entry.2 ∈ entry.1.scripts := by
  unfold roster
  rw [List.mem_flatMap]
  constructor
  · rintro ⟨a, ha, hentry⟩
    rcases List.mem_map.mp hentry with ⟨script, hscript, rfl⟩
    exact ⟨ha, hscript⟩
  · rintro ⟨ha, hscript⟩
    exact ⟨entry.1, ha, List.mem_map_of_mem hscript⟩

theorem roster_of_extends (b : App) (h : app.Extends b) : b.roster = app.roster := by
  unfold roster
  rw [h.actors]

section LookUp

variable (hd : app.Distinct) (entry : Actor × Script) (hentry : entry ∈ app.roster) (t : Thread)

include hd hentry

theorem actorNamed_of_isOf (ht : t.IsOf entry) : app.actorNamed t.actor = .ok entry.1 := by
  unfold actorNamed
  rw [ofModel_ok, ht.actor]
  exact app.actor_of_distinct hd _ ((app.mem_roster entry).mp hentry).1

/-- The script that a thread looks up is the one it was made for. -/
theorem scriptOf_of_isOf (ht : t.IsOf entry) : app.scriptOf t = .ok entry.2 := by
  rcases (app.mem_roster entry).mp hentry with ⟨ha, hscript⟩
  unfold scriptOf
  rw [ofModel_ok, ht.actor, ht.script]
  exact app.script_of_distinct hd _ ha _ hscript

/-- A thread that begins stands where it will start again. -/
theorem entryPlace_of_begins (h : app.Begins entry t) : app.entryPlace t = .ok t.place := by
  have hscript := app.scriptOf_of_isOf hd entry hentry t (app.isOf_of_begins entry t h)
  rcases h with ⟨r, l, hr, hl, ht⟩
  unfold entryPlace
  refine (except_bind_ok _ _ _).mpr ⟨entry.2, hscript, (except_bind_ok _ _ _).mpr ⟨r, hr, ?_⟩⟩
  rw [hl, ht]
  rfl

end LookUp

/-- Nobody becomes a monitor, and nobody ceases to be one. -/
theorem isMonitor_iff_of_extends (b : App) (h : app.Extends b) (t : Thread) (script : Script)
    (hscript : app.scriptOf t = .ok script) : b.IsMonitor t ↔ app.IsMonitor t := by
  refine ⟨?_, isMonitor_of_extends app b h t⟩
  -- The script that is found later is the one that was found before.
  rintro ⟨other, hother, hevent⟩
  rw [scriptOf_of_extends app b h t script hscript] at hother
  cases hother
  exact ⟨script, hscript, hevent⟩

end App

namespace Scheduler

/-- When a program starts, the threads that are made go along its roster. -/
theorem begun_of_gives_initialThreads (k k' : Scheduler) (threads : List Thread)
    (h : Gives initialThreads k threads k') :
    List.Forall₂ k'.app.Begins k'.app.roster threads := by
  have hactors : k'.app.roster = k.app.roster :=
    App.roster_of_extends _ _
      (extends_of_gives _ (keeps_initialThreads additive_extends.modest) k k' _ h)
  unfold initialThreads at h
  rw [gives_program_bind] at h
  rcases (gives_bind _ _ _ _ _).mp h with ⟨found, k₁, hfound, h⟩
  rcases (gives_pure _ _ _ _).mp h with ⟨rfl, rfl⟩
  -- Nothing but numbers is drawn, so all threads see the same relations.
  have hbegins : ∀ (a : Actor) (script : Script) (k₂ : Scheduler) (t : Thread) (k₃ : Scheduler),
      k₂.app.relations = k.app.relations → Gives (initialThread a script) k₂ t k₃ →
        k.app.Begins (a, script) t ∧ k₃.app.relations = k.app.relations := by
    intro a script k₂ t k₃ hsame hgives
    unfold initialThread at hgives
    rw [gives_program_bind] at hgives
    rcases (gives_lookUp_bind _ _ _ _ _).mp hgives with ⟨r, hr, hgives⟩
    rcases (gives_lookUp_bind _ _ _ _ _).mp hgives with ⟨l, hl, hgives⟩
    rcases (gives_bind _ _ _ _ _).mp hgives with ⟨id, k₄, hid, hgives⟩
    rcases (gives_pure _ _ _ _).mp hgives with ⟨rfl, rfl⟩
    cases hid
    refine ⟨⟨r, l, ?_, (ofModel_ok _ _).mp hl, rfl⟩, hsame⟩
    unfold App.relationOf App.relation at hr ⊢
    rwa [← hsame]
  -- Actors and their scripts are gone through in two nested maps, and so are the lists of threads.
  have hlists := gives_mapM_related (fun k₂ : Scheduler => k₂.app.relations = k.app.relations)
    (fun a ts => List.Forall₂ (fun script t => k.app.Begins (a, script) t) a.scripts ts) _
    k.app.actors (fun a _ k₂ ts k₃ hsame hgives =>
      gives_mapM_related _ _ _ a.scripts (fun script _ => hbegins a script) k₂ k₃ ts hsame hgives)
    k k₁ found rfl hfound
  have hrelations : ∀ entry t, k.app.Begins entry t → k₁.app.Begins entry t := by
    rintro entry t ⟨r, l, hr, hl, ht⟩
    refine ⟨r, l, ?_, hl, ht⟩
    unfold App.relationOf App.relation at hr ⊢
    rwa [hlists.2]
  rw [hactors]
  -- The roster and the threads are both flattened actor by actor.
  refine List.Forall₂.imp hrelations (List.rel_flatten ?_)
  exact List.forall₂_map_left_iff.mpr
    (hlists.1.imp fun a ts hts => List.forall₂_map_left_iff.mpr hts)

variable {σ : Type}

/-- When a program starts, one of its threads may be given its turn before anything happens. -/
theorem begun_of_gives_startState (data : σ) (k k' : Scheduler) (s : ControlState σ)
    (h : Gives (startState data) k s k') :
    List.Forall₂ (fun entry u => ∃ t, k'.app.Begins entry t ∧ k'.app.Turned t u) k'.app.roster
      s.threads := by
  rcases turned_of_gives_startState data k k' s h with ⟨threads, hthreads, _, _, hturned⟩
  exact forall₂_comp _ _ _ _ _ (begun_of_gives_initialThreads k k' threads hthreads) hturned

/-- Whatever the scheduler adds, the relations stay filed. -/
theorem additive_filed : Additive fun k k' => k.app.Filed → k'.app.Filed where
  refl _ h := h
  trans _ _ _ h h' hk := h' (h hk)
  drawn _ h := h
  asked owner condition k h := ends_modelling (fun k' => k'.app.Filed) _ k
    (App.ends_conditionScript App.Filed owner condition k.app h
      (App.filed_of_makeConditionScript owner condition k.app h))
  learned _ _ _ _ _ _ h := h
  made k script a _ hk := by
    have hbuilding : ∀ {α : Type} (x : Drawing α) (k : Scheduler), k.app.Filed →
        ((modelling (App.building x)).run k).2.app.Filed := fun x k h =>
      ends_modelling (fun k' => k'.app.Filed) (App.building x) k h
    have hstep :
        ((adding (App.newOperation (.store a.variant a.accelerateTo))).run k).2.app.Filed := hk
    -- Operations and drafts of relations do not touch the relations on file. Only the last step
    -- files one, and that is well formed because it was made.
    unfold makeAccelerator
    refine ends_bind (fun k' => k'.app.Filed) _ _ k hstep (fun step k₁ _ h₁ => ?_)
    refine ends_bind (fun k' => k'.app.Filed) _ _ k₁ (hbuilding _ k₁ h₁) (fun line k₂ _ h₂ => ?_)
    refine ends_bind (fun k' => k'.app.Filed) _ _ k₂ (hbuilding _ k₂ h₂) ?_
    intro plain k₃ hplain h₃
    have hwell := Relation.wellFormed_of_make _ _ _ _ plain
      (App.gives_building _ _ _ plain (gives_modelling _ k₂ k₃ plain hplain))
    let r := plain.rename ("accelerate_" ++ scriptText script)
    have hadd : ((adding (App.addRelation r)).run k₃).2.app.Filed :=
      App.filed_of_addRelation r hwell k₃.app h₃
    refine ends_bind (fun k' => k'.app.Filed) _ _ k₃ hadd ?_
    intro _ k₄ _ h₄
    exact h₄

/-- Whatever the scheduler adds is registered like what was there before. -/
theorem additive_registered : Additive fun k k' => k.app.Registered → k'.app.Registered where
  refl _ h := h
  trans _ _ _ h h' hk := h' (h hk)
  drawn k h := App.registered_of_extends _ _ (additive_extends.drawn k) h
    (additive_filed.drawn k h.filed)
  asked owner condition k h := App.registered_of_extends _ _
    (additive_extends.asked owner condition k) h (additive_filed.asked owner condition k h.filed)
  learned _ _ _ _ _ _ h := h
  made k script a hlearned h := App.registered_of_extends _ _
    (additive_extends.made k script a hlearned) h (additive_filed.made k script a hlearned h.filed)

end Scheduler

namespace Session

variable {σ : Type} [DecidableEq σ] (c : Control σ) (app : App) (x : Session σ)
  (h : Explored c app x)

include h in
theorem registered_of_explored (happ : app.Registered) : x.scheduler.app.Registered :=
  (invariant_of_moves c app (fun k => k.app.Registered) (fun _ _ => True) happ
    Scheduler.additive_registered (fun _ _ _ _ _ _ => trivial) (fun _ _ _ _ _ => trivial)
    (fun _ _ _ _ _ _ _ _ => trivial) x h).1

variable (s : ControlState σ) (hs : s ∈ x.found)

include h hs

/-- The threads go along the roster of the program as it was written. -/
theorem roster_of_explored :
    List.Forall₂ (fun entry (t : Thread) => t.IsOf entry) app.roster s.threads := by
  refine invariant_of_explored c app
    (fun _ s => List.Forall₂ (fun entry (t : Thread) => t.IsOf entry) app.roster s.threads)
    (fun _ _ _ _ _ hs => hs) ?_ ?_ x h s hs
  · intro k k' data s hext hgives
    have hroster := App.roster_of_extends app k'.app
      (App.extends_trans _ _ _ hext
        (Scheduler.extends_of_gives _ (Scheduler.grows_startState data) k k' s hgives))
    rw [← hroster]
    -- Whoever has got the first turn is still the thread of its script.
    refine (Scheduler.begun_of_gives_startState data k k' s hgives).imp ?_
    rintro entry u ⟨t, hbegins, hturned⟩
    exact isOf_of_same t u (k'.app.same_of_turned t u hturned) entry
      (k'.app.isOf_of_begins entry t hbegins)
  · intro k k' s next _ hs hgives s' hs'
    have hkin := Scheduler.kin_of_step c k.app k'.app s s'
      (Scheduler.step_of_gives_successors c s s' k k' next hgives hs')
    -- A step does not change which script a thread carries out, and the threads stay in order.
    refine (forall₂_comp _ _ _ _ _ hs hkin).imp ?_
    rintro entry u ⟨t, ht, hsame⟩
    exact isOf_of_same t u hsame entry ht

/-- Every thread looks up a script of the program as it was written. -/
theorem scriptOf_of_explored (hd : app.Distinct) (t : Thread) (ht : t ∈ s.threads) :
    ∃ script, app.scriptOf t = .ok script := by
  rcases mem_of_forall₂_right _ _ _ (roster_of_explored c app x h s hs) t ht with
    ⟨entry, hentry, hof⟩
  exact ⟨entry.2, app.scriptOf_of_isOf hd entry hentry t hof⟩

end Session

end ActorCheck

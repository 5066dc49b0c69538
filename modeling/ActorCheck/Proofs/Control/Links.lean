import ActorCheck.Control.Leaving
import ActorCheck.Proofs.Program.Growth
import Mathlib.Data.List.Nodup

/-!
# Who Waits for Whom

A thread that waits keeps the numbers of the threads it waits for. What has to
be true of these numbers is the same in all phases of a step, and `Linked` says
what: they lead to a thread of the program that no statement restarts, or to a
condition thread, and a condition thread has one thread at most that waits for
it.

Most of what happens to threads can only shorten what they wait for. `Later`
describes how a thread may change in this way, and `linked_of_later` says that
the links survive it. This leaves two events to be looked at on their own. A
condition thread appears with a number nobody knows yet, and a thread begins to
wait.

Monitors need care. They start again at their entry whenever the program takes a
step, even if nothing leaves that entry, so they may be done at any time without
having been seen to be. Nobody waits for a monitor, which is why the links tell
monitors apart.

## Main definitions

* `App.IsMonitor`, `App.NoMonitor`: Whether statements restart a thread.
* `App.Orderly`: Status and waiting set of a thread agree.
* `App.Later`: A thread after a change that makes it wait for less.
* `App.Linked`: The waiting sets lead to threads that are there.

## Theorems

* `App.linked_of_extends`: Links survive additions to the program.
* `App.linked_of_later`: Links survive changes that make threads wait for less.
* `App.linked_of_newCondition`: A condition thread with a new number.
* `App.linked_of_dropped`: Condition threads that nobody waits for are dropped.
* `App.linked_of_beginWait`: A thread begins to wait.
-/

namespace ActorCheck

theorem awaited_eq_empty (ids : Std.ExtTreeSet ThreadId) : ids = ∅ ↔ ∀ id, id ∉ ids := by
  constructor
  · rintro rfl id
    exact Std.ExtTreeSet.not_mem_empty
  · intro h
    refine Std.ExtTreeSet.ext_mem (fun id => ?_)
    exact iff_of_false (h id) Std.ExtTreeSet.not_mem_empty

theorem mem_erase_iff (ids : Std.ExtTreeSet ThreadId) (a id : ThreadId) :
    id ∈ ids.erase a ↔ id ≠ a ∧ id ∈ ids := by
  rw [Std.ExtTreeSet.mem_erase, ne_eq, ne_eq, Std.LawfulEqCmp.compare_eq_iff_eq]
  exact and_congr_left fun _ => not_congr eq_comm

theorem ofModel_ok {α : Type} (x : Except ModelError α) (a : α) : ofModel x = .ok a ↔ x = .ok a :=
  except_mapError_ok _ x a

theorem ofScope_ok {α : Type} (x : Except ScopeError α) (a : α) : ofScope x = .ok a ↔ x = .ok a :=
  except_mapError_ok _ x a

theorem thread_ok {σ : Type} (s : ControlState σ) (index : Nat) (t : Thread) :
    s.thread index = .ok t ↔ s.threads[index]? = some t := by
  unfold ControlState.thread
  cases s.threads[index]? with
  | none => exact iff_of_false nofun nofun
  | some u =>
      constructor
      · intro h
        cases h
        rfl
      · intro h
        cases h
        rfl

/-- The same thread at another time. -/
structure Thread.Same (t u : Thread) : Prop where
  id : u.id = t.id
  actor : u.actor = t.actor
  script : u.script = t.script

theorem same_refl (t : Thread) : t.Same t := ⟨rfl, rfl, rfl⟩

theorem same_symm (t u : Thread) (h : t.Same u) : u.Same t :=
  ⟨h.id.symm, h.actor.symm, h.script.symm⟩

theorem same_trans (t u v : Thread) (h : t.Same u) (h' : u.Same v) : t.Same v :=
  ⟨h'.id.trans h.id, h'.actor.trans h.actor, h'.script.trans h.script⟩

theorem map_id_of_same (ts us : List Thread) (h : List.Forall₂ Thread.Same ts us) :
    us.map Thread.id = ts.map Thread.id := by
  induction h with
  | nil => rfl
  | cons hr _ ih => rw [List.map_cons, List.map_cons, hr.id, ih]

namespace App

section LookUp

variable (a b : App) (h : a.Extends b)

include h

theorem actorNamed_of_extends (name : ActorName) : b.actorNamed name = a.actorNamed name := by
  unfold actorNamed actor
  rw [h.actors]

theorem scriptOf_of_extends (t : Thread) (s : Script) (hs : a.scriptOf t = .ok s) :
    b.scriptOf t = .ok s := by
  unfold scriptOf at hs ⊢
  rw [ofModel_ok] at hs ⊢
  exact script_of_extends a b h t.actor t.script s hs

theorem hasLeaving_of_extends (hdrawn : a.RelationsDrawn) (t : Thread) (more : Bool)
    (ht : a.hasLeaving t = .ok more) : b.hasLeaving t = .ok more := by
  unfold hasLeaving relationOf at ht ⊢
  rcases (except_bind_ok _ _ _).mp ht with ⟨r, hr, hmore⟩
  rw [ofModel_ok] at hr
  refine (except_bind_ok _ _ _).mpr ⟨r, ?_, hmore⟩
  rw [ofModel_ok]
  exact relation_of_extends a b h hdrawn t.place.relation r hr

theorem entryPlace_of_extends (hdrawn : a.RelationsDrawn) (t : Thread) (p : Place)
    (ht : a.entryPlace t = .ok p) : b.entryPlace t = .ok p := by
  unfold entryPlace relationOf at ht ⊢
  rcases (except_bind_ok _ _ _).mp ht with ⟨script, hscript, ht⟩
  rcases (except_bind_ok _ _ _).mp ht with ⟨r, hr, ht⟩
  rw [ofModel_ok] at hr
  refine (except_bind_ok _ _ _).mpr ⟨script, scriptOf_of_extends a b h t script hscript, ?_⟩
  refine (except_bind_ok _ _ _).mpr ⟨r, ?_, ht⟩
  rw [ofModel_ok]
  exact relation_of_extends a b h hdrawn script.relation r hr

end LookUp

theorem scriptOf_of_same (app : App) (t u : Thread) (h : t.Same u) :
    app.scriptOf u = app.scriptOf t := by
  unfold scriptOf
  rw [h.actor, h.script]

theorem entryPlace_of_same (app : App) (t u : Thread) (h : t.Same u) :
    app.entryPlace u = app.entryPlace t := by
  unfold entryPlace
  rw [scriptOf_of_same app t u h, h.actor]

/-- What leaves a place does not depend on the rest of the thread. -/
theorem hasLeaving_of_place (app : App) (t u : Thread) (h : u.place = t.place) :
    app.hasLeaving u = app.hasLeaving t := by
  unfold hasLeaving
  rw [h]

/-- Every statement of the program starts the thread again. -/
def IsMonitor (app : App) (t : Thread) : Prop :=
  ∃ script, app.scriptOf t = .ok script ∧ script.event = .afterStatement

/-- Statements do not start the thread again. -/
def NoMonitor (app : App) (t : Thread) : Prop :=
  ∃ script, app.scriptOf t = .ok script ∧ script.event ≠ .afterStatement

theorem not_isMonitor_of_noMonitor (app : App) (t : Thread) (h : app.NoMonitor t) :
    ¬ app.IsMonitor t := by
  rcases h with ⟨script, hscript, hevent⟩
  rintro ⟨script', hscript', hevent'⟩
  rw [hscript] at hscript'
  cases hscript'
  exact hevent hevent'

theorem noMonitor_of_same (app : App) (t u : Thread) (h : t.Same u) (ht : app.NoMonitor t) :
    app.NoMonitor u := by
  rcases ht with ⟨script, hscript, hevent⟩
  refine ⟨script, ?_, hevent⟩
  rw [scriptOf_of_same app t u h]
  exact hscript

theorem isMonitor_of_same (app : App) (t u : Thread) (h : t.Same u) (ht : app.IsMonitor t) :
    app.IsMonitor u := by
  rcases ht with ⟨script, hscript, hevent⟩
  refine ⟨script, ?_, hevent⟩
  rw [scriptOf_of_same app t u h]
  exact hscript

/-- A thread in `Wait` waits for somebody. One that waits for somebody is in
    `Wait`, unless its wait was the last thing it had to do. -/
structure Orderly (app : App) (t : Thread) : Prop where
  waiting : t.status = .wait → t.waitingFor ≠ ∅
  idle : t.waitingFor ≠ ∅ → t.status = .wait ∨ (t.status = .done ∧ app.hasLeaving t = .ok false)

/-- A thread after a change that makes it wait for less. -/
structure Later (app : App) (t u : Thread) : Prop extends t.Same u where
  fewer : ∀ id, id ∈ u.waitingFor → id ∈ t.waitingFor
  waiting : u.status = .wait → t.status = .wait
  orderly : app.Orderly u

/-- The waiting sets lead to threads that are there. -/
structure Linked (app : App) (threads conditions : List Thread) : Prop where
  nodup : ((threads ++ conditions).map Thread.id).Nodup
  drawn : ∀ t ∈ threads ++ conditions, t.id < app.supply.next
  awaited : ∀ t ∈ threads, ∀ id : Nat, id ∈ t.waitingFor → id < app.supply.next
  orderly : ∀ t ∈ threads, app.Orderly t
  reference : ∀ t ∈ threads, t.status = .wait → ∀ id, id ∈ t.waitingFor →
    (∃ u ∈ threads, u.id = id ∧ app.NoMonitor u) ∨ ∃ q ∈ conditions, q.id = id
  /-- Nobody else waits for the condition thread of a thread. -/
  single : ∀ q ∈ conditions, ∀ (i j : Nat) (t u : Thread), threads[i]? = some t →
    threads[j]? = some u → q.id ∈ t.waitingFor → q.id ∈ u.waitingFor → i = j

section Apart

variable (app : App) (ts cs : List Thread) (hl : app.Linked ts cs)

include hl

theorem nodup_threads : (ts.map Thread.id).Nodup := by
  have hnodup := hl.nodup
  rw [List.map_append] at hnodup
  exact (List.nodup_append.mp hnodup).1

theorem nodup_conditions : (cs.map Thread.id).Nodup := by
  have hnodup := hl.nodup
  rw [List.map_append] at hnodup
  exact (List.nodup_append.mp hnodup).2.1

/-- What is awaited is either a thread or a condition thread, and never both. -/
theorem apart_of_linked (t : Thread) (ht : t ∈ ts) (q : Thread) (hq : q ∈ cs) : t.id ≠ q.id := by
  have hnodup := hl.nodup
  rw [List.map_append] at hnodup
  exact (List.nodup_append.mp hnodup).2.2 t.id (List.mem_map_of_mem ht) q.id
    (List.mem_map_of_mem hq)

end Apart

section Threads

variable (app : App)

/-- A thread that neither waits nor is done waits for nobody. -/
theorem waitingFor_of_orderly (t : Thread) (h : app.Orderly t) (hwait : t.status ≠ .wait)
    (hdone : t.status ≠ .done) : t.waitingFor = ∅ := by
  -- Whoever waits for somebody waits, or is done.
  by_contra hne
  rcases h.idle hne with hstatus | ⟨hstatus, _⟩
  · exact hwait hstatus
  · exact hdone hstatus

/-- A thread that waits for nobody and is not in `Wait`. -/
theorem orderly_of_free (t : Thread) (hfree : t.waitingFor = ∅) (hstatus : t.status ≠ .wait) :
    app.Orderly t :=
  ⟨fun h => absurd h hstatus, fun h => absurd hfree h⟩

theorem later_refl (t : Thread) (h : app.Orderly t) : app.Later t t :=
  ⟨same_refl t, fun _ h => h, fun h => h, h⟩

theorem later_trans (t u v : Thread) (h : app.Later t u) (h' : app.Later u v) : app.Later t v :=
  ⟨same_trans t u v h.toSame h'.toSame, fun id hid => h.fewer id (h'.fewer id hid),
    fun hid => h.waiting (h'.waiting hid), h'.orderly⟩

/-- A change to a thread that leaves it waiting for nobody. -/
theorem later_of_free (t u : Thread) (hsame : t.Same u) (hfree : u.waitingFor = ∅)
    (hstatus : u.status ≠ .wait) : app.Later t u := by
  refine ⟨hsame, ?_, fun h => absurd h hstatus, orderly_of_free app u hfree hstatus⟩
  intro id hmem
  rw [hfree] at hmem
  exact absurd hmem Std.ExtTreeSet.not_mem_empty

/-- A thread that starts again waits for nobody. -/
theorem later_of_atStart (t : Thread) (entry : Place) : app.Later t (t.atStart entry) :=
  later_of_free app t _ ⟨rfl, rfl, rfl⟩ rfl nofun

end Threads

section Links

variable (app : App) (ts cs : List Thread)

/-- Links survive additions to the program. -/
theorem linked_of_extends (b : App) (h : app.Extends b) (hdrawn : app.RelationsDrawn)
    (hl : app.Linked ts cs) : b.Linked ts cs := by
  -- Numbers that were drawn stay drawn. Scripts and relations that were found are found again.
  refine ⟨hl.nodup, ?_, ?_, ?_, ?_, hl.single⟩
  · intro t ht
    exact Nat.lt_of_lt_of_le (hl.drawn t ht) h.supply
  · intro t ht id hid
    exact Nat.lt_of_lt_of_le (hl.awaited t ht id hid) h.supply
  · intro t ht
    have horderly := hl.orderly t ht
    refine ⟨horderly.waiting, fun hne => (horderly.idle hne).imp_right ?_⟩
    rintro ⟨hdone, hstay⟩
    exact ⟨hdone, hasLeaving_of_extends app b h hdrawn t false hstay⟩
  · intro t ht hwait id hid
    refine (hl.reference t ht hwait id hid).imp_left ?_
    rintro ⟨u, hu, huid, script, hscript, hevent⟩
    exact ⟨u, hu, huid, script, scriptOf_of_extends app b h u script hscript, hevent⟩

/-- Links survive changes that make threads wait for less. -/
theorem linked_of_later (us : List Thread) (hl : app.Linked ts cs)
    (h : List.Forall₂ app.Later ts us) : app.Linked us cs := by
  have hids := map_id_of_same ts us (h.imp fun _ _ hlater => hlater.toSame)
  refine ⟨?_, ?_, ?_, ?_, ?_, ?_⟩
  · rw [List.map_append, hids, ← List.map_append]
    exact hl.nodup
  · intro u hu
    rcases List.mem_append.mp hu with hu | hu
    · rcases mem_of_forall₂_right _ ts us h u hu with ⟨t, ht, hlater⟩
      rw [hlater.id]
      exact hl.drawn t (List.mem_append_left _ ht)
    · exact hl.drawn u (List.mem_append_right _ hu)
  · intro u hu id hid
    rcases mem_of_forall₂_right _ ts us h u hu with ⟨t, ht, hlater⟩
    exact hl.awaited t ht id (hlater.fewer id hid)
  · intro u hu
    rcases mem_of_forall₂_right _ ts us h u hu with ⟨t, _, hlater⟩
    exact hlater.orderly
  -- What is awaited now was awaited before, and it is still there under its number.
  · intro u hu hwait id hid
    rcases mem_of_forall₂_right _ ts us h u hu with ⟨t, ht, hlater⟩
    refine (hl.reference t ht (hlater.waiting hwait) id (hlater.fewer id hid)).imp_left ?_
    rintro ⟨v, hv, hvid, hscript⟩
    rcases mem_of_forall₂_left _ ts us h v hv with ⟨w, hw, hlater'⟩
    exact ⟨w, hw, hlater'.id.trans hvid, noMonitor_of_same app v w hlater'.toSame hscript⟩
  · intro q hq i j u v hu hv hqu hqv
    rcases getElem?_of_forall₂_right _ ts us h i u hu with ⟨t, ht, hlater⟩
    rcases getElem?_of_forall₂_right _ ts us h j v hv with ⟨t', ht', hlater'⟩
    exact hl.single q hq i j t t' ht ht' (hlater.fewer _ hqu) (hlater'.fewer _ hqv)

/-- One thread changes and waits for less. -/
theorem linked_of_set (hl : app.Linked ts cs) (i : Nat) (t u : Thread) (ht : ts[i]? = some t)
    (h : app.Later t u) : app.Linked (ts.set i u) cs :=
  linked_of_later app ts cs _ hl
    (forall₂_set app.Later ts (fun v hv => later_refl app v (hl.orderly v hv)) i t u ht h)

/-- Once the thread that waits for a condition thread does not any more, nobody does. -/
theorem unawaited_of_set (hl : app.Linked ts cs) (q : Thread) (hq : q ∈ cs) (i : Nat) (t u : Thread)
    (ht : ts[i]? = some t) (hwaits : q.id ∈ t.waitingFor) (hgone : q.id ∉ u.waitingFor) :
    ∀ v ∈ ts.set i u, q.id ∉ v.waitingFor := by
  intro v hv hqv
  -- Another thread that waits for it would have waited for it before, next to this one.
  rcases List.getElem?_of_mem hv with ⟨j, hj⟩
  by_cases hij : i = j
  · subst hij
    rw [List.getElem?_set_self (List.getElem?_eq_some_iff.mp ht).1] at hj
    cases hj
    exact hgone hqv
  · rw [List.getElem?_set_ne hij] at hj
    exact hij (hl.single q hq i j t v ht hj hwaits hqv)

/-- A condition thread with a new number. -/
theorem linked_of_newCondition (hl : app.Linked ts cs) (b : App) (h : app.Extends b)
    (hdrawn : app.RelationsDrawn) (q : Thread) (hlo : app.supply.next ≤ q.id)
    (hhi : q.id < b.supply.next) :
    b.Linked ts (cs ++ [q]) ∧ ∀ t ∈ ts, q.id ∉ t.waitingFor := by
  -- Numbers in waiting sets are old, and this one is new.
  have hnew : ∀ t ∈ ts, q.id ∉ t.waitingFor := fun t ht hid =>
    absurd (hl.awaited t ht q.id hid) (Nat.not_lt.mpr hlo)
  have hb := linked_of_extends app ts cs b h hdrawn hl
  refine ⟨⟨?_, ?_, hb.awaited, hb.orderly, ?_, ?_⟩, hnew⟩
  · rw [← List.append_assoc, List.map_append, List.map_singleton]
    refine List.nodup_append.mpr ⟨hl.nodup, List.nodup_singleton _, ?_⟩
    intro id hid id' hid' heq
    -- All numbers so far are below the supply.
    rcases List.mem_map.mp hid with ⟨t, ht, rfl⟩
    rw [List.mem_singleton.mp hid'] at heq
    exact absurd (hl.drawn t ht) (Nat.not_lt.mpr (heq ▸ hlo))
  · intro t ht
    rw [← List.append_assoc] at ht
    rcases List.mem_append.mp ht with ht | ht
    · exact hb.drawn t ht
    · rw [List.mem_singleton.mp ht]
      exact hhi
  · intro t ht hwait id hid
    refine (hb.reference t ht hwait id hid).imp_right ?_
    rintro ⟨q', hq', hid'⟩
    exact ⟨q', List.mem_append_left _ hq', hid'⟩
  · intro q' hq' i j t u ht hu hqt hqu
    rcases List.mem_append.mp hq' with hq' | hq'
    · exact hb.single q' hq' i j t u ht hu hqt hqu
    · rw [List.mem_singleton.mp hq'] at hqt
      exact absurd hqt (hnew t (List.mem_of_getElem? ht))

/-- The same condition threads at another time. -/
theorem linked_of_sameConditions (hl : app.Linked ts cs) (ds : List Thread)
    (h : List.Forall₂ Thread.Same cs ds) : app.Linked ts ds := by
  have hids := map_id_of_same cs ds h
  refine ⟨?_, ?_, hl.awaited, hl.orderly, ?_, ?_⟩
  · rw [List.map_append, hids, ← List.map_append]
    exact hl.nodup
  · intro t ht
    rcases List.mem_append.mp ht with ht | ht
    · exact hl.drawn t (List.mem_append_left _ ht)
    · rcases mem_of_forall₂_right _ cs ds h t ht with ⟨q, hq, hsame⟩
      rw [hsame.id]
      exact hl.drawn q (List.mem_append_right _ hq)
  · intro t ht hwait id hid
    refine (hl.reference t ht hwait id hid).imp_right ?_
    rintro ⟨q, hq, hqid⟩
    -- The condition thread has changed, but not its number.
    rcases mem_of_forall₂_left _ cs ds h q hq with ⟨r, hr, hsame⟩
    exact ⟨r, hr, hsame.id.trans hqid⟩
  · intro r hr i j t u ht hu hrt hru
    rcases mem_of_forall₂_right _ cs ds h r hr with ⟨q, hq, hsame⟩
    rw [hsame.id] at hrt hru
    exact hl.single q hq i j t u ht hu hrt hru

/-- Condition threads are dropped, but none that a waiting thread waits for. -/
theorem linked_of_dropped (hl : app.Linked ts cs) (ds : List Thread) (hsub : ds.Sublist cs)
    (hkept : ∀ t ∈ ts, t.status = .wait → ∀ q ∈ cs, q.id ∈ t.waitingFor → q ∈ ds) :
    app.Linked ts ds := by
  -- With fewer condition threads there is less to be told apart. That references still lead
  -- somewhere is what the premise is for.
  refine ⟨?_, ?_, hl.awaited, hl.orderly, ?_, fun q hq => hl.single q (hsub.subset hq)⟩
  · exact hl.nodup.sublist ((List.Sublist.append_left hsub ts).map Thread.id)
  · intro t ht
    rcases List.mem_append.mp ht with ht | ht
    · exact hl.drawn t (List.mem_append_left _ ht)
    · exact hl.drawn t (List.mem_append_right _ (hsub.subset ht))
  · intro t ht hwait id hid
    refine (hl.reference t ht hwait id hid).imp_right ?_
    rintro ⟨q, hq, rfl⟩
    exact ⟨q, hkept t ht hwait q hq hid, rfl⟩

/-- A thread changes. If it waits for a number then, nobody else does. -/
theorem single_of_set (i : Nat) (t u : Thread) (ht : ts[i]? = some t) (id : ThreadId)
    (hsingle : ∀ (j k : Nat) (v w : Thread), ts[j]? = some v → ts[k]? = some w →
      id ∈ v.waitingFor → id ∈ w.waitingFor → j = k)
    (hnew : id ∈ u.waitingFor → ∀ v ∈ ts, id ∉ v.waitingFor) (j k : Nat) (v w : Thread)
    (hv : (ts.set i u)[j]? = some v) (hw : (ts.set i u)[k]? = some w) (hidv : id ∈ v.waitingFor)
    (hidw : id ∈ w.waitingFor) : j = k := by
  by_cases hji : i = j
  · by_cases hki : i = k
    · rw [← hji, hki]
    · subst hji
      rw [List.getElem?_set_self (List.getElem?_eq_some_iff.mp ht).1] at hv
      rw [List.getElem?_set_ne hki] at hw
      cases hv
      exact absurd hidw (hnew hidv w (List.mem_of_getElem? hw))
  · by_cases hki : i = k
    · subst hki
      rw [List.getElem?_set_self (List.getElem?_eq_some_iff.mp ht).1] at hw
      rw [List.getElem?_set_ne hji] at hv
      cases hw
      exact absurd hidv (hnew hidw v (List.mem_of_getElem? hv))
    · rw [List.getElem?_set_ne hji] at hv
      rw [List.getElem?_set_ne hki] at hw
      exact hsingle j k v w hv hw hidv hidw

/-- A thread begins to wait, for threads that no statement restarts or for a
    condition thread that nobody waits for yet. -/
theorem linked_of_beginWait (hl : app.Linked ts cs) (i : Nat) (t u : Thread) (ht : ts[i]? = some t)
    (hsame : t.Same u) (hwait : u.status = .wait) (hne : u.waitingFor ≠ ∅)
    (href : ∀ id, id ∈ u.waitingFor → (∃ v ∈ ts, v.id = id ∧ app.NoMonitor v)
      ∨ ∃ q ∈ cs, q.id = id ∧ ∀ v ∈ ts, id ∉ v.waitingFor) :
    app.Linked (ts.set i u) cs := by
  have hall : List.Forall₂ Thread.Same ts (ts.set i u) :=
    forall₂_set Thread.Same ts (fun v _ => same_refl v) i t u ht hsame
  have hids := map_id_of_same ts _ hall
  refine ⟨?_, ?_, ?_, ?_, ?_, ?_⟩
  · rw [List.map_append, hids, ← List.map_append]
    exact hl.nodup
  · intro v hv
    rcases List.mem_append.mp hv with hv | hv
    · rcases mem_of_forall₂_right _ ts _ hall v hv with ⟨w, hw, hvw⟩
      rw [hvw.id]
      exact hl.drawn w (List.mem_append_left _ hw)
    · exact hl.drawn v (List.mem_append_right _ hv)
  · intro v hv id hid
    rcases List.mem_or_eq_of_mem_set hv with hv | rfl
    · exact hl.awaited v hv id hid
    · rcases href id hid with ⟨w, hw, rfl, _⟩ | ⟨q, hq, rfl, _⟩
      · exact hl.drawn w (List.mem_append_left _ hw)
      · exact hl.drawn q (List.mem_append_right _ hq)
  · intro v hv
    rcases List.mem_or_eq_of_mem_set hv with hv | rfl
    · exact hl.orderly v hv
    · exact ⟨fun _ => hne, fun _ => Or.inl hwait⟩
  · intro v hv hvwait id hid
    -- The new waiter brings what it waits for along; the others keep theirs.
    have hold : (∃ w ∈ ts, w.id = id ∧ app.NoMonitor w) ∨ ∃ q ∈ cs, q.id = id := by
      rcases List.mem_or_eq_of_mem_set hv with hv | rfl
      · exact hl.reference v hv hvwait id hid
      · exact (href id hid).imp_right (fun ⟨q, hq, hqid, _⟩ => ⟨q, hq, hqid⟩)
    refine hold.imp_left ?_
    rintro ⟨w, hw, hwid, hmonitor⟩
    rcases mem_of_forall₂_left _ ts _ hall w hw with ⟨w', hw', hsame'⟩
    exact ⟨w', hw', hsame'.id.trans hwid, noMonitor_of_same app w w' hsame' hmonitor⟩
  -- A condition thread that the new waiter waits for is nobody else's.
  · intro q hq
    refine single_of_set ts i t u ht q.id (hl.single q hq) fun hqu => ?_
    rcases href q.id hqu with ⟨x, hx, hxid, _⟩ | ⟨_, _, _, hfree⟩
    · exact absurd hxid (apart_of_linked app ts cs hl x hx q hq)
    · exact hfree

end Links

end App

end ActorCheck

import ActorCheck.Proofs.Control.Effects

/-!
# Statements Keep the Links

The statement on an edge is interpreted after the running thread has moved along
it. Whatever it does, the waiting sets still lead to threads that are there.

Two statements set up a wait. A broadcast whose sender waits makes it wait for
the receivers, which have just been started and so are no monitors. A timed wait
adds a condition thread and waits for that. Every other statement leaves the
waiting sets alone or, by starting a thread again, empties them.

## Main definitions

* `App.Coherent`: The links of a state, with no condition decided yet.

## Theorems

* `App.later_of_broadcast`: A broadcast and its receivers.
* `Scheduler.coherent_of_effect`: Every effect of a statement keeps the links.
* `Scheduler.coherent_of_gives_follow`: Taking an edge keeps the links.
-/

namespace ActorCheck

namespace App

variable {σ : Type} (app : App)

/-- The waiting sets of a state lead to threads that are there, and no condition
    is decided yet. -/
structure Coherent (app : App) (s : ControlState σ) : Prop where
  linked : app.Linked s.threads s.conditions
  checking : ∀ q ∈ s.conditions, q.status ≠ .done

theorem coherent_of_extends (b : App) (h : app.Extends b) (hdrawn : app.RelationsDrawn)
    (s : ControlState σ) (hs : app.Coherent s) : b.Coherent s :=
  ⟨linked_of_extends app s.threads s.conditions b h hdrawn hs.linked, hs.checking⟩

theorem coherent_of_later (s : ControlState σ) (us : List Thread) (hs : app.Coherent s)
    (h : List.Forall₂ app.Later s.threads us) : app.Coherent { s with threads := us } :=
  ⟨linked_of_later app s.threads s.conditions us hs.linked h, hs.checking⟩

theorem coherent_of_setThread (s : ControlState σ) (hs : app.Coherent s) (index : Nat)
    (t u : Thread) (ht : s.threads[index]? = some t) (h : app.Later t u) :
    app.Coherent (s.setThread index u) :=
  ⟨linked_of_set app s.threads s.conditions hs.linked index t u ht h, hs.checking⟩

/-- What a running thread does to itself without waiting. -/
theorem later_of_running (t u : Thread) (h : app.Orderly t) (hrun : t.status = .running)
    (hsame : t.Same u) (hfree : u.waitingFor = t.waitingFor) (hstatus : u.status ≠ .wait) :
    app.Later t u := by
  have hnone : t.waitingFor = ∅ :=
    waitingFor_of_orderly app t h (by rw [hrun]; exact nofun) (by rw [hrun]; exact nofun)
  exact later_of_free app t u hsame (hfree.trans hnone) hstatus

theorem later_of_heard (m : Message) (t u : Thread) (ht : app.Orderly t) (h : app.Heard m t u) :
    app.Later t u := by
  cases h with
  | kept => exact later_refl app t ht
  -- A disabled thread waits for nobody, and an enabled monitor is done until it is started.
  | enabled _ asleep =>
      have hfree : t.waitingFor = ∅ :=
        waitingFor_of_orderly app t ht (by rw [asleep]; exact nofun) (by rw [asleep]; exact nofun)
      exact later_of_free app t _ ⟨rfl, rfl, rfl⟩ hfree nofun
  | restarted _ _ entry => exact later_of_atStart app t entry

/-- A broadcast starts its receivers again, none of which is a monitor. -/
theorem later_of_broadcast (m : Message) (ts us : List Thread) (receivers : Std.ExtTreeSet ThreadId)
    (horderly : ∀ t ∈ ts, app.Orderly t) (h : app.broadcast m ts = .ok (us, receivers)) :
    List.Forall₂ app.Later ts us
      ∧ ∀ id, id ∈ receivers → ∃ u ∈ us, u.id = id ∧ app.NoMonitor u := by
  rcases heard_of_broadcast app m ts us receivers h with ⟨hheard, hreceivers⟩
  refine ⟨forall₂_of_mem _ app.Later ts us hheard fun t ht u hu =>
    later_of_heard app m t u (horderly t ht) hu, fun id hid => ?_⟩
  rcases hreceivers id hid with ⟨u, hu, huid, hmonitor, _⟩
  exact ⟨u, hu, huid, hmonitor⟩

end App

namespace Scheduler

variable {σ : Type}

/-- What a running thread does to itself without waiting keeps the links. -/
theorem coherent_of_running (app : App) (s : ControlState σ) (index : Nat) (t u : Thread)
    (hs : app.Coherent s) (ht : s.threads[index]? = some t) (hrun : t.status = .running)
    (hsame : t.Same u) (hfree : u.waitingFor = t.waitingFor) (hstatus : u.status ≠ .wait) :
    app.Coherent (s.setThread index u) :=
  app.coherent_of_setThread s hs index t u ht
    (app.later_of_running t u (hs.linked.orderly t (List.mem_of_getElem? ht)) hrun hsame hfree
      hstatus)

/-- Every effect of a statement keeps the links. -/
theorem coherent_of_effect (before after : App) (s s' : ControlState σ) (index : Nat) (t : Thread)
    (statement : Statement) (hext : before.Extends after) (hdrawn : before.RelationsDrawn)
    (hs : before.Coherent s) (ht : s.threads[index]? = some t) (hrun : t.status = .running)
    (h : Effect before after s index t statement s') : after.Coherent s' := by
  have hlinked := hs.linked
  -- Everything is first seen from the program before the statement.
  have hgrown : before.Coherent s' → after.Coherent s' :=
    before.coherent_of_extends after hext hdrawn s'
  -- Most statements only change the thread that runs.
  have hself := fun u => coherent_of_running before s index t u hs ht hrun
  have hstill : t.status ≠ .wait := by rw [hrun]; exact nofun
  have hsent := fun m threads receivers hbroadcast =>
    before.later_of_broadcast m s.threads threads receivers hlinked.orderly hbroadcast
  cases h with
  | unchanged => exact hgrown hs
  | signalled properties =>
      have hfail := hself { t with status := .failure, failedFor := t.failedFor ∪ properties }
        ⟨rfl, rfl, rfl⟩ rfl nofun
      exact hgrown ⟨hfail.linked, hfail.checking⟩
  | opened => exact hgrown (hself _ ⟨rfl, rfl, rfl⟩ rfl hstill)
  | closed => exact hgrown (hself _ ⟨rfl, rfl, rfl⟩ rfl hstill)
  | entered _ _ _ u hsame hfree hstatus => exact hgrown (hself u hsame hfree (hstatus ▸ hstill))
  | returned _ u hsame hfree hstatus => exact hgrown (hself u hsame hfree (hstatus ▸ hstill))
  | sent m threads receivers hbroadcast =>
      exact hgrown (before.coherent_of_later s threads hs (hsent m threads receivers hbroadcast).1)
  | unheard m threads hbroadcast =>
      exact hgrown (before.coherent_of_later s threads hs (hsent m threads ∅ hbroadcast).1)
  -- The sender waits for the receivers, which were started again and are no monitors.
  | asked m threads receivers sender hbroadcast _ hheard hknown =>
      rcases hsent m threads receivers hbroadcast with ⟨hlater, hreceivers⟩
      exact hgrown ⟨before.linked_of_beginWait threads s.conditions
        (before.coherent_of_later s threads hs hlater).linked index sender _ hknown ⟨rfl, rfl, rfl⟩
        rfl hheard (fun id hid => Or.inl (hreceivers id hid)), hs.checking⟩
  | paused args result checker ops hnew hbelow hready =>
      rcases before.linked_of_newCondition s.threads s.conditions hlinked after hext hdrawn checker
        hnew hbelow with ⟨hadded, hfresh⟩
      -- The running thread waited for nobody, so the new condition is all that it waits for.
      have hnone : t.waitingFor = ∅ :=
        before.waitingFor_of_orderly t (hlinked.orderly t (List.mem_of_getElem? ht)) hstill
          (by rw [hrun]; exact nofun)
      refine ⟨after.linked_of_beginWait s.threads _ hadded index t _ ht ⟨rfl, rfl, rfl⟩ rfl ?_ ?_,
        ?_⟩
      · intro hempty
        exact (awaited_eq_empty _).mp hempty checker.id Std.ExtTreeSet.mem_insert_self
      · intro id hid
        refine Or.inr ⟨checker, List.mem_append_right _ (List.mem_singleton_self _), ?_⟩
        rcases Std.ExtTreeSet.mem_insert.mp hid with heq | hold
        · have hid' : checker.id = id := Std.LawfulEqCmp.eq_of_compare heq
          rw [← hid']
          exact ⟨rfl, hfresh⟩
        · rw [hnone] at hold
          exact absurd hold Std.ExtTreeSet.not_mem_empty
      · intro q hq
        rcases List.mem_append.mp hq with hq | hq
        · exact hs.checking q hq
        · rw [List.mem_singleton.mp hq, hready]
          exact nofun
  | resolved => exact hgrown ⟨hs.linked, hs.checking⟩

/-- Taking an edge keeps the links. -/
theorem coherent_of_gives_follow (s : ControlState σ) (index : Nat) (op : Operation)
    (target : Place) (t : Thread) (k k' : Scheduler) (outcomes : List (ControlState.Outcome σ))
    (hdrawn : k.app.RelationsDrawn) (hs : k.app.Coherent s) (ht : s.threads[index]? = some t)
    (hrun : t.status = .running) (h : Gives (follow s index op target) k outcomes k')
    (o : ControlState.Outcome σ) (ho : o ∈ outcomes) : k'.app.Coherent o.1 := by
  rcases effect_of_gives_follow s index op target t k k' outcomes ht h with ⟨loops, heffect⟩
  -- Taking the edge moves the thread before the statement is interpreted.
  have hmoved := coherent_of_running k.app s index t { t with loops := loops, place := target } hs
    ht hrun ⟨rfl, rfl, rfl⟩ rfl (by rw [hrun]; exact nofun)
  exact coherent_of_effect k.app k'.app _ o.1 index _ op.statement
    (extends_of_gives _ (grows_follow s index op target) k k' outcomes h) hdrawn hmoved
    (List.getElem?_set_self (List.getElem?_eq_some_iff.mp ht).1) hrun (heffect o ho)

end Scheduler

end ActorCheck

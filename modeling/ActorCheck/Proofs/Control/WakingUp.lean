import ActorCheck.Proofs.Control.Changes

/-!
# Waking Up Keeps the Links

What happens to the threads after a statement was interpreted, up to the
evaluation of conditions: those at the end of their relations are done, a step
of the program starts the monitors again, and whoever waits only for threads
that are done goes on.

The order matters. A thread that goes on must not turn out to be done at the
same moment, since those who wait for it have been looked at already. It does
not, because a thread that waits has somewhere to go once the threads at the end
of their relations were found. Starting the monitors may leave threads that have
nowhere to go, but those are monitors, for which nobody waits.

## Main definitions

* `App.Going`: A thread has somewhere to go, unless it stopped or was just
  started as a monitor.
* `App.Live`: Nobody waits for a thread that is done.
* `App.Released`: The threads when only conditions are left to be looked at.

## Theorems

* `App.going_of_finishThreads`: The threads at the end of their relations.
* `App.going_of_startMonitors`: The monitors.
* `App.released_of_phases`: The three phases together.
-/

namespace ActorCheck

namespace App

/-- A thread has somewhere to go, unless it stopped. A monitor that was just
    started may have nowhere to go. -/
def Going (app : App) (t : Thread) : Prop :=
  t.status = .failure ∨ t.status = .done ∨ app.hasLeaving t = .ok true
    ∨ (t.status = .yield ∧ app.IsMonitor t ∧ app.entryPlace t = .ok t.place)

/-- Nobody waits for a thread that is done. -/
def Live (threads : List Thread) : Prop :=
  ∀ t ∈ threads, t.status = .wait → ∀ id, id ∈ t.waitingFor → ∀ u ∈ threads, u.id = id →
    u.status ≠ .done

/-- A waiting thread waits for less and is not done. -/
theorem live_of_set (ts : List Thread) (h : Live ts) (i : Nat) (t u : Thread)
    (ht : ts[i]? = some t) (hwait : t.status = .wait)
    (hfewer : ∀ id, id ∈ u.waitingFor → id ∈ t.waitingFor) (hdone : u.status ≠ .done) :
    Live (ts.set i u) := by
  intro v hv hvwait id hvid w hw hwid
  -- Whoever waits for a number now has waited for it before, be it the replaced thread or another
  -- one.
  have hold : ∃ v' ∈ ts, v'.status = .wait ∧ id ∈ v'.waitingFor := by
    rcases List.mem_or_eq_of_mem_set hv with hv | rfl
    · exact ⟨v, hv, hvwait, hvid⟩
    · exact ⟨t, List.mem_of_getElem? ht, hwait, hfewer id hvid⟩
  rcases hold with ⟨v', hv', hv'wait, hv'id⟩
  rcases List.mem_or_eq_of_mem_set hw with hw | rfl
  · exact h v' hv' hv'wait id hv'id w hw hwid
  · exact hdone

/-- The threads when only conditions are left to be looked at. -/
structure Released (app : App) (threads conditions : List Thread) : Prop where
  linked : app.Linked threads conditions
  going : ∀ t ∈ threads, app.Going t
  live : Live threads

variable (app : App)

/-- A thread that waits has somewhere to go. -/
theorem leaves_of_waiting (t : Thread) (h : app.Going t) (hwait : t.status = .wait) :
    app.hasLeaving t = .ok true := by
  -- The three other ways of going on come with another status.
  rcases h with hstatus | hstatus | hleaves | ⟨hstatus, _⟩
  · rw [hwait] at hstatus
    cases hstatus
  · rw [hwait] at hstatus
    cases hstatus
  · exact hleaves
  · rw [hwait] at hstatus
    cases hstatus

theorem going_of_extends (b : App) (h : app.Extends b) (hdrawn : app.RelationsDrawn) (t : Thread)
    (ht : app.Going t) : b.Going t := by
  rcases ht with hstatus | hstatus | hleaves | ⟨hstatus, ⟨script, hscript, hevent⟩, hplace⟩
  · exact Or.inl hstatus
  · exact Or.inr (Or.inl hstatus)
  · exact Or.inr (Or.inr (Or.inl (hasLeaving_of_extends app b h hdrawn t true hleaves)))
  · exact Or.inr (Or.inr (Or.inr ⟨hstatus, ⟨script, scriptOf_of_extends app b h t script hscript,
      hevent⟩, entryPlace_of_extends app b h hdrawn t t.place hplace⟩))

theorem released_of_extends (b : App) (h : app.Extends b) (hdrawn : app.RelationsDrawn)
    (ts cs : List Thread) (hr : app.Released ts cs) : b.Released ts cs :=
  ⟨linked_of_extends app ts cs b h hdrawn hr.linked,
    fun t ht => going_of_extends app b h hdrawn t (hr.going t ht), hr.live⟩

section Finish

theorem going_of_finished (t u : Thread) (ht : app.Orderly t) (h : app.Finished t u) :
    app.Later t u ∧ app.Going u := by
  cases h with
  | kept going => exact ⟨later_refl app t ht, going.imp_right (Or.imp_right Or.inl)⟩
  | stopped _ stays =>
      exact ⟨⟨⟨rfl, rfl, rfl⟩, fun _ hid => hid, nofun, ⟨nofun, fun _ => Or.inr ⟨rfl, stays⟩⟩⟩,
        Or.inr (Or.inl rfl)⟩

/-- Of the threads that are not done, something leaves the places. -/
theorem going_of_finishThreads (ts us : List Thread) (horderly : ∀ t ∈ ts, app.Orderly t)
    (h : app.finishThreads ts = .ok us) :
    List.Forall₂ app.Later ts us ∧ ∀ u ∈ us, app.Going u := by
  have hall := forall₂_of_mem _ (fun t u => app.Later t u ∧ app.Going u) ts us
    ((except_mapM_ok _ _ _).mp h) fun t ht u hu =>
      going_of_finished app t u (horderly t ht) (finished_of_finishThread app t u hu)
  refine ⟨hall.imp fun _ _ hu => hu.1, fun u hu => ?_⟩
  rcases mem_of_forall₂_right _ ts us hall u hu with ⟨_, _, _, hgoing⟩
  exact hgoing

end Finish

section Monitors

theorem going_of_started (concern : Concern) (t u : Thread) (ht : app.Orderly t)
    (hgoing : app.Going t) (h : app.Started concern t u) : app.Later t u ∧ app.Going u := by
  cases h with
  | kept => exact ⟨later_refl app t ht, hgoing⟩
  -- Here a thread may be at a place that nothing leaves: a monitor starts at its entry.
  | restarted _ _ monitor entry start =>
      exact ⟨later_of_atStart app t entry, Or.inr (Or.inr (Or.inr ⟨rfl,
        isMonitor_of_same app t _ ⟨rfl, rfl, rfl⟩ monitor,
        (entryPlace_of_same app t _ ⟨rfl, rfl, rfl⟩).trans start⟩))⟩

/-- The monitors that were started may have nowhere to go. -/
theorem going_of_startMonitors (concern : Concern) (ts us : List Thread)
    (horderly : ∀ t ∈ ts, app.Orderly t) (hgoing : ∀ t ∈ ts, app.Going t)
    (h : app.startMonitors concern ts = .ok us) :
    List.Forall₂ app.Later ts us ∧ ∀ u ∈ us, app.Going u := by
  have hall := forall₂_of_mem _ (fun t u => app.Later t u ∧ app.Going u) ts us
    (started_of_startMonitors app concern ts us h) fun t ht u hu =>
      going_of_started app concern t u (horderly t ht) (hgoing t ht) hu
  refine ⟨hall.imp fun _ _ hu => hu.1, fun u hu => ?_⟩
  rcases mem_of_forall₂_right _ ts us hall u hu with ⟨_, _, _, hgoing⟩
  exact hgoing

end Monitors

section Release

/-- A thread that is relieved and has somewhere to go is not done by that. -/
theorem later_of_reduced (rest : Std.ExtTreeSet ThreadId) (t u : Thread)
    (hfewer : ∀ id, id ∈ rest → id ∈ t.waitingFor) (ht : app.Orderly t) (hgoing : app.Going t)
    (h : app.Reduced rest t u) :
    app.Later t u ∧ app.Going u ∧ (u.status = .done → t.status = .done) := by
  cases h with
  | kept => exact ⟨later_refl app t ht, hgoing, id⟩
  | fewer left =>
      refine ⟨⟨⟨rfl, rfl, rfl⟩, hfewer, id, left,
        fun hsome => ht.idle fun hfree => hsome ?_⟩, hgoing,
        id⟩
      exact (awaited_eq_empty rest).mpr fun id hid =>
        (awaited_eq_empty _).mp hfree id (hfewer id hid)
  -- The wait is over, and there is somewhere to go, so the thread can run.
  | awake waits nobodyLeft _ leaves =>
      have hleaves := leaves_of_waiting app t hgoing waits
      rw [hleaves] at leaves
      cases leaves
      exact ⟨later_of_free app t _ ⟨rfl, rfl, rfl⟩ nobodyLeft nofun,
        Or.inr (Or.inr (Or.inl hleaves)), nofun⟩

theorem mem_finishedIds (ts : List Thread) (id : ThreadId) :
    id ∈ finishedIds ts ↔ ∃ t ∈ ts, t.id = id ∧ t.status = .done := by
  unfold finishedIds
  rw [Std.ExtTreeSet.mem_ofList, List.contains_iff_mem]
  constructor
  · intro h
    rcases List.mem_map.mp h with ⟨t, ht, rfl⟩
    rcases List.mem_filter.mp ht with ⟨ht, hdone⟩
    exact ⟨t, ht, rfl, by simpa using hdone⟩
  · rintro ⟨t, ht, rfl, hdone⟩
    exact List.mem_map_of_mem (List.mem_filter.mpr ⟨ht, by simpa using hdone⟩)

/-- Once the threads that are done were taken off the waiting sets, nobody waits
    for a thread that is done. -/
theorem released_of_releaseWaiting (ts us cs : List Thread) (hl : app.Linked ts cs)
    (hgoing : ∀ t ∈ ts, app.Going t) (h : app.releaseWaiting ts = .ok us) :
    app.Released us cs := by
  have hall := forall₂_of_mem _ (fun t u => (app.Later t u ∧ app.Going u
      ∧ (u.status = .done → t.status = .done))
      ∧ ∀ id, id ∈ u.waitingFor → id ∉ finishedIds ts) ts us
    ((except_mapM_ok _ _ _).mp h) fun t ht u hu => by
      have hreduced := reduced_of_releaseThread app t u (finishedIds ts) hu
      exact ⟨later_of_reduced app _ t u (fun _ hid => (Std.ExtTreeSet.mem_diff_iff.mp hid).1)
        (hl.orderly t ht) (hgoing t ht) hreduced,
        fun id hid => (Std.ExtTreeSet.mem_diff_iff.mp (mem_of_reduced app _ t u hreduced id hid)).2⟩
  refine ⟨linked_of_later app ts cs us hl (hall.imp fun _ _ hu => hu.1.1), ?_, ?_⟩
  · intro u hu
    rcases mem_of_forall₂_right _ ts us hall u hu with ⟨_, _, ⟨_, hgoing, _⟩, _⟩
    exact hgoing
  · intro u hu _ id hid v hv hvid hdone
    rcases mem_of_forall₂_right _ ts us hall u hu with ⟨_, _, _, hremoved⟩
    -- Who is done now was done before and was taken off every waiting set.
    rcases mem_of_forall₂_right _ ts us hall v hv with ⟨t, ht, ⟨hlater, _, hbefore⟩, _⟩
    refine hremoved id hid ((mem_finishedIds ts id).mpr ⟨t, ht, ?_, hbefore hdone⟩)
    rw [← hlater.id, hvid]

end Release

/-- The phases of a step before the conditions are looked at. -/
theorem released_of_phases (concern : Concern) (ts finished started us cs : List Thread)
    (hl : app.Linked ts cs) (hfinish : app.finishThreads ts = .ok finished)
    (hstart : app.startMonitors concern finished = .ok started)
    (hrelease : app.releaseWaiting started = .ok us) : app.Released us cs := by
  rcases going_of_finishThreads app ts finished hl.orderly hfinish with ⟨hlater, hgoing⟩
  have hfinished := linked_of_later app ts cs finished hl hlater
  rcases going_of_startMonitors app concern finished started hfinished.orderly hgoing hstart with
    ⟨hlater', hgoing'⟩
  exact released_of_releaseWaiting app started us cs
    (linked_of_later app finished cs started hfinished hlater') hgoing' hrelease

end App

end ActorCheck

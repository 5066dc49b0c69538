import ActorCheck.Control.Step
import ActorCheck.Proofs.Control.Conditions
import ActorCheck.Proofs.Control.Growth

/-!
# Turns Keep the Links

Choosing the next thread is the last thing in a step, and the first thing at the
start of a program. A thread that is chosen can run, so nothing about waiting
changes by that. A thread that gives its turn away may be done. If it is, it was
a monitor that has just been started at a place that nothing leaves, and nobody
waits for monitors.

At the start nobody waits at all. What has to be seen is that the threads get
numbers that are told apart.

## Main definitions

* `Scheduler.Numbered`: Threads with increasing numbers, none of which waits.

## Theorems

* `ControlState.mem_running`: The indices of the running threads.
* `App.runnable_of_nextThread`: The thread that is chosen can run.
* `App.turned_of_grantTurn`: What choosing the next thread changes.
* `App.awaiting_of_passTurn`: Passing the turn keeps every wait.
* `Scheduler.awaiting_of_gives_startState`: The start of a program.
-/

namespace ActorCheck

namespace ControlState

/-- The indices of the running threads. -/
theorem mem_running {σ : Type} (s : ControlState σ) (i : Nat) :
    i ∈ s.running ↔ ∃ t, s.threads[i]? = some t ∧ t.status = .running := by
  unfold running
  rw [List.mem_map]
  constructor
  · rintro ⟨⟨t, j⟩, hfilter, rfl⟩
    rcases List.mem_filter.mp hfilter with ⟨hentry, hrun⟩
    exact ⟨t, List.mem_zipIdx_iff_getElem?.mp hentry, beq_iff_eq.mp hrun⟩
  · rintro ⟨t, ht, hrun⟩
    refine ⟨(t, i), List.mem_filter.mpr ⟨List.mem_zipIdx_iff_getElem?.mpr ht, ?_⟩, rfl⟩
    exact beq_iff_eq.mpr hrun

theorem isRunning_of_running {σ : Type} (s : ControlState σ) (index : Nat) (t : Thread)
    (hrunning : s.running = [index]) (ht : s.threads[index]? = some t) : t.status = .running := by
  have hmem : index ∈ s.running := by rw [hrunning]; exact List.mem_singleton_self _
  rcases (s.mem_running index).mp hmem with ⟨u, hu, hrun⟩
  rw [ht] at hu
  cases hu
  exact hrun

end ControlState

namespace App

variable {σ : Type} (app : App)

theorem canRun_ok (t : Thread) :
    app.canRun t = .ok true ↔ t.status = .yield ∧ app.hasLeaving t = .ok true := by
  unfold canRun
  by_cases hyield : t.status = .yield
  · rw [if_pos hyield]
    exact ⟨fun h => ⟨hyield, h⟩, fun h => h.2⟩
  · rw [if_neg hyield]
    exact iff_of_false nofun (fun h => hyield h.1)

/-- The thread that the search finds can run, unless it is the one that the
    search began with. -/
theorem runnable_of_firstRunnable (s : ControlState σ) (order : List Nat) (first : Option Nat)
    (index : Nat) (h : app.firstRunnable s first order = .ok (some index)) :
    first = some index ∨ ∃ t, s.threads[index]? = some t ∧ t.status = .yield
      ∧ app.hasLeaving t = .ok true := by
  -- The thread in mind is replaced along the search, so it is left open.
  induction order generalizing first with
  | nil =>
      unfold firstRunnable at h
      cases h
      exact Or.inl rfl
  | cons i rest ih =>
      unfold firstRunnable at h
      split at h
      · exact ih first h
      next t ht =>
        rcases (except_bind_ok _ _ _).mp h with ⟨more, hmore, h⟩
        cases more with
        | false => exact ih first h
        -- An observer is chosen at once. Another thread is kept in mind, unless one is already.
        | true =>
            have hcan := (canRun_ok app t).mp hmore
            rcases (except_bind_ok _ _ _).mp h with ⟨actor, _, h⟩
            split at h
            · cases (except_pure_ok _ _).mp h
              exact Or.inr ⟨t, ht, hcan⟩
            · rcases ih _ h with hfirst | hfound
              · cases first with
                | none =>
                    cases hfirst
                    exact Or.inr ⟨t, ht, hcan⟩
                | some j => exact Or.inl hfirst
              · exact Or.inr hfound

/-- The thread that is chosen can run. -/
theorem runnable_of_nextThread (s : ControlState σ) (stepped index : Nat)
    (h : app.nextThread s stepped = .ok (some index)) :
    ∃ t, s.threads[index]? = some t ∧ (t.status = .running ∨ t.status = .yield)
      ∧ app.hasLeaving t = .ok true := by
  unfold nextThread at h
  rcases (except_bind_ok _ _ _).mp h with ⟨found, hfound, h⟩
  cases found with
  | some i =>
      cases (except_pure_ok _ _).mp h
      rcases runnable_of_firstRunnable app s _ none index hfound with
        hnone | ⟨t, ht, hyield, hleaves⟩
      · cases hnone
      · exact ⟨t, ht, Or.inr hyield, hleaves⟩
  | none =>
      rcases (except_bind_ok _ _ _).mp h with ⟨more, hmore, h⟩
      cases more with
      | false => cases (except_pure_ok _ _).mp h
      | true =>
          cases (except_pure_ok _ _).mp h
          -- Nobody else can run, so the thread that took the step goes on.
          unfold canGoOn at hmore
          split at hmore
          next t ht =>
            split at hmore
            next hstatus => exact ⟨t, ht, hstatus, hmore⟩
            next => cases hmore
          next => cases hmore

theorem withStatus_eq (s : ControlState σ) (index : Nat) (t : Thread) (status : ThreadStatus)
    (ht : s.threads[index]? = some t) :
    s.withStatus index status = s.setThread index { t with status := status } := by
  unfold ControlState.withStatus ControlState.setThread
  rw [List.modify_eq_set_getElem?, ht]
  rfl

/-- Choosing the next thread lets one thread run that could, or nobody. -/
theorem turned_of_grantTurn (s s' : ControlState σ) (stepped : Nat)
    (h : app.grantTurn s stepped = .ok s') :
    s' = s ∨ ∃ index t, s.threads[index]? = some t ∧ (t.status = .running ∨ t.status = .yield)
      ∧ app.hasLeaving t = .ok true ∧ s' = s.setThread index { t with status := .running } := by
  unfold grantTurn at h
  rcases (except_bind_ok _ _ _).mp h with ⟨found, hfound, h⟩
  cases found with
  | none =>
      cases (except_pure_ok _ _).mp h
      exact Or.inl rfl
  | some index =>
      cases (except_pure_ok _ _).mp h
      rcases runnable_of_nextThread app s stepped index hfound with ⟨t, ht, hstatus, hleaves⟩
      exact Or.inr ⟨index, t, ht, hstatus, hleaves, withStatus_eq s index t .running ht⟩

/-- The turn passes in two parts: the thread that took the step gives its turn
    away, unless it is in an atomic block, and the next thread is chosen. -/
theorem turned_of_passTurn (s s' : ControlState σ) (stepped : Nat)
    (h : app.passTurn s stepped = .ok s') :
    ∃ t more, s.threads[stepped]? = some t ∧ app.hasLeaving t = .ok more ∧ app.checkTurn s' = .ok ()
      ∧ ((s' = s ∧ t.isRunning = true ∧ 0 < t.atomic ∧ more = true)
        ∨ app.grantTurn (s.setThread stepped (giveTurnAway more t)) stepped = .ok s') := by
  -- In an atomic block the state is left as it is, and otherwise somebody gets the turn. Either way
  -- the check of the turn comes last.
  unfold passTurn at h
  rcases (except_bind_ok _ _ _).mp h with ⟨t, ht, h⟩
  rcases (except_bind_ok _ _ _).mp h with ⟨more, hmore, h⟩
  rw [thread_ok] at ht
  dsimp only at h
  split at h
  next hatomic =>
    rcases (except_bind_ok _ _ _).mp h with ⟨next, hnext, h⟩
    cases (except_pure_ok _ _).mp hnext
    rcases (except_bind_ok _ _ _).mp h with ⟨⟨⟩, hcheck, h⟩
    cases (except_pure_ok _ _).mp h
    rw [Bool.and_eq_true, Bool.and_eq_true, decide_eq_true_eq] at hatomic
    exact ⟨t, more, ht, hmore, hcheck, Or.inl ⟨rfl, hatomic.1.1, hatomic.1.2, hatomic.2⟩⟩
  next =>
    rcases (except_bind_ok _ _ _).mp h with ⟨next, hnext, h⟩
    rcases (except_bind_ok _ _ _).mp h with ⟨⟨⟩, hcheck, h⟩
    cases (except_pure_ok _ _).mp h
    exact ⟨t, more, ht, hmore, hcheck, Or.inr hnext⟩

/-- Waits survive a change to one thread that does not wait and is done at most if
    it is a monitor. -/
theorem awaiting_of_setThread (s : ControlState σ) (hs : app.Awaiting s) (index : Nat)
    (t u : Thread) (ht : s.threads[index]? = some t) (hlater : app.Later t u)
    (hactive : t.status ≠ .wait)
    (hdone : u.status = .done → app.IsMonitor t) : app.Awaiting (s.setThread index u) := by
  have hlinked := linked_of_set app s.threads s.conditions hs.linked index t u ht hlater
  have htmem : t ∈ s.threads := List.mem_of_getElem? ht
  -- The threads in `Wait` are the same as before.
  have hold : ∀ v ∈ s.threads.set index u, v.status = .wait → v ∈ s.threads := by
    intro v hv hwait
    rcases List.mem_or_eq_of_mem_set hv with hv | rfl
    · exact hv
    · exact absurd (hlater.waiting hwait) hactive
  refine ⟨hlinked, ?_, ?_, hs.checking, ?_⟩
  · exact fun v hv hwait => hs.leaves v (hold v hv hwait) hwait
  · intro v hv hwait id hid w hw hwid hwdone
    have hvold := hold v hv hwait
    rcases List.mem_or_eq_of_mem_set hw with hw | rfl
    · exact hs.live v hvold hwait id hid w hw hwid hwdone
    · -- The changed thread is a monitor, and what is awaited is not.
      have hmonitor := hdone hwdone
      have htid : t.id = id := hlater.id.symm.trans hwid
      rcases hs.linked.reference v hvold hwait id hid with ⟨x, hx, hxid, hnot⟩ | ⟨q, hq, hqid⟩
      · have hxt : x = t := List.inj_on_of_nodup_map (nodup_threads app _ _ hs.linked) hx htmem
          (hxid.trans htid.symm)
        rw [hxt] at hnot
        exact not_isMonitor_of_noMonitor app t hnot hmonitor
      · exact apart_of_linked app _ _ hs.linked t htmem q hq (htid.trans hqid.symm)
  -- The waiter of a condition is not the thread that changes.
  · intro q hq
    rcases hs.waited q hq with ⟨v, hv, hwait, hid⟩
    rcases List.getElem?_of_mem hv with ⟨j, hj⟩
    have hne : index ≠ j := by
      rintro rfl
      rw [ht] at hj
      cases hj
      exact hactive hwait
    exact ⟨v, List.mem_of_getElem? ((List.getElem?_set_ne hne).trans hj), hwait, hid⟩

/-- Waits survive if a thread that can run gets another status, where only a monitor is
    done. -/
theorem awaiting_of_setStatus (s : ControlState σ) (hs : app.Awaiting s) (index : Nat)
    (t : Thread) (status : ThreadStatus) (ht : s.threads[index]? = some t)
    (hactive : t.status = .running ∨ t.status = .yield) (hwait : status ≠ .wait)
    (hdone : status = .done → app.IsMonitor t) :
    app.Awaiting (s.setThread index { t with status := status }) := by
  have hnot : t.status ≠ .wait ∧ t.status ≠ .done := by
    rcases hactive with hrun | hyield
    · rw [hrun]
      exact ⟨nofun, nofun⟩
    · rw [hyield]
      exact ⟨nofun, nofun⟩
  -- A thread that can run waits for nobody, whatever status it gets.
  have hfree := waitingFor_of_orderly app t (hs.linked.orderly t (List.mem_of_getElem? ht))
    hnot.1 hnot.2
  exact awaiting_of_setThread app s hs index t _ ht
    (later_of_free app t _ ⟨rfl, rfl, rfl⟩ hfree hwait) hnot.1 hdone

theorem awaiting_of_grantTurn (s s' : ControlState σ) (stepped : Nat) (hs : app.Awaiting s)
    (h : app.grantTurn s stepped = .ok s') : app.Awaiting s' := by
  rcases turned_of_grantTurn app s s' stepped h with rfl | ⟨index, t, ht, hstatus, _, rfl⟩
  · exact hs
  · exact awaiting_of_setStatus app s hs index t .running ht hstatus nofun nofun

theorem giveTurnAway_cases (more : Bool) (t : Thread) :
    (more = false ∧ (t.status = .running ∨ t.status = .yield)
        ∧ giveTurnAway more t = { t with status := .done })
      ∨ (more = true ∧ t.status = .running ∧ giveTurnAway more t = { t with status := .yield })
      ∨ (t.status ≠ .running ∧ giveTurnAway more t = t) := by
  unfold giveTurnAway Thread.isRunning
  -- A thread that runs gives its turn away, and one that waits for its turn is only done if nothing
  -- leaves its place.
  by_cases hrun : t.status = .running
  · cases more with
    | false => exact Or.inl ⟨rfl, Or.inl hrun, by rw [hrun]; rfl⟩
    | true => exact Or.inr (Or.inl ⟨rfl, hrun, by rw [hrun]; rfl⟩)
  · have hnot : (t.status == .running) = false := by rw [beq_eq_false_iff_ne]; exact hrun
    by_cases hyield : t.status = .yield
    · cases more with
      | false => exact Or.inl ⟨rfl, Or.inr hyield, by rw [hyield]; rfl⟩
      | true => exact Or.inr (Or.inr ⟨hrun, by rw [hyield]; rfl⟩)
    · have hnot' : (t.status == .yield) = false := by rw [beq_eq_false_iff_ne]; exact hyield
      refine Or.inr (Or.inr ⟨hrun, ?_⟩)
      rw [hnot, hnot', Bool.or_false, Bool.and_false]
      rfl

theorem setThread_self (s : ControlState σ) (index : Nat) (t : Thread)
    (ht : s.threads[index]? = some t) : s.setThread index t = s := by
  unfold ControlState.setThread
  rcases List.getElem?_eq_some_iff.mp ht with ⟨hlt, rfl⟩
  rw [List.set_getElem_self]

/-- A thread that gives its turn away is done at most if it is a monitor. -/
theorem awaiting_of_giveTurnAway (s : ControlState σ) (hs : app.Awaiting s) (index : Nat)
    (t : Thread) (more : Bool) (ht : s.threads[index]? = some t)
    (hmore : app.hasLeaving t = .ok more) (hgoing : app.Going t) :
    app.Awaiting (s.setThread index (giveTurnAway more t)) := by
  rcases giveTurnAway_cases more t with ⟨rfl, hactive, heq⟩ | ⟨rfl, hrun, heq⟩ | ⟨_, heq⟩
  -- It is done because nothing leaves its place. Only a monitor that was just started
  -- can be at such a place and still run.
  · have hmonitor : app.IsMonitor t := by
      rcases hgoing with hfailed | hdone | hleaves | ⟨_, hmonitor, _⟩
      · rw [hfailed] at hactive
        exact absurd hactive nofun
      · rw [hdone] at hactive
        exact absurd hactive nofun
      · rw [hmore] at hleaves
        cases hleaves
      · exact hmonitor
    rw [heq]
    exact awaiting_of_setStatus app s hs index t .done ht hactive nofun (fun _ => hmonitor)
  · rw [heq]
    exact awaiting_of_setStatus app s hs index t .yield ht (Or.inl hrun) nofun nofun
  · rw [heq, setThread_self s index t ht]
    exact hs

/-- Passing the turn keeps every wait. -/
theorem awaiting_of_passTurn (s s' : ControlState σ) (stepped : Nat) (hs : app.Awaiting s)
    (hgoing : ∀ t ∈ s.threads, app.Going t) (h : app.passTurn s stepped = .ok s') :
    app.Awaiting s' := by
  rcases turned_of_passTurn app s s' stepped h with ⟨t, more, ht, hmore, _, ⟨rfl, _⟩ | hgrant⟩
  · exact hs
  · refine awaiting_of_grantTurn app _ s' stepped ?_ hgrant
    exact awaiting_of_giveTurnAway app s hs stepped t more ht hmore
      (hgoing t (List.mem_of_getElem? ht))

end App

namespace Scheduler

/-- Threads with increasing numbers between two bounds, none of which waits. -/
structure Numbered (lo hi : Nat) (threads : List Thread) : Prop where
  bounds : ∀ t ∈ threads, lo ≤ t.id ∧ t.id < hi
  increasing : threads.Pairwise fun t u => t.id < u.id
  free : ∀ t ∈ threads, t.waitingFor = ∅ ∧ t.status ≠ .wait

theorem numbered_nil (lo hi : Nat) : Numbered lo hi [] :=
  ⟨fun _ ht => absurd ht List.not_mem_nil, List.Pairwise.nil,
    fun _ ht => absurd ht List.not_mem_nil⟩

theorem numbered_append (lo mid hi : Nat) (ts us : List Thread) (hlo : lo ≤ mid) (hhi : mid ≤ hi)
    (ht : Numbered lo mid ts) (hu : Numbered mid hi us) : Numbered lo hi (ts ++ us) := by
  refine ⟨?_, ?_, ?_⟩
  · intro t hmem
    rcases List.mem_append.mp hmem with hmem | hmem
    · exact ⟨(ht.bounds t hmem).1, Nat.lt_of_lt_of_le (ht.bounds t hmem).2 hhi⟩
    · exact ⟨Nat.le_trans hlo (hu.bounds t hmem).1, (hu.bounds t hmem).2⟩
  · refine List.pairwise_append.mpr ⟨ht.increasing, hu.increasing, fun t htmem u humem => ?_⟩
    exact Nat.lt_of_lt_of_le (ht.bounds t htmem).2 (hu.bounds u humem).1
  · intro t hmem
    rcases List.mem_append.mp hmem with hmem | hmem
    · exact ht.free t hmem
    · exact hu.free t hmem

/-- Steps that make threads with new numbers, one after the other. -/
theorem numbered_of_gives_mapM {α β : Type} (f : α → Scheduling β) (parts : β → List Thread)
    (xs : List α) (hgrows : ∀ x ∈ xs, Grows (f x))
    (hf : ∀ x ∈ xs, ∀ k k' y, Gives (f x) k y k' →
      Numbered k.app.supply.next k'.app.supply.next (parts y))
    (k k' : Scheduler) (ys : List β) (h : Gives (xs.mapM f) k ys k') :
    Numbered k.app.supply.next k'.app.supply.next (ys.flatMap parts) := by
  induction xs generalizing k ys with
  | nil =>
      rw [List.mapM_nil, gives_pure] at h
      rw [← h.1]
      exact numbered_nil _ _
  | cons x xs ih =>
      have hrest : ∀ z ∈ xs, Grows (f z) := fun z hz => hgrows z (List.mem_cons_of_mem _ hz)
      rw [List.mapM_cons, gives_bind] at h
      rcases h with ⟨y, k₁, hy, h⟩
      rcases (gives_bind _ _ _ _ _).mp h with ⟨zs, k₂, hzs, h⟩
      rcases (gives_pure _ _ _ _).mp h with ⟨rfl, rfl⟩
      -- The first step draws its numbers before the others do, so the two ranges meet in the supply
      -- between them.
      rw [List.flatMap_cons]
      refine numbered_append _ k₁.app.supply.next _ _ _ ?_ ?_
        (hf x List.mem_cons_self k k₁ y hy) ?_
      · exact (extends_of_gives _ (hgrows x List.mem_cons_self) k k₁ y hy).supply
      · exact (extends_of_gives _ (grows_mapM f xs hrest) k₁ k₂ zs hzs).supply
      · exact ih hrest (fun z hz => hf z (List.mem_cons_of_mem _ hz)) k₁ zs hzs

theorem initialStatus_ne_wait (event : Event) (hasMore : Bool) :
    initialStatus event hasMore ≠ .wait := by
  unfold initialStatus
  split
  · split
    · exact nofun
    · exact nofun
  · exact nofun
  · exact nofun

theorem numbered_of_gives_initialThread (actor : Actor) (script : Script) (k k' : Scheduler)
    (t : Thread) (h : Gives (initialThread actor script) k t k') :
    Numbered k.app.supply.next k'.app.supply.next [t] := by
  unfold initialThread at h
  rw [gives_program_bind] at h
  rcases (gives_lookUp_bind _ _ _ _ _).mp h with ⟨r, _, h⟩
  rcases (gives_lookUp_bind _ _ _ _ _).mp h with ⟨entry, _, h⟩
  rcases (gives_bind _ _ _ _ _).mp h with ⟨id, k₄, hfresh, h⟩
  rcases (gives_pure _ _ _ _).mp h with ⟨rfl, rfl⟩
  cases hfresh
  refine ⟨?_, List.pairwise_singleton _ _, ?_⟩
  · intro t ht
    rw [List.mem_singleton.mp ht]
    exact ⟨Nat.le_refl _, Nat.lt_succ_self _⟩
  · intro t ht
    rw [List.mem_singleton.mp ht]
    exact ⟨rfl, initialStatus_ne_wait _ _⟩

theorem numbered_of_gives_initialThreads (k k' : Scheduler) (ts : List Thread)
    (h : Gives initialThreads k ts k') : Numbered k.app.supply.next k'.app.supply.next ts := by
  unfold initialThreads at h
  rw [gives_program_bind] at h
  rcases (gives_bind _ _ _ _ _).mp h with ⟨found, k₂, hfound, h⟩
  rcases (gives_pure _ _ _ _).mp h with ⟨rfl, rfl⟩
  rw [← List.flatMap_id']
  refine numbered_of_gives_mapM _ (fun ts => ts) k.app.actors
    (fun actor _ => grows_mapM _ _ fun script _ => grows_initialThread actor script) ?_ k k₂ found
    hfound
  intro actor _ k₃ k₄ ts hts
  have hone := numbered_of_gives_mapM _ (fun t => [t]) actor.scripts
    (fun script _ => grows_initialThread actor script)
    (fun script _ k k' t ht => numbered_of_gives_initialThread actor script k k' t ht) k₃ k₄ ts hts
  rwa [List.flatMap_singleton'] at hone

/-- When a program starts nobody waits. -/
theorem awaiting_of_gives_startState {σ : Type} (data : σ) (k k' : Scheduler)
    (s : ControlState σ) (h : Gives (startState data) k s k') : k'.app.Awaiting s := by
  unfold startState at h
  rcases (gives_bind _ _ _ _ _).mp h with ⟨threads, k₁, hthreads, h⟩
  rw [gives_program_bind] at h
  rcases (gives_lookUp_bind _ _ _ _ _).mp h with ⟨next, hgrant, h⟩
  rcases (gives_lookUp_bind _ _ _ _ _).mp h with ⟨_, _, h⟩
  rcases (gives_pure _ _ _ _).mp h with ⟨rfl, rfl⟩
  have hnumbered := numbered_of_gives_initialThreads k k₁ threads hthreads
  have hempty : ∀ t ∈ threads, ∀ id, id ∉ t.waitingFor := fun t ht id hid =>
    (awaited_eq_empty _).mp (hnumbered.free t ht).1 id hid
  -- All that needs a reason are the numbers; the rest is about waits, of which there are none.
  refine App.awaiting_of_grantTurn k₁.app _ next _ ⟨⟨?_, ?_, ?_, ?_, ?_, ?_⟩, ?_, ?_, ?_, ?_⟩ hgrant
  · rw [List.nodup_iff_pairwise_ne, List.pairwise_map]
    exact (List.append_nil threads).symm ▸ hnumbered.increasing.imp fun hlt => Nat.ne_of_lt hlt
  · intro t ht
    exact (hnumbered.bounds t ((List.append_nil threads) ▸ ht)).2
  · exact fun t ht id hid => absurd hid (hempty t ht id)
  · exact fun t ht => App.orderly_of_free _ t (hnumbered.free t ht).1 (hnumbered.free t ht).2
  · exact fun t ht hwait => absurd hwait (hnumbered.free t ht).2
  · exact fun q hq => nomatch hq
  · exact fun t ht hwait => absurd hwait (hnumbered.free t ht).2
  · exact fun t ht hwait => absurd hwait (hnumbered.free t ht).2
  · exact fun q hq => nomatch hq
  · exact fun q hq => nomatch hq

end Scheduler

end ActorCheck

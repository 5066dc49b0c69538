import ActorCheck.Proofs.Control.WakingUp

/-!
# Conditions Keep the Links

The pending conditions are evaluated one by one, each in every alternative that
came out of the one before. An alternative in which a condition was found to hold
has released the thread that waited for it and marked the condition thread as
done. The condition threads of an alternative are cleared away at the very end,
when those that are done and those that nobody waited for are dropped.

`Alternative` relates an alternative to the state in which the evaluation began.
Nobody waits for a condition thread that is done, whoever waited for one that is
not done still does, and the threads whose conditions are still to be evaluated
are as they were. The induction is over the conditions that are left, and is done once for
whatever the evaluation of one condition preserves.

## Main definitions

* `Scheduler.Judged`: What the evaluation of one condition leads to.
* `Scheduler.Alternative`: An alternative of the state in which it began.
* `App.Awaiting`: Every wait is for somebody who is there.

## Theorems

* `Scheduler.mem_pendingConditions`: Which conditions are pending, and for whom.
* `Scheduler.invariant_of_evaluatePending`: What every evaluation of a condition preserves.
* `Scheduler.alternative_of_judged`: The evaluation of one condition.
* `Scheduler.alternative_of_evaluatePending`: The evaluation of all of them.
* `Scheduler.alternative_of_evaluateConditions`: The same before clearing away.
* `Scheduler.awaiting_of_evaluateConditions`: What is left after clearing away.
-/

namespace ActorCheck

/-- Every wait is for somebody who is there, and the waiting thread has somewhere
    to go after it. Every condition thread is waited for. -/
structure App.Awaiting {σ : Type} (app : App) (s : ControlState σ) : Prop where
  linked : app.Linked s.threads s.conditions
  leaves : ∀ t ∈ s.threads, t.status = .wait → app.hasLeaving t = .ok true
  live : App.Live s.threads
  checking : ∀ q ∈ s.conditions, q.status ≠ .done
  waited : ∀ q ∈ s.conditions, ∃ t ∈ s.threads, t.status = .wait ∧ q.id ∈ t.waitingFor

namespace Scheduler

variable {σ : Type}

section Pending

theorem pendingOf_ok (checkers : Std.ExtTreeSet ThreadId) (t : Thread) (index : Nat)
    (found : Option (Nat × ThreadId)) (h : pendingOf checkers (t, index) = .ok found) :
    (∀ p, found = some p → p.1 = index)
      ∧ ∀ id,
        (found = some (index, id) ↔ t.status = .wait ∧ id ∈ t.waitingFor ∧ id ∈ checkers) := by
  unfold pendingOf at h
  dsimp only at h
  split at h
  next hwait =>
    -- A thread that waits for two conditions at once is an error.
    have hmem : ∀ id, id ∈ (t.waitingFor ∩ checkers).toList
        ↔ id ∈ t.waitingFor ∧ id ∈ checkers := fun id =>
      Std.ExtTreeSet.mem_toList.trans Std.ExtTreeSet.mem_inter_iff
    split at h
    next hnone =>
      cases h
      refine ⟨nofun, fun id => iff_of_false nofun ?_⟩
      rintro ⟨_, hid⟩
      have hin := (hmem id).mpr hid
      rw [hnone] at hin
      cases hin
    next checker hone =>
      cases h
      refine ⟨?_, fun id => ?_⟩
      · rintro p ⟨⟩
        rfl
      · rw [← hmem id, hone, List.mem_singleton, Option.some_inj, Prod.mk.injEq]
        constructor
        · rintro ⟨_, rfl⟩
          exact ⟨hwait, rfl⟩
        · rintro ⟨_, rfl⟩
          exact ⟨rfl, rfl⟩
    next => cases h
  next hwait =>
    cases h
    exact ⟨nofun, fun id => iff_of_false nofun fun hid => hwait hid.1⟩

theorem waiters_sublist (checkers : Std.ExtTreeSet ThreadId) (entries : List (Thread × Nat))
    (found : List (Option (Nat × ThreadId)))
    (h : List.Forall₂ (fun e r => pendingOf checkers e = .ok r) entries found) :
    ((found.filterMap id).map Prod.fst).Sublist (entries.map Prod.snd) := by
  -- By induction on the entries, each of which gives its own index or nothing.
  induction h with
  | nil => exact List.Sublist.refl _
  | @cons e r es rs hr _ ih =>
      cases r with
      | none => exact ih.trans (List.sublist_cons_self _ _)
      | some p =>
          have hp := (pendingOf_ok checkers e.1 e.2 (some p) hr).1 p rfl
          change (p.1 :: (rs.filterMap id).map Prod.fst).Sublist (e.2 :: es.map Prod.snd)
          rw [hp]
          exact ih.cons_cons _

/-- Which conditions are pending, and for whom: those that a waiting thread waits
    for. -/
theorem mem_pendingConditions (s : ControlState σ) (pending : List (Nat × ThreadId))
    (h : pendingConditions s = .ok pending) (waiter : Nat) (checker : ThreadId) :
    (waiter, checker) ∈ pending ↔ ∃ t, s.threads[waiter]? = some t ∧ t.status = .wait
      ∧ checker ∈ t.waitingFor ∧ ∃ q ∈ s.conditions, q.id = checker := by
  unfold pendingConditions at h
  rcases (except_bind_ok _ _ _).mp h with ⟨found, hfound, h⟩
  cases (except_pure_ok _ _).mp h
  have hall := (except_mapM_ok _ _ _).mp hfound
  have hchecker : ∀ id, id ∈ Std.ExtTreeSet.ofList (s.conditions.map Thread.id)
      ↔ ∃ q ∈ s.conditions, q.id = id := by
    intro id
    rw [Std.ExtTreeSet.mem_ofList, List.contains_iff_mem, List.mem_map]
  constructor
  -- From the pair to the entry of the list that it came from, and back.
  · intro hmem
    rcases List.mem_filterMap.mp hmem with ⟨r, hr, heq⟩
    rcases mem_of_forall₂_right _ _ found hall r hr with ⟨⟨t, index⟩, hentry, hpending⟩
    have heq' : r = some (waiter, checker) := heq
    subst heq'
    rcases pendingOf_ok _ t index _ hpending with ⟨hindex, hwait⟩
    have hsame : waiter = index := hindex _ rfl
    subst hsame
    rcases (hwait checker).mp rfl with ⟨hstatus, hin, hcondition⟩
    exact ⟨t, List.mem_zipIdx_iff_getElem?.mp hentry, hstatus, hin,
      (hchecker checker).mp hcondition⟩
  · rintro ⟨t, ht, hstatus, hin, hcondition⟩
    have hentry : (t, waiter) ∈ s.threads.zipIdx := List.mem_zipIdx_iff_getElem?.mpr ht
    rcases mem_of_forall₂_left _ _ found hall _ hentry with ⟨r, hr, hpending⟩
    have hsome := ((pendingOf_ok _ t waiter r hpending).2 checker).mpr
      ⟨hstatus, hin, (hchecker checker).mpr hcondition⟩
    exact List.mem_filterMap.mpr ⟨r, hr, hsome⟩

/-- A thread waits for one condition at most. -/
theorem nodup_waiters (s : ControlState σ) (pending : List (Nat × ThreadId))
    (h : pendingConditions s = .ok pending) : (pending.map Prod.fst).Nodup := by
  unfold pendingConditions at h
  rcases (except_bind_ok _ _ _).mp h with ⟨found, hfound, h⟩
  cases (except_pure_ok _ _).mp h
  refine List.Nodup.sublist (waiters_sublist _ _ found ((except_mapM_ok _ _ _).mp hfound)) ?_
  rw [List.zipIdx_map_snd]
  exact List.nodup_range'

end Pending

section Evaluate

/-- What the evaluation of the condition that a thread waits for leads to. The
    condition may not hold, and then only the data change. Or it holds, and the
    thread no longer waits for it. -/
inductive Judged (app : App) (a : ControlState σ) (waiter : Nat) (checker : ThreadId) (t : Thread) :
    ControlState σ → Prop where
  | fails (data : σ) : Judged app a waiter checker t { a with data := data }
  | holds (data : σ) (position : Nat) (q : Thread) (u : Thread)
      (condition : a.conditions[position]? = some q) (id_eq : q.id = checker)
      (release : conditionHolds app checker t = .ok u) :
      Judged app a waiter checker t { a with
        threads := a.threads.set waiter u
        conditions := a.conditions.set position { q with status := .done }
        data := data }

theorem judged_of_evaluateCondition (c : Control σ) (app : App) (a : ControlState σ)
    (waiter : Nat) (checker : ThreadId) (t : Thread) (ht : a.threads[waiter]? = some t)
    (found : List (ControlState σ)) (h : evaluateCondition c app a waiter checker = .ok found)
    (b : ControlState σ) (hb : b ∈ found) : Judged app a waiter checker t b := by
  -- Without the condition thread nothing changes. With it, each result of the run settles the
  -- condition or only changes the data.
  unfold evaluateCondition at h
  split at h
  · cases h
    rw [List.mem_singleton.mp hb]
    exact .fails a.data
  next q position hfind =>
    have hid : q.id = checker := by simpa using List.find?_some hfind
    have hq := List.mem_zipIdx_iff_getElem?.mp (List.mem_of_find?_eq_some hfind)
    rcases (except_bind_ok _ _ _).mp h with ⟨r, _, h⟩
    rcases (except_bind_ok _ _ _).mp h with ⟨actor, _, h⟩
    rcases (except_bind_ok _ _ _).mp h with ⟨scope, _, h⟩
    rcases (except_bind_ok _ _ _).mp h with ⟨results, _, h⟩
    rcases mem_of_forall₂_right _ results found ((except_mapM_ok _ _ _).mp h) b hb with
      ⟨⟨data, holds⟩, _, hb⟩
    cases holds with
    | false =>
        cases hb
        exact .fails data
    | true =>
        have hsettle : settleCondition app { a with data := data } waiter position q = .ok b := hb
        unfold settleCondition at hsettle
        dsimp only at hsettle
        rw [ht] at hsettle
        rcases (except_bind_ok _ _ _).mp hsettle with ⟨u, hu, hb⟩
        cases (except_pure_ok _ _).mp hb
        rw [hid] at hu
        exact .holds data position q u hq hid hu

/-- An alternative of the state in which the evaluation of the conditions began,
    while some are still to be evaluated. -/
structure Alternative (app : App) (s a : ControlState σ) (rest : List (Nat × ThreadId)) :
    Prop where
  later : List.Forall₂ app.Later s.threads a.threads
  going : ∀ t ∈ a.threads, app.Going t
  live : App.Live a.threads
  conditions : List.Forall₂ Thread.Same s.conditions a.conditions
  /-- Nobody waits for a condition that was found to hold. -/
  decided : ∀ q ∈ a.conditions, q.status = .done → ∀ t ∈ a.threads, q.id ∉ t.waitingFor
  /-- Whoever waited for another condition still does. -/
  undecided : ∀ q ∈ a.conditions, q.status ≠ .done → ∀ (i : Nat) (t : Thread),
    s.threads[i]? = some t → t.status = .wait → q.id ∈ t.waitingFor →
    ∃ u, a.threads[i]? = some u ∧ u.status = .wait ∧ q.id ∈ u.waitingFor
  untouched : ∀ p ∈ rest, a.threads[p.1]? = s.threads[p.1]?
  /-- Whoever did not wait is as before. -/
  awake : ∀ (i : Nat) (t : Thread), s.threads[i]? = some t → t.status ≠ .wait →
    a.threads[i]? = some t

/-- A waiting thread when one of its conditions was found to hold. If it waits for
    something else it goes on waiting, and else it can run. -/
theorem later_of_conditionHolds (app : App) (checker : ThreadId) (t u : Thread)
    (ht : app.Orderly t) (hgoing : app.Going t) (hwait : t.status = .wait)
    (h : conditionHolds app checker t = .ok u) :
    app.Later t u ∧ app.Going u ∧ u.status ≠ .done ∧ checker ∉ u.waitingFor
      ∧ ∀ id, id ∈ t.waitingFor → id ≠ checker → u.status = .wait ∧ id ∈ u.waitingFor := by
  -- The condition is taken off the waiting set, and nothing else is.
  have herased := mem_erase_iff t.waitingFor checker
  have hfewer : ∀ id, id ∈ t.waitingFor.erase checker → id ∈ t.waitingFor := fun id hid =>
    ((herased id).mp hid).2
  have hreduced := app.reduced_of_conditionHolds t u checker hwait h
  rcases app.later_of_reduced _ t u hfewer ht hgoing hreduced with ⟨hlater, hgoes, hdone⟩
  refine ⟨hlater, hgoes, fun hover => ?_, fun hid => ?_, fun id hid hne => ?_⟩
  · rw [hdone hover] at hwait
    cases hwait
  · exact ((herased checker).mp (app.mem_of_reduced _ t u hreduced checker hid)).1 rfl
  · exact app.waits_of_reduced _ t u hreduced hfewer hwait id ((herased id).mpr ⟨hne, hid⟩)

/-- Threads with different numbers are told apart by them. -/
theorem position_of_id (ts : List Thread) (hnodup : (ts.map Thread.id).Nodup) (i j : Nat)
    (t u : Thread) (ht : ts[i]? = some t) (hu : ts[j]? = some u) (hid : t.id = u.id) : i = j := by
  have hlt : i < (ts.map Thread.id).length := by
    rw [List.length_map]
    exact (List.getElem?_eq_some_iff.mp ht).1
  refine (List.getElem?_inj hlt hnodup).mp ?_
  rw [List.getElem?_map, List.getElem?_map, ht, hu, Option.map_some, Option.map_some, hid]

/-- Once a condition was found to hold, those that are not done are the other ones. -/
theorem undecided_of_set (cs : List Thread) (hnodup : (cs.map Thread.id).Nodup) (position : Nat)
    (q r : Thread) (hq : cs[position]? = some q)
    (hr : r ∈ cs.set position { q with status := .done }) (hopen : r.status ≠ .done) :
    r ∈ cs ∧ r.id ≠ q.id := by
  rcases List.getElem?_of_mem hr with ⟨j, hj⟩
  -- One that is not done stands at another position, and numbers tell positions apart.
  have hne : position ≠ j := by
    rintro rfl
    rw [List.getElem?_set_self (List.getElem?_eq_some_iff.mp hq).1] at hj
    cases hj
    exact hopen rfl
  rw [List.getElem?_set_ne hne] at hj
  exact ⟨List.mem_of_getElem? hj,
    fun heq => hne (position_of_id cs hnodup position j q r hq hj heq.symm)⟩

/-- An alternative in which one more condition was evaluated. -/
theorem alternative_of_judged (app : App) (s a b : ControlState σ) (waiter : Nat)
    (checker : ThreadId) (rest : List (Nat × ThreadId)) (t : Thread)
    (hl : app.Linked s.threads s.conditions)
    (ha : Alternative app s a ((waiter, checker) :: rest)) (ht : s.threads[waiter]? = some t)
    (hwait : t.status = .wait) (hin : checker ∈ t.waitingFor) (hrest : waiter ∉ rest.map Prod.fst)
    (hb : Judged app a waiter checker t b) : Alternative app s b rest := by
  have hat : a.threads[waiter]? = some t :=
    (ha.untouched (waiter, checker) List.mem_cons_self).trans ht
  have htmem : t ∈ a.threads := List.mem_of_getElem? hat
  have hothers : ∀ p ∈ rest, waiter ≠ p.1 := fun p hp heq =>
    hrest (heq ▸ List.mem_map_of_mem hp)
  cases hb with
  | fails data =>
      exact ⟨ha.later, ha.going, ha.live, ha.conditions, ha.decided, ha.undecided,
        fun p hp => ha.untouched p (List.mem_cons_of_mem _ hp), ha.awake⟩
  | holds data position q u hq hid hrelease =>
      subst hid
      have hla := App.linked_of_sameConditions app a.threads s.conditions
        (App.linked_of_later app s.threads s.conditions a.threads hl ha.later) a.conditions
        ha.conditions
      rcases later_of_conditionHolds app q.id t u (hla.orderly t htmem) (ha.going t htmem) hwait
        hrelease with ⟨hlater, hgoing, hgoesOn, hgone, hkeeps⟩
      have hset : List.Forall₂ app.Later a.threads (a.threads.set waiter u) :=
        forall₂_set app.Later a.threads (fun v hv => app.later_refl v (hla.orderly v hv)) waiter t u
          hat hlater
      refine ⟨forall₂_trans app.Later app.later_trans _ _ _ ha.later hset, ?_,
        App.live_of_set a.threads ha.live waiter t u hat hwait hlater.fewer hgoesOn, ?_, ?_, ?_, ?_,
        ?_⟩
      · intro v hv
        rcases List.mem_or_eq_of_mem_set hv with hv | rfl
        · exact ha.going v hv
        · exact hgoing
      · exact forall₂_trans Thread.Same same_trans _ _ _ ha.conditions
          (forall₂_set Thread.Same a.conditions (fun r _ => same_refl r) position q _ hq
            ⟨rfl, rfl, rfl⟩)
      -- The condition that holds was waited for by nobody but this thread.
      · intro r hr hrdone v hv hrv
        rcases List.mem_or_eq_of_mem_set hr with hold | rfl
        · rcases List.mem_or_eq_of_mem_set hv with hv | rfl
          · exact ha.decided r hold hrdone v hv hrv
          · exact ha.decided r hold hrdone t htmem (hlater.fewer _ hrv)
        · exact app.unawaited_of_set a.threads a.conditions hla q (List.mem_of_getElem? hq) waiter
            t u hat hin hgone v hv hrv
      -- An undecided condition is another one than the one that holds, so its waiter keeps it.
      · intro r hr hrdone i v hv hvwait hrv
        rcases undecided_of_set a.conditions (app.nodup_conditions _ _ hla) position q r hq hr
          hrdone with ⟨hold, hne⟩
        rcases ha.undecided r hold hrdone i v hv hvwait hrv with ⟨w, hw, hwwait, hrw⟩
        by_cases hiw : waiter = i
        · subst hiw
          rw [hat] at hw
          cases hw
          rcases hkeeps r.id hrw hne with ⟨huwait, hru⟩
          exact ⟨u, List.getElem?_set_self (List.getElem?_eq_some_iff.mp hat).1, huwait, hru⟩
        · exact ⟨w, (List.getElem?_set_ne hiw).trans hw, hwwait, hrw⟩
      · intro p hp
        exact (List.getElem?_set_ne (hothers p hp)).trans
          (ha.untouched p (List.mem_cons_of_mem _ hp))
      · intro i v hv hawake
        have hi : waiter ≠ i := by
          rintro rfl
          rw [ht] at hv
          cases hv
          exact hawake hwait
        exact (List.getElem?_set_ne hi).trans (ha.awake i v hv hawake)

theorem mem_of_mem_distinct {α : Type} [DecidableEq α] (xs : List α) (x : α) (h : x ∈ distinct xs) :
    x ∈ xs := by
  -- Each member is new or was found before, so nothing is made up on the way.
  have hfold : ∀ (ys found : List α), x ∈ ys.foldl
      (fun found y => if y ∈ found then found else found ++ [y]) found → x ∈ found ∨ x ∈ ys := by
    intro ys
    induction ys with
    | nil =>
        intro found hx
        exact Or.inl hx
    | cons y ys ih =>
        intro found hx
        rcases ih _ hx with hx | hx
        · dsimp only at hx
          split at hx
          · exact Or.inl hx
          · rcases List.mem_append.mp hx with hx | hx
            · exact Or.inl hx
            · exact Or.inr (List.mem_singleton.mp hx ▸ List.mem_cons_self)
        · exact Or.inr (List.mem_cons_of_mem _ hx)
  rcases hfold xs [] h with hx | hx
  · cases hx
  · exact hx

theorem alternative_refl (app : App) (s : ControlState σ) (pending : List (Nat × ThreadId))
    (hr : app.Released s.threads s.conditions) (hcheck : ∀ q ∈ s.conditions, q.status ≠ .done) :
    Alternative app s s pending := by
  refine ⟨?_, hr.going, hr.live, List.forall₂_same.mpr (fun q _ => same_refl q), ?_, ?_, ?_, ?_⟩
  · exact List.forall₂_same.mpr (fun t ht => app.later_refl t (hr.linked.orderly t ht))
  · exact fun q hq hdone => absurd hdone (hcheck q hq)
  · exact fun q _ _ i t ht hwait hid => ⟨t, ht, hwait, hid⟩
  · exact fun p _ => rfl
  · exact fun i t ht _ => ht

variable [DecidableEq σ]

/-- What the evaluation of one condition preserves is preserved by the evaluation of all of them. It
    may speak of the conditions that are left. -/
theorem invariant_of_evaluatePending (c : Control σ) (app : App)
    (P : List (Nat × ThreadId) → ControlState σ → Prop)
    (hstep : ∀ (waiter : Nat) (checker : ThreadId) (rest : List (Nat × ThreadId))
      (a b : ControlState σ) (found : List (ControlState σ)), P ((waiter, checker) :: rest) a →
      evaluateCondition c app a waiter checker = .ok found → b ∈ found → P rest b)
    (pending : List (Nat × ThreadId)) (alternatives found : List (ControlState σ))
    (hall : ∀ a ∈ alternatives, P pending a)
    (h : evaluatePending c app pending alternatives = .ok found) : ∀ b ∈ found, P [] b := by
  -- By induction on the conditions that are left. The alternatives are generalized, as each
  -- condition multiplies them.
  induction pending generalizing alternatives with
  | nil =>
      cases h
      exact hall
  | cons p rest ih =>
      rcases p with ⟨waiter, checker⟩
      unfold evaluatePending at h
      rcases (except_bind_ok _ _ _).mp h with ⟨results, hresults, h⟩
      refine ih _ (fun b hb => ?_) h
      rcases List.mem_flatten.mp (mem_of_mem_distinct _ b hb) with ⟨bs, hbs, hb⟩
      rcases mem_of_forall₂_right _ _ _ ((except_mapM_ok _ _ _).mp hresults) bs hbs with
        ⟨a, ha, heval⟩
      exact hstep waiter checker rest a b bs (hall a ha) heval hb

/-- The evaluation of all conditions begins with the state itself and clears the condition threads
    away in the end. -/
theorem pending_of_evaluateConditions (c : Control σ) (app : App) (s u : ControlState σ)
    (found : List (ControlState σ)) (h : evaluateConditions c app s = .ok found) (hu : u ∈ found) :
    ∃ pending alternatives b, pendingConditions s = .ok pending
      ∧ evaluatePending c app pending [s] = .ok alternatives ∧ b ∈ alternatives
      ∧ u = dropConditions (pending.map Prod.snd) b := by
  unfold evaluateConditions at h
  rcases (except_bind_ok _ _ _).mp h with ⟨pending, hpending, h⟩
  rcases (except_bind_ok _ _ _).mp h with ⟨alternatives, halternatives, h⟩
  cases (except_pure_ok _ _).mp h
  rcases List.mem_map.mp hu with ⟨b, hb, rfl⟩
  exact ⟨pending, alternatives, b, hpending, halternatives, hb, rfl⟩

omit [DecidableEq σ] in
/-- Those who wait for the conditions are told apart, and they wait. -/
theorem waiting_of_pendingConditions (s : ControlState σ) (pending : List (Nat × ThreadId))
    (h : pendingConditions s = .ok pending) : (pending.map Prod.fst).Nodup
      ∧ ∀ p ∈ pending, ∃ t, s.threads[p.1]? = some t ∧ t.status = .wait ∧ p.2 ∈ t.waitingFor := by
  refine ⟨nodup_waiters s pending h, ?_⟩
  rintro ⟨waiter, checker⟩ hp
  rcases (mem_pendingConditions s pending h waiter checker).mp hp with ⟨t, ht, hwait, hin, _⟩
  exact ⟨t, ht, hwait, hin⟩

/-- The evaluation of all pending conditions. -/
theorem alternative_of_evaluatePending (c : Control σ) (app : App) (s : ControlState σ)
    (hl : app.Linked s.threads s.conditions) (pending : List (Nat × ThreadId))
    (alternatives found : List (ControlState σ))
    (hpending : ∀ p ∈ pending, ∃ t, s.threads[p.1]? = some t ∧ t.status = .wait
      ∧ p.2 ∈ t.waitingFor)
    (hnodup : (pending.map Prod.fst).Nodup)
    (halternatives : ∀ a ∈ alternatives, Alternative app s a pending)
    (h : evaluatePending c app pending alternatives = .ok found) :
    ∀ b ∈ found, Alternative app s b [] := by
  intro b hb
  refine (invariant_of_evaluatePending c app (fun rest a => (rest.map Prod.fst).Nodup
    ∧ (∀ p ∈ rest, ∃ t, s.threads[p.1]? = some t ∧ t.status = .wait ∧ p.2 ∈ t.waitingFor)
    ∧ Alternative app s a rest) ?_ pending alternatives found
    (fun a ha => ⟨hnodup, hpending, halternatives a ha⟩) h b hb).2.2
  -- The waiter is touched by this condition only, so what it waits for is as it was in the
  -- beginning.
  rintro waiter checker rest a b bs ⟨hnodup, hpending, ha⟩ heval hb
  rcases List.nodup_cons.mp hnodup with ⟨hnew, hrest⟩
  rcases hpending (waiter, checker) List.mem_cons_self with ⟨t, ht, hwait, hin⟩
  have hat := (ha.untouched (waiter, checker) List.mem_cons_self).trans ht
  exact ⟨hrest, fun p hp => hpending p (List.mem_cons_of_mem _ hp),
    alternative_of_judged app s a b waiter checker rest t hl ha ht hwait hin hnew
      (judged_of_evaluateCondition c app a waiter checker t hat bs heval b hb)⟩

omit [DecidableEq σ] in
/-- What is left are the conditions that were evaluated and did not hold. -/
theorem mem_dropConditions (pending : List (Nat × ThreadId)) (s : ControlState σ) (q : Thread) :
    q ∈ (dropConditions (pending.map Prod.snd) s).conditions
      ↔ q ∈ s.conditions ∧ q.status ≠ .done ∧ ∃ waiter, (waiter, q.id) ∈ pending := by
  unfold dropConditions
  rw [List.mem_filter, Bool.and_eq_true, bne_iff_ne, List.contains_iff_mem, List.mem_map]
  refine and_congr_right fun _ => and_congr_right fun _ => ?_
  constructor
  · rintro ⟨⟨waiter, _⟩, hp, rfl⟩
    exact ⟨waiter, hp⟩
  · rintro ⟨waiter, hp⟩
    exact ⟨_, hp, rfl⟩

/-- The evaluation of all conditions ends with an alternative in which none is still to be
    evaluated, and clears the condition threads away. -/
theorem alternative_of_evaluateConditions (c : Control σ) (app : App) (s u : ControlState σ)
    (found : List (ControlState σ)) (hr : app.Released s.threads s.conditions)
    (hcheck : ∀ q ∈ s.conditions, q.status ≠ .done)
    (h : evaluateConditions c app s = .ok found) (hu : u ∈ found) :
    ∃ pending alternatives b, pendingConditions s = .ok pending
      ∧ evaluatePending c app pending [s] = .ok alternatives ∧ b ∈ alternatives
      ∧ Alternative app s b [] ∧ u = dropConditions (pending.map Prod.snd) b := by
  rcases pending_of_evaluateConditions c app s u found h hu with
    ⟨pending, alternatives, b, hpending, halternatives, hb, rfl⟩
  rcases waiting_of_pendingConditions s pending hpending with ⟨hnodup, hwaiters⟩
  -- The evaluation starts from the state itself, in which nothing is decided.
  exact ⟨pending, alternatives, b, hpending, halternatives, hb,
    alternative_of_evaluatePending c app s hr.linked pending [s] alternatives hwaiters hnodup
      (List.forall_mem_singleton.mpr (alternative_refl app s pending hr hcheck)) halternatives b hb,
    rfl⟩

/-- When the conditions were evaluated and the condition threads cleared away,
    every wait is for somebody who is there. -/
theorem awaiting_of_evaluateConditions (c : Control σ) (app : App) (s : ControlState σ)
    (found : List (ControlState σ)) (hr : app.Released s.threads s.conditions)
    (hcheck : ∀ q ∈ s.conditions, q.status ≠ .done)
    (h : evaluateConditions c app s = .ok found) (u : ControlState σ) (hu : u ∈ found) :
    app.Awaiting u ∧ ∀ t ∈ u.threads, app.Going t := by
  rcases alternative_of_evaluateConditions c app s u found hr hcheck h hu with
    ⟨pending, _, b, hpending, _, _, hab, rfl⟩
  have hmem := mem_pendingConditions s pending hpending
  have hkept := mem_dropConditions pending b
  have hlb := App.linked_of_sameConditions app b.threads s.conditions
    (App.linked_of_later app s.threads s.conditions b.threads hr.linked hab.later)
    b.conditions hab.conditions
  refine ⟨⟨?_, ?_, hab.live, fun q hq => ((hkept q).mp hq).2.1, ?_⟩, hab.going⟩
  -- Nobody waits for a condition thread that is dropped.
  · refine App.linked_of_dropped app b.threads b.conditions hlb _ List.filter_sublist ?_
    intro t ht hwait q hq hid
    refine (hkept q).mpr ⟨hq, fun hdone => hab.decided q hq hdone t ht hid, ?_⟩
    rcases List.getElem?_of_mem ht with ⟨i, hi⟩
    rcases getElem?_of_forall₂_right _ _ _ hab.later i t hi with ⟨t₀, ht₀, hlater⟩
    rcases mem_of_forall₂_right _ _ _ hab.conditions q hq with ⟨q₀, hq₀, hsame⟩
    exact ⟨i, (hmem i q.id).mpr ⟨t₀, ht₀, hlater.waiting hwait, hlater.fewer q.id hid, q₀, hq₀,
      hsame.id.symm⟩⟩
  · exact fun t ht hwait => app.leaves_of_waiting t (hab.going t ht) hwait
  · intro q hq
    rcases (hkept q).mp hq with ⟨hqb, hqdone, waiter, hp⟩
    rcases (hmem waiter q.id).mp hp with ⟨t₀, ht₀, hwait, hid, _⟩
    -- A condition that is left did not hold, so its waiter was not released from it.
    rcases hab.undecided q hqb hqdone waiter t₀ ht₀ hwait hid with ⟨t, ht, htwait, hqt⟩
    exact ⟨t, List.mem_of_getElem? ht, htwait, hqt⟩

end Evaluate

end Scheduler

end ActorCheck

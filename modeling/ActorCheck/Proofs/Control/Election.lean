import ActorCheck.Proofs.Control.RoundRobin

/-!
# Who Is Chosen

The search for the next thread is a scan that goes once around and returns early for an observer,
keeping the first other thread in mind. What it finds can be said without the scan, by distances.
The distance of a thread from the one that took the step is the number of places to go on from
there, at least one and at most the number of threads, so the thread itself is the farthest. The
closest observer that can run is chosen, else the closest other thread that can run, else the
thread that took the step if it can go on.

The scan visits the indices in the order of their distances. So where it splits the indices into
those before the one it finds and those behind it, the former are those that are closer. When it
meets an observer early it has not looked at the rest, and nothing is known about it. In all other
cases it has looked at every thread.

The scan fails only over a thread whose relation is not known, or which can run and whose actor is
not known.

## Main definitions

* `App.ObserverReady`, `App.OtherReady`: An observer, or somebody else, can run.
* `App.MayGoOn`: The thread can take a step.
* `Closest`: The closest index with a property.
* `App.Elected`: The thread that is to be chosen.
* `App.Resolves`: The relation and the actor of a thread are known.

## Theorems

* `closest_unique`: There is one closest index at most.
* `closest_of_split`: Where the scan finds somebody, whoever is closer was passed over.
* `App.observer_of_firstRunnable`, `App.elected_of_nextThread`: The scan finds who is closest.
* `App.nextThread_isOk`: The scan does not fail if relations and actors are known.
* `App.nextThread_elected`: The choice of the next thread.
-/

namespace ActorCheck

section Distance

/-- The closest index with a property, where distances count from the index behind `stepped` and
    go once around. -/
def Closest (count stepped : Nat) (P : Nat → Prop) (i : Nat) : Prop :=
  ∃ d, 1 ≤ d ∧ d ≤ count ∧ (stepped + d) % count = i ∧ P i
    ∧ ∀ d', 1 ≤ d' → d' < d → ¬ P ((stepped + d') % count)

variable (count stepped : Nat) (P : Nat → Prop)

theorem closest_unique (i j : Nat) (hi : Closest count stepped P i)
    (hj : Closest count stepped P j) : i = j := by
  rcases hi with ⟨d, hd, _, rfl, hP, hfirst⟩
  rcases hj with ⟨d', hd', _, rfl, hP', hfirst'⟩
  -- Whichever is farther away, the nearer one was passed over on the way to it.
  rcases Nat.lt_trichotomy d d' with hlt | rfl | hlt
  · exact absurd hP (hfirst' d hd hlt)
  · rfl
  · exact absurd hP' (hfirst d' hd' hlt)

/-- The scan visits the indices in the order of their distances. -/
theorem getElem?_turnOrder (k : Nat) (hk : k < count) :
    (App.turnOrder count stepped)[k]? = some ((stepped + (k + 1)) % count) := by
  unfold App.turnOrder
  rw [List.getElem?_map, List.getElem?_range hk, Option.map_some]
  exact congrArg (fun n => some (n % count)) (by omega)

/-- Where the scan finds an index with a property, whatever is closer has been passed over. -/
theorem closest_of_split (before after : List Nat) (i : Nat)
    (horder : App.turnOrder count stepped = before ++ i :: after) (hi : P i)
    (hbefore : ∀ j ∈ before, ¬ P j) : Closest count stepped P i := by
  have hlength : before.length < count := by
    have hall := congrArg List.length horder
    unfold App.turnOrder at hall
    rw [List.length_map, List.length_range, List.length_append, List.length_cons] at hall
    omega
  -- The distance is one more than what was passed over, since the scan begins behind the thread
  -- that stepped.
  refine ⟨before.length + 1, Nat.le_add_left 1 _, hlength, ?_, hi, fun d hd hlt => ?_⟩
  · have hplace := getElem?_turnOrder count stepped before.length hlength
    rw [horder, List.getElem?_append_right (Nat.le_refl _), Nat.sub_self] at hplace
    exact (Option.some.inj hplace).symm
  · have hplace := getElem?_turnOrder count stepped (d - 1) (by omega)
    rw [Nat.sub_add_cancel hd, horder, List.getElem?_append_left (by omega)] at hplace
    exact hbefore _ (List.mem_of_getElem? hplace)

end Distance

namespace App

variable {σ : Type} (app : App)

/-- A thread of an observer can run. -/
def ObserverReady (s : ControlState σ) (i : Nat) : Prop :=
  app.Ready s i ∧ ∃ t, s.threads[i]? = some t ∧ app.observes t = .ok true

/-- A thread that is not an observer's can run. -/
def OtherReady (s : ControlState σ) (i : Nat) : Prop :=
  app.Ready s i ∧ ∃ t, s.threads[i]? = some t ∧ app.observes t = .ok false

/-- The thread at an index runs or waits for its turn, and something leaves its place. -/
def MayGoOn (s : ControlState σ) (i : Nat) : Prop :=
  ∃ t, s.threads[i]? = some t ∧ (t.status = .running ∨ t.status = .yield)
    ∧ app.hasLeaving t = .ok true

/-- The thread that is to be chosen after the one at `stepped` took a step, if there is any. -/
inductive Elected (s : ControlState σ) (stepped : Nat) : Option Nat → Prop where
  | observer {i : Nat} (first : Closest s.threads.length stepped (app.ObserverReady s) i) :
      Elected s stepped (some i)
  | other {i : Nat} (unobserved : ∀ j, ¬ app.ObserverReady s j)
      (first : Closest s.threads.length stepped (app.OtherReady s) i) : Elected s stepped (some i)
  | again (idle : ∀ j, ¬ app.Ready s j) (able : app.MayGoOn s stepped) :
      Elected s stepped (some stepped)
  | nobody (idle : ∀ j, ¬ app.Ready s j) (unable : ¬ app.MayGoOn s stepped) :
      Elected s stepped none

/-- The relation and the actor of a thread are known. -/
structure Resolves (t : Thread) : Prop where
  relation : ∃ r, app.relation t.place.relation = .ok r
  actor : ∃ a, app.actor t.actor = .ok a

section Election

variable (s : ControlState σ)

/-- One thread at most is to be chosen. -/
theorem elected_unique (stepped : Nat) (x y : Option Nat) (hx : app.Elected s stepped x)
    (hy : app.Elected s stepped y) : x = y := by
  -- The ways to be elected exclude each other: what is closest can run, and the last two ways say
  -- that nobody can.
  have hready : ∀ (P : Nat → Prop) (i : Nat), Closest s.threads.length stepped P i → P i := by
    rintro P _ ⟨_, _, _, _, hP, _⟩
    exact hP
  cases hx with
  | observer hfirst =>
      have hi := hready _ _ hfirst
      cases hy with
      | observer hfirst' => exact congrArg some (closest_unique _ _ _ _ _ hfirst hfirst')
      | other hnone _ => exact absurd hi (hnone _)
      | again hnobody _ => exact absurd hi.1 (hnobody _)
      | nobody hnobody _ => exact absurd hi.1 (hnobody _)
  | other hnone hfirst =>
      have hi := hready _ _ hfirst
      cases hy with
      | observer hfirst' => exact absurd (hready _ _ hfirst') (hnone _)
      | other _ hfirst' => exact congrArg some (closest_unique _ _ _ _ _ hfirst hfirst')
      | again hnobody _ => exact absurd hi.1 (hnobody _)
      | nobody hnobody _ => exact absurd hi.1 (hnobody _)
  | again hnobody hable =>
      cases hy with
      | observer hfirst => exact absurd (hready _ _ hfirst).1 (hnobody _)
      | other _ hfirst => exact absurd (hready _ _ hfirst).1 (hnobody _)
      | again => rfl
      | nobody _ hunable => exact absurd hable hunable
  | nobody hnobody hunable =>
      cases hy with
      | observer hfirst => exact absurd (hready _ _ hfirst).1 (hnobody _)
      | other _ hfirst => exact absurd (hready _ _ hfirst).1 (hnobody _)
      | again _ hable => exact absurd hable hunable
      | nobody => rfl

theorem ready_iff (i : Nat) (t : Thread) (ht : s.threads[i]? = some t) :
    app.Ready s i ↔ app.canRun t = .ok true := by
  rw [canRun_ok]
  constructor
  · rintro ⟨u, hu, hcan⟩
    cases ht.symm.trans hu
    exact hcan
  · exact fun hcan => ⟨t, ht, hcan⟩

theorem not_ready_of_canRun (i : Nat)
    (h : ∀ t, s.threads[i]? = some t → app.canRun t = .ok false) : ¬ app.Ready s i := by
  rintro ⟨t, ht, hcan⟩
  cases (h t ht).symm.trans ((app.canRun_ok t).mpr hcan)

/-- Every index with a thread is visited by the scan. -/
theorem mem_turnOrder_of_thread (stepped i : Nat) (t : Thread) (ht : s.threads[i]? = some t) :
    i ∈ turnOrder s.threads.length stepped :=
  (mem_turnOrder _ _ i).mpr (List.getElem?_eq_some_iff.mp ht).1

/-- If the scan comes by an observer that can run, it ends with the first one. -/
theorem observer_of_firstRunnable (order : List Nat) (first found : Option Nat)
    (h : app.firstRunnable s first order = .ok found) (hsome : ∃ i ∈ order, app.ObserverReady s i) :
    ∃ before i after, order = before ++ i :: after ∧ found = some i ∧ app.ObserverReady s i
      ∧ ∀ j ∈ before, ¬ app.ObserverReady s j := by
  -- What the scan has in mind is generalized. It changes on the way, and an observer is found
  -- whatever it is.
  induction order generalizing first with
  | nil =>
      rcases hsome with ⟨i, hi, _⟩
      exact absurd hi List.not_mem_nil
  | cons i rest ih =>
      by_cases hi : app.ObserverReady s i
      · refine ⟨[], i, rest, rfl, ?_, hi, fun j hj => absurd hj List.not_mem_nil⟩
        rcases hi with ⟨hready, t, ht, hobserves⟩
        rcases (except_bind_ok _ _ _).mp hobserves with ⟨actor, hactor, hobserver⟩
        unfold firstRunnable at h
        rw [ht] at h
        dsimp only at h
        rw [(app.ready_iff s i t ht).mp hready] at h
        change (app.actorNamed t.actor >>= _) = _ at h
        rw [hactor] at h
        change (if actor.isObserver then _ else _) = _ at h
        rw [if_pos ((except_pure_ok _ _).mp hobserver)] at h
        exact ((except_pure_ok _ _).mp h).symm
      · -- The scan goes on, whatever it has in mind then.
        have hrest : ∃ j ∈ rest, app.ObserverReady s j := by
          rcases hsome with ⟨j, hj, hready⟩
          rcases List.mem_cons.mp hj with rfl | hj
          · exact absurd hready hi
          · exact ⟨j, hj, hready⟩
        have hskip : ∀ first', app.firstRunnable s first' rest = .ok found →
            ∃ before k after, i :: rest = before ++ k :: after ∧ found = some k
              ∧ app.ObserverReady s k ∧ ∀ j ∈ before, ¬ app.ObserverReady s j := by
          intro first' h'
          rcases ih first' h' hrest with ⟨before, k, after, rfl, hfound, hk, hbefore⟩
          exact ⟨i :: before, k, after, rfl, hfound, hk, List.forall_mem_cons.mpr ⟨hi, hbefore⟩⟩
        unfold firstRunnable at h
        split at h
        next => exact hskip first h
        next t ht =>
          rcases (except_bind_ok _ _ _).mp h with ⟨more, hmore, h⟩
          cases more with
          | false => exact hskip first h
          | true =>
              rcases (except_bind_ok _ _ _).mp h with ⟨actor, hactor, h⟩
              split at h
              next hobserver =>
                have hobserves : app.observes t = .ok true :=
                  (except_bind_ok _ _ _).mpr ⟨actor, hactor, (except_pure_ok _ _).mpr hobserver⟩
                exact absurd ⟨(app.ready_iff s i t ht).mpr hmore, t, ht, hobserves⟩ hi
              next => exact hskip _ h

theorem canGoOn_ok (stepped : Nat) (more : Bool) (h : app.canGoOn s stepped = .ok more) :
    more = true ↔ app.MayGoOn s stepped := by
  unfold canGoOn at h
  split at h
  next t ht =>
    split at h
    next hstatus =>
      constructor
      · rintro rfl
        exact ⟨t, ht, hstatus, h⟩
      · rintro ⟨u, hu, _, hleaves⟩
        cases ht.symm.trans hu
        exact Except.ok.inj (h.symm.trans hleaves)
    next hstatus =>
      cases h
      refine iff_of_false Bool.false_ne_true ?_
      rintro ⟨u, hu, hable, _⟩
      cases ht.symm.trans hu
      exact hstatus hable
  next hnone =>
    cases h
    refine iff_of_false Bool.false_ne_true ?_
    rintro ⟨u, hu, _⟩
    cases hnone.symm.trans hu

/-- What the scan finds is what is to be chosen. -/
theorem elected_of_nextThread (stepped : Nat) (found : Option Nat)
    (h : app.nextThread s stepped = .ok found) : app.Elected s stepped found := by
  unfold nextThread at h
  rcases (except_bind_ok _ _ _).mp h with ⟨chosen, hscan, h⟩
  by_cases hobserver : ∃ i, app.ObserverReady s i
  · rcases hobserver with ⟨i, hi⟩
    rcases hi.2 with ⟨t, ht, _⟩
    rcases app.observer_of_firstRunnable s _ none chosen hscan
      ⟨i, mem_turnOrder_of_thread s stepped i t ht, hi⟩ with
      ⟨before, k, after, horder, rfl, hk, hbefore⟩
    cases (except_pure_ok _ _).mp h
    exact .observer (closest_of_split _ _ _ before after k horder hk hbefore)
  · have hunobserved : ∀ j, ¬ app.ObserverReady s j := fun j hj => hobserver ⟨j, hj⟩
    -- Without an observer the scan has two ways to end.
    cases app.search_of_firstRunnable s _ none chosen hscan with
    | observer index t ht hcan hobserves =>
        exact absurd ⟨(app.ready_iff s index t ht).mpr hcan, t, ht, hobserves⟩ (hunobserved index)
    | other index hplain hchoice =>
        cases (except_pure_ok _ _).mp h
        rcases hchoice with hnone | ⟨_, before, after, horder, hbefore⟩
        · cases hnone
        rcases app.runnable_of_firstRunnable s _ none index hscan with hnone | hready
        · cases hnone
        -- The one found is the first on the way, and its actor is no observer, as there are none
        -- that can run.
        have hmem : index ∈ turnOrder s.threads.length stepped := by
          rw [horder]
          exact List.mem_append_right _ List.mem_cons_self
        refine .other hunobserved (closest_of_split _ _ _ before after index horder ?_ ?_)
        · rcases hready with ⟨t, ht, hcan⟩
          refine ⟨⟨t, ht, hcan⟩, t, ht, (hplain index hmem t ht).resolve_left fun hnot => ?_⟩
          cases hnot.symm.trans ((app.canRun_ok t).mpr hcan)
        · exact fun j hj hother => app.not_ready_of_canRun s j (hbefore j hj) hother.1
    | nobody _ hidle =>
        have hnobody : ∀ j, ¬ app.Ready s j := by
          rintro j ⟨t, ht, hcan⟩
          have hj := mem_turnOrder_of_thread s stepped j t ht
          exact app.not_ready_of_canRun s j (hidle j hj) ⟨t, ht, hcan⟩
        -- Only with nobody ready it is asked whether the thread that stepped may go on.
        rcases (except_bind_ok _ _ _).mp h with ⟨more, hmore, h⟩
        have hable := app.canGoOn_ok s stepped more hmore
        cases more with
        | true =>
            cases (except_pure_ok _ _).mp h
            exact .again hnobody (hable.mp rfl)
        | false =>
            cases (except_pure_ok _ _).mp h
            exact .nobody hnobody fun hcan => Bool.false_ne_true (hable.mpr hcan)

variable (hresolves : ∀ t ∈ s.threads, app.Resolves t)

include hresolves

theorem hasLeaving_isOk (t : Thread) (ht : t ∈ s.threads) :
    ∃ more, app.hasLeaving t = .ok more := by
  rcases (hresolves t ht).relation with ⟨r, hr⟩
  exact ⟨_, (except_bind_ok _ _ _).mpr ⟨r, (except_mapError_ok _ _ _).mpr hr, rfl⟩⟩

/-- The scan does not fail if the relations and actors of all threads are known. -/
theorem firstRunnable_isOk (order : List Nat) (first : Option Nat) :
    ∃ found, app.firstRunnable s first order = .ok found := by
  -- By induction on what is still to be visited. The look-ups of every thread on the way succeed.
  induction order generalizing first with
  | nil => exact ⟨first, rfl⟩
  | cons i rest ih =>
      unfold firstRunnable
      split
      next => exact ih first
      next t ht =>
        have hmem := List.mem_of_getElem? ht
        have hcan : ∃ more, app.canRun t = .ok more := by
          unfold canRun
          split
          next => exact app.hasLeaving_isOk s hresolves t hmem
          next => exact ⟨false, rfl⟩
        rcases hcan with ⟨more, hmore⟩
        cases more with
        | false =>
            rcases ih first with ⟨found, hfound⟩
            exact ⟨found, (except_bind_ok _ _ _).mpr ⟨false, hmore, hfound⟩⟩
        | true =>
            rcases (hresolves t hmem).actor with ⟨actor, hactor⟩
            have hrest : ∃ found, (if actor.isObserver then pure (some i)
                else app.firstRunnable s (first.or (some i)) rest) = .ok found := by
              split
              next => exact ⟨some i, rfl⟩
              next => exact ih _
            rcases hrest with ⟨found, hfound⟩
            exact ⟨found, (except_bind_ok _ _ _).mpr ⟨true, hmore, (except_bind_ok _ _ _).mpr
              ⟨actor, (except_mapError_ok _ _ _).mpr hactor, hfound⟩⟩⟩

theorem nextThread_isOk (stepped : Nat) : ∃ found, app.nextThread s stepped = .ok found := by
  rcases app.firstRunnable_isOk s hresolves (turnOrder s.threads.length stepped) none with
    ⟨chosen, hscan⟩
  cases chosen with
  | some i => exact ⟨some i, (except_bind_ok _ _ _).mpr ⟨some i, hscan, rfl⟩⟩
  | none =>
      -- If nobody was chosen one more look-up follows, for the relation of the thread that stepped.
      have hable : ∃ more, app.canGoOn s stepped = .ok more := by
        unfold canGoOn
        split
        next t ht =>
          split
          next => exact app.hasLeaving_isOk s hresolves t (List.mem_of_getElem? ht)
          next => exact ⟨false, rfl⟩
        next => exact ⟨false, rfl⟩
      rcases hable with ⟨more, hmore⟩
      exact ⟨_, (except_bind_ok _ _ _).mpr
        ⟨none, hscan, (except_bind_ok _ _ _).mpr ⟨more, hmore, rfl⟩⟩⟩

end Election

end App

end ActorCheck

import ActorCheck.Proofs.Control.Faults
import ActorCheck.Proofs.Control.MidStep

/-!
# The Check of the Turn

After every choice of the next thread the scheduler checks that one thread runs at most
and that something leaves its place. The check succeeds. In the middle of a step only the
thread that takes it can be running. If it is in an atomic block it goes on, which it is
only let do when something leaves its place. Otherwise it gives its turn away, so that
nobody runs, and the thread that gets the turn has been seen to have somewhere to go.

## Theorems

* `ControlState.inStep_of_running`: The thread that runs is about to take a step.
* `App.checkTurn_ok`: What the check of the turn means.
* `App.checkTurn_of_grantTurn`: The thread that gets the turn passes the check.
* `App.faultless_passTurn`: Passing the turn ends in no fault.
* `App.singleChecks_of_passTurn`: Passing the turn adds nothing to what is waited for.
-/

namespace ActorCheck

namespace ControlState

variable {σ : Type} (s : ControlState σ)

/-- If no thread but the one at an index can be running, at most one thread is. -/
theorem length_running_le_one (index : Nat) (h : ∀ i ∈ s.running, i = index) :
    s.running.length ≤ 1 := by
  -- Those who run are listed once each, so a list of copies of one index has at most one member.
  have hsub : s.running.Sublist (s.threads.zipIdx.map Prod.snd) :=
    List.filter_sublist.map Prod.snd
  rw [List.zipIdx_map_snd] at hsub
  have hnodup : s.running.Nodup := List.Nodup.sublist hsub List.nodup_range'
  rw [List.eq_replicate_of_mem h, List.nodup_replicate] at hnodup
  exact hnodup

/-- The thread that runs is about to take a step. -/
theorem inStep_of_running (index : Nat) (hsingle : s.SingleChecks) (h : s.running = [index]) :
    s.InStep index := by
  have hindex : index ∈ s.running := by rw [h]; exact List.mem_singleton_self index
  rcases (s.mem_running index).mp hindex with ⟨t, ht, _⟩
  refine ⟨(List.getElem?_eq_some_iff.mp ht).1, fun i u hu hrun => ?_, hsingle⟩
  have hi := (s.mem_running i).mpr ⟨u, hu, hrun⟩
  rw [h] at hi
  exact List.mem_singleton.mp hi

theorem faultless_thread (index : Nat) (h : index < s.threads.length) :
    Faultless (s.thread index) := by
  unfold thread
  rw [List.getElem?_eq_getElem h]
  exact faultless_ok _

end ControlState

namespace App

variable {σ : Type} (app : App)

section Turns

theorem checkNotStuck_ok (s : ControlState σ) (index : Nat) : app.checkNotStuck s index = .ok ()
    ↔ ∃ t, s.threads[index]? = some t ∧ app.hasLeaving t = .ok true := by
  unfold checkNotStuck
  rw [except_bind_ok]
  refine exists_congr fun t => ?_
  rw [thread_ok, except_bind_ok]
  refine and_congr_right fun _ => ?_
  constructor
  · rintro ⟨more, hmore, h⟩
    cases more with
    | true => exact hmore
    | false => cases h
  · intro h
    exact ⟨true, h, rfl⟩

/-- The check of the turn: one thread runs at most, and it has somewhere to go. -/
theorem checkTurn_ok (s : ControlState σ) : app.checkTurn s = .ok ()
    ↔ s.running.length ≤ 1
      ∧ ∀ i ∈ s.running, ∃ t, s.threads[i]? = some t ∧ app.hasLeaving t = .ok true := by
  have hall : ∀ is : List Nat, is.forM (app.checkNotStuck s) = .ok ()
      ↔ ∀ i ∈ is, ∃ t, s.threads[i]? = some t ∧ app.hasLeaving t = .ok true := by
    intro is
    -- One check after the other, and the first that fails ends them.
    induction is with
    | nil => exact iff_of_true rfl fun i hi => absurd hi List.not_mem_nil
    | cons i is ih =>
        change (app.checkNotStuck s i >>= fun _ => is.forM (app.checkNotStuck s)) = .ok () ↔ _
        rw [except_bind_ok, List.forall_mem_cons, ← ih, ← checkNotStuck_ok]
        constructor
        · rintro ⟨_, h, h'⟩
          exact ⟨h, h'⟩
        · rintro ⟨h, h'⟩
          exact ⟨(), h, h'⟩
  unfold checkTurn
  split
  next hseveral => exact iff_of_false nofun fun h => absurd hseveral (Nat.not_lt.mpr h.1)
  next hone => exact (hall s.running).trans (and_iff_right (Nat.not_lt.mp hone)).symm

/-- The check succeeds if only the thread at an index can be running, and that one has
    somewhere to go. -/
theorem checkTurn_of_alone (s : ControlState σ) (index : Nat)
    (h : ∀ i t, s.threads[i]? = some t → t.status = .running →
      i = index ∧ app.hasLeaving t = .ok true) : app.checkTurn s = .ok () := by
  refine (checkTurn_ok app s).mpr ⟨s.length_running_le_one index fun i hi => ?_, fun i hi => ?_⟩
  · rcases (s.mem_running i).mp hi with ⟨t, ht, hrun⟩
    exact (h i t ht hrun).1
  · rcases (s.mem_running i).mp hi with ⟨t, ht, hrun⟩
    exact ⟨t, ht, (h i t ht hrun).2⟩

/-- If nobody runs, the thread that gets the turn passes the check. -/
theorem checkTurn_of_grantTurn (s s' : ControlState σ) (stepped : Nat)
    (hidle : ∀ t ∈ s.threads, t.status ≠ .running) (h : app.grantTurn s stepped = .ok s') :
    app.checkTurn s' = .ok () := by
  -- The turn goes to nobody, or to one thread with somewhere to go.
  rcases turned_of_grantTurn app s s' stepped h with rfl | ⟨index, t, ht, _, hleaves, rfl⟩
  · refine checkTurn_of_alone app s' stepped fun i u hu hrun => ?_
    exact absurd hrun (hidle u (List.mem_of_getElem? hu))
  · refine checkTurn_of_alone app _ index fun i u hu hrun => ?_
    unfold ControlState.setThread at hu
    by_cases hi : index = i
    · subst hi
      rw [List.getElem?_set_self (List.getElem?_eq_some_iff.mp ht).1] at hu
      cases hu
      exact ⟨rfl, (hasLeaving_of_place app t _ rfl).trans hleaves⟩
    · rw [List.getElem?_set_ne hi] at hu
      exact absurd hrun (hidle u (List.mem_of_getElem? hu))

/-- Once the thread that took the step has given its turn away, nobody runs. -/
theorem idle_of_giveTurnAway (s : ControlState σ) (index : Nat) (t : Thread) (more : Bool)
    (hs : s.InStep index) :
    ∀ u ∈ (s.setThread index (giveTurnAway more t)).threads, u.status ≠ .running := by
  -- Whichever of the three things becomes of it, it does not run.
  have haway : (giveTurnAway more t).status ≠ .running := by
    rcases giveTurnAway_cases more t with ⟨_, _, heq⟩ | ⟨_, _, heq⟩ | ⟨hnot, heq⟩
    · rw [heq]
      exact nofun
    · rw [heq]
      exact nofun
    · rw [heq]
      exact hnot
  intro u hu hrun
  rcases List.getElem?_of_mem hu with ⟨i, hi⟩
  unfold ControlState.setThread at hi
  by_cases hindex : index = i
  · subst hindex
    rw [List.getElem?_set_self hs.present] at hi
    cases hi
    exact haway hrun
  · rw [List.getElem?_set_ne hindex] at hi
    exact hindex (hs.alone i u hi hrun).symm

/-- Passing the turn in the middle of a step ends in no fault. -/
theorem faultless_passTurn (s : ControlState σ) (index : Nat) (hs : s.InStep index) :
    Faultless (app.passTurn s index) := by
  -- What was just checked is not checked in vain.
  have hchecked : ∀ u : ControlState σ, app.checkTurn u = .ok () →
      Faultless (app.checkTurn u >>= fun _ => pure u) := by
    intro u hu
    rw [hu]
    exact faultless_pure u
  rw [passTurn, faultless_bind]
  refine ⟨s.faultless_thread index hs.present, fun t ht => ?_⟩
  rw [thread_ok] at ht
  rw [faultless_bind]
  refine ⟨faultless_hasLeaving app t, fun more hmore => ?_⟩
  dsimp only
  split
  -- In an atomic block the thread keeps its turn, and something leaves its place.
  next hatomic =>
    rw [faultless_bind]
    refine ⟨faultless_pure s, fun u hu => hchecked u ?_⟩
    rw [← (except_pure_ok _ _).mp hu]
    rw [Bool.and_eq_true] at hatomic
    refine checkTurn_of_alone app s index fun i v hv hrun => ?_
    have hi := hs.alone i v hv hrun
    rw [hi, ht] at hv
    cases hv
    exact ⟨hi, hmore.trans (congrArg Except.ok hatomic.2)⟩
  next =>
    rw [faultless_bind]
    refine ⟨faultless_grantTurn app _ index, fun u hu => hchecked u ?_⟩
    exact checkTurn_of_grantTurn app _ u index (idle_of_giveTurnAway s index t more hs) hu

/-- Passing the turn adds nothing to what is waited for. -/
theorem singleChecks_of_passTurn (s s' : ControlState σ) (index : Nat) (hs : s.SingleChecks)
    (h : app.passTurn s index = .ok s') : s'.SingleChecks := by
  have hset : ∀ (u : ControlState σ) (i : Nat) (t v : Thread), u.SingleChecks →
      u.threads[i]? = some t → v.waitingFor = t.waitingFor → (u.setThread i v).SingleChecks := by
    intro u i t v hu ht hsame
    refine u.singleChecks_of_setThread i v hu ?_
    rw [hsame]
    exact hu t (List.mem_of_getElem? ht)
  have hgrant : ∀ u : ControlState σ, u.SingleChecks → app.grantTurn u index = .ok s' →
      s'.SingleChecks := by
    intro u hu hturn
    rcases turned_of_grantTurn app u s' index hturn with rfl | ⟨i, t, ht, _, _, rfl⟩
    · exact hu
    · exact hset u i t _ hu ht rfl
  rcases turned_of_passTurn app s s' index h with ⟨t, more, ht, _, _, ⟨rfl, _⟩ | hturn⟩
  · exact hs
  · refine hgrant _ (hset s index t _ hs ht ?_) hturn
    rcases giveTurnAway_cases more t with ⟨_, _, heq⟩ | ⟨_, _, heq⟩ | ⟨_, heq⟩
    · rw [heq]
    · rw [heq]
    · rw [heq]

end Turns

end App

end ActorCheck

import ActorCheck.Proofs.Control.TimedWaits

/-!
# Releases

Why a thread that waits comes to wait for less. In a step that does not start it again there are
two reasons. Somebody it waits for is done, and still is when the step is over. Or it waits for a
condition, and the relation of the condition thread was run in this very step and reached its exit.
When nothing is left to wait for, the thread can run, at the place where it stood.

The second reason is about what happens within the step, so the record of the step has to say it.
`Evaluation` is one way through the evaluation of the pending conditions, with the verdict on each
of them. `Concluded` is the end of a step with the verdicts that led to it. In contrast to
`Completed` it also says on which data the conditions were evaluated.

A verdict is about a condition thread of the state in which the step began. A condition thread that
the step itself has added has a number that nobody waited for before, and one that was found to
hold is waited for by nobody any more, so neither is a reason for anything.

## Main definitions

* `Thread.Eased`: A thread that waits for less, for a reason.
* `Scheduler.conditionRun`: The run of the relation of a condition thread.
* `Scheduler.Evaluation`: One way through the evaluation of pending conditions.
* `Scheduler.Concluded`: One way through the end of a step, with the verdicts on its conditions.

## Theorems

* `Scheduler.concluded_of_gives_complete`: Every end of a step has a record with verdicts.
* `Scheduler.eased_of_evaluation`: What the evaluation of conditions releases.
* `Scheduler.eased_of_concluded`: What the end of a step releases.
* `Session.released_for_a_reason`: What a step releases.
-/

namespace ActorCheck

/-- A thread after a change that makes it wait for less. Whoever it no longer waits for has a
    property, and if it does not wait any more, nobody is left and it can run where it stands. -/
structure Thread.Eased (P : ThreadId → Prop) (t u : Thread) : Prop where
  place : u.place = t.place
  fewer : ∀ id, id ∈ u.waitingFor → id ∈ t.waitingFor
  reason : ∀ id, id ∈ t.waitingFor → id ∉ u.waitingFor → P id
  freed : u.status ≠ .wait → u.waitingFor = ∅ ∧ (u.status = .yield ∨ u.status = .running)

namespace Thread

theorem eased_of_waiting (P : ThreadId → Prop) (t : Thread) (h : t.status = .wait) : t.Eased P t :=
  ⟨rfl, fun _ hid => hid, fun _ hid hnot => absurd hid hnot, fun hover => absurd h hover⟩

/-- A thread that is eased twice. The later change may have reasons of its own, but only for those
    who were waited for at the beginning. -/
theorem eased_trans (P Q R : ThreadId → Prop) (t u v : Thread) (h : t.Eased P u) (h' : u.Eased Q v)
    (hP : ∀ id, id ∈ t.waitingFor → P id → R id) (hQ : ∀ id, id ∈ t.waitingFor → Q id → R id) :
    t.Eased R v := by
  refine ⟨h'.place.trans h.place, fun id hid => h.fewer id (h'.fewer id hid), ?_, h'.freed⟩
  intro id hid hnot
  -- It was released by the first change or by the second one.
  by_cases hmid : id ∈ u.waitingFor
  · exact hQ id hid (h'.reason id hmid hnot)
  · exact hP id hid (h.reason id hid hmid)

end Thread

namespace App

variable (app : App)

/-- A thread with somewhere to go can run once its wait is over. -/
theorem wake_of_leaves (t u : Thread) (hleaves : app.hasLeaving t = .ok true)
    (h : app.wake t = .ok u) : u = { t with status := .yield } := by
  unfold wake at h
  rcases (except_bind_ok _ _ _).mp h with ⟨more, hmore, h⟩
  rw [hleaves] at hmore
  cases hmore
  exact ((except_pure_ok _ _).mp h).symm

/-- A waiting thread after those who are done were taken off its waiting set. -/
theorem eased_of_releaseWaiting (ts us : List Thread) (i : Nat) (t : Thread)
    (ht : ts[i]? = some t) (hwait : t.status = .wait) (hleaves : app.hasLeaving t = .ok true)
    (h : app.releaseWaiting ts = .ok us) :
    ∃ u, us[i]? = some u ∧ t.Eased (fun id => ∃ v ∈ ts, v.id = id ∧ v.status = .done) u := by
  rcases getElem?_of_forall₂_left _ ts us ((except_mapM_ok _ _ _).mp h) i t ht with ⟨u, hu, hone⟩
  refine ⟨u, hu, ?_⟩
  have hless : ∀ id, id ∈ t.waitingFor \ finishedIds ts → id ∈ t.waitingFor := fun id hid =>
    (Std.ExtTreeSet.mem_diff_iff.mp hid).1
  have hdone : ∀ id, id ∈ t.waitingFor → id ∉ t.waitingFor \ finishedIds ts →
      ∃ v ∈ ts, v.id = id ∧ v.status = .done := by
    intro id hid hnot
    by_contra hnone
    exact hnot (Std.ExtTreeSet.mem_diff_iff.mpr
      ⟨hid, fun hmem => hnone ((mem_finishedIds ts id).mp hmem)⟩)
  -- Nothing to take off, some left, or nobody left. Only in the last case the thread does not wait
  -- any more.
  cases app.reduced_of_releaseThread t u (finishedIds ts) hone with
  | kept => exact t.eased_of_waiting _ hwait
  | fewer => exact ⟨rfl, hless, hdone, fun hover => absurd hwait hover⟩
  -- Nobody is left, and there is somewhere to go.
  | awake _ nobodyLeft _ leaves =>
      rw [hleaves] at leaves
      cases leaves
      exact ⟨rfl, hless, hdone, fun _ => ⟨nobodyLeft, Or.inl rfl⟩⟩

/-- A thread that is done stays so when others are released. -/
theorem done_of_releaseWaiting (ts us : List Thread) (h : app.releaseWaiting ts = .ok us)
    (t : Thread) (ht : t ∈ ts) (hdone : t.status = .done) :
    ∃ u ∈ us, u.id = t.id ∧ u.status = .done := by
  rcases mem_of_forall₂_left _ ts us ((except_mapM_ok _ _ _).mp h) t ht with ⟨u, hu, hone⟩
  refine ⟨u, hu, ?_⟩
  cases app.reduced_of_releaseThread t u (finishedIds ts) hone with
  | kept => exact ⟨rfl, hdone⟩
  | fewer => exact ⟨rfl, hdone⟩
  | awake waits =>
      rw [hdone] at waits
      cases waits

/-- A thread that was eased and does not give its turn away is still eased when the turn was
    passed. -/
theorem eased_of_passTurn {σ : Type} (s s' : ControlState σ) (index i : Nat) (hne : index ≠ i)
    (P : ThreadId → Prop) (t u : Thread) (hu : s.threads[i]? = some u) (h : t.Eased P u)
    (hturn : app.passTurn s index = .ok s') : ∃ v, s'.threads[i]? = some v ∧ t.Eased P v := by
  rcases app.turn_of_passTurn s s' index i u hu (fun heq => absurd heq hne) hturn with
    hsame | ⟨hactive, hgranted⟩
  · exact ⟨u, hsame, h⟩
  -- To get the turn the thread must have been able to run, so its wait was over before.
  · have hover : u.status ≠ .wait := by
      rcases hactive with hstatus | hstatus
      · rw [hstatus]
        exact nofun
      · rw [hstatus]
        exact nofun
    exact ⟨_, hgranted, h.place, h.fewer, h.reason, fun _ => ⟨(h.freed hover).1, Or.inr rfl⟩⟩

theorem done_of_passTurn {σ : Type} (s s' : ControlState σ) (index : Nat)
    (h : app.passTurn s index = .ok s') (t : Thread) (ht : t ∈ s.threads)
    (hdone : t.status = .done) : t ∈ s'.threads := by
  rcases List.getElem?_of_mem ht with ⟨i, hi⟩
  have hidle : t.status ≠ .running ∧ t.status ≠ .yield := by
    rw [hdone]
    exact ⟨nofun, nofun⟩
  rcases app.turn_of_passTurn s s' index i t hi (fun _ => hidle) h with hsame | ⟨hactive, _⟩
  · exact List.mem_of_getElem? hsame
  · exact absurd hactive (not_or.mpr hidle)

end App

namespace Scheduler

variable {σ : Type}

/-- The run of the relation of a condition thread on some data: where it ends, and whether at the
    exit. -/
def conditionRun (c : Control σ) (app : App) (q : Thread) (data : σ) :
    Except AnalysisError (List (σ × Bool)) := do
  let r ← app.relationOf q.place.relation
  let actor ← app.actorNamed q.actor
  let scope ← app.localScope q.place
  let scoping := Scoping.new actor scope
  let runner : Runner σ :=
    ⟨c.analysis, actor.concern, app.operationOf, fun op => ofScope (scoping.operation op)⟩
  runner.runAlong r q.place.location data

/-- One way through the evaluation of pending conditions, each in the state that the ones before it
    have led to. The verdicts say of which condition threads the relation was run, and whether the
    run that was followed ended at the exit. -/
inductive Evaluation (c : Control σ) (app : App) :
    List (Nat × ThreadId) → ControlState σ → List (Thread × Bool) → ControlState σ → Prop where
  | done (s : ControlState σ) : Evaluation c app [] s [] s
  /-- There is no condition thread with the number. -/
  | absent (waiter : Nat) (checker : ThreadId) (rest : List (Nat × ThreadId))
      (s u : ControlState σ) (verdicts : List (Thread × Bool))
      (missing : ∀ q ∈ s.conditions, q.id ≠ checker) (later : Evaluation c app rest s verdicts u) :
      Evaluation c app ((waiter, checker) :: rest) s verdicts u
  | fails (waiter : Nat) (rest : List (Nat × ThreadId)) (s u : ControlState σ)
      (verdicts : List (Thread × Bool)) (q : Thread) (results : List (σ × Bool)) (data : σ)
      (condition : q ∈ s.conditions) (run : conditionRun c app q s.data = .ok results)
      (result : (data, false) ∈ results)
      (later : Evaluation c app rest { s with data := data } verdicts u) :
      Evaluation c app ((waiter, q.id) :: rest) s ((q, false) :: verdicts) u
  | holds (waiter : Nat) (rest : List (Nat × ThreadId)) (s next u : ControlState σ)
      (verdicts : List (Thread × Bool)) (position : Nat) (q : Thread)
      (results : List (σ × Bool)) (data : σ) (condition : s.conditions[position]? = some q)
      (run : conditionRun c app q s.data = .ok results) (result : (data, true) ∈ results)
      (settle : settleCondition app { s with data := data } waiter position q = .ok next)
      (later : Evaluation c app rest next verdicts u) :
      Evaluation c app ((waiter, q.id) :: rest) s ((q, true) :: verdicts) u

/-- The data on which the conditions are evaluated. The clock is moved if nobody can run
    otherwise. -/
inductive EvaluatedOn (c : Control σ) (k : Scheduler) (s : ControlState σ) : σ → Prop where
  | still (busy : progresses s = true) : EvaluatedOn c k s s.data
  | forward (script : ScriptId) (a : Acceleration) (k' : Scheduler)
      (moved : List (ControlState σ)) (data : σ) (idle : progresses s = false)
      (waits : clockWait? k.accelerations s.conditions = some (script, a))
      (clock : Gives (fastForward c s script a) k moved k')
      (result : { s with data := data } ∈ moved) : EvaluatedOn c k s data

/-- The state after the condition threads were looked at, with the verdicts on them. -/
inductive Examined (c : Control σ) (k k' : Scheduler) (s u : ControlState σ)
    (verdicts : List (Thread × Bool)) : Prop where
  | none (empty : s.conditions = []) (same : u = s) (nothing : verdicts = [])
  | evaluated (data : σ) (pending : List (Nat × ThreadId)) (b : ControlState σ)
      (moved : EvaluatedOn c k s data)
      (waiting : pendingConditions { s with data := data } = .ok pending)
      (evaluation : Evaluation c k'.app pending { s with data := data } verdicts b)
      (result : u = dropConditions (pending.map Prod.snd) b)

/-- One way through the end of a step, which begins when the data analysis has brought the data to
    `data`, with the verdicts on the conditions. -/
inductive Concluded (c : Control σ) (k k' : Scheduler) (concern : Concern) (s : ControlState σ)
    (index : Nat) (t : Thread) (data : σ) (verdicts : List (Thread × Bool)) (s' : ControlState σ) :
    Prop where
  | intro (threads started released : List Thread) (u : ControlState σ)
      (finish : k.app.finishThreads (s.setThread index { t with operations := [] }).threads
        = .ok threads)
      (start : k.app.startMonitors concern threads = .ok started)
      (release : k.app.releaseWaiting started = .ok released)
      (examined : Examined c k k' (afterStep s index released data) u verdicts)
      (turn : k'.app.passTurn u index = .ok s')

section Records

theorem evaluateCondition_absent (c : Control σ) (app : App) (s : ControlState σ) (waiter : Nat)
    (checker : ThreadId) (h : ∀ q ∈ s.conditions, q.id ≠ checker) :
    evaluateCondition c app s waiter checker = .ok [s] := by
  unfold evaluateCondition
  split
  · rfl
  next q position hfind =>
    have hid : q.id = checker := by simpa using List.find?_some hfind
    have hq := List.mem_zipIdx_iff_getElem?.mp (List.mem_of_find?_eq_some hfind)
    exact absurd hid (h q (List.mem_of_getElem? hq))

/-- The evaluation of a condition comes down to the run of the relation of its condition thread. -/
theorem conditionRun_of_evaluateCondition (c : Control σ) (app : App) (s : ControlState σ)
    (waiter : Nat) (checker : ThreadId) (found : List (ControlState σ)) (q₀ : Thread)
    (hq₀ : q₀ ∈ s.conditions) (hid₀ : q₀.id = checker)
    (h : evaluateCondition c app s waiter checker = .ok found) (b : ControlState σ)
    (hb : b ∈ found) :
    ∃ (position : Nat) (q : Thread) (results : List (σ × Bool)) (data : σ) (holds : Bool),
      s.conditions[position]? = some q ∧ q.id = checker
        ∧ conditionRun c app q s.data = .ok results ∧ (data, holds) ∈ results
        ∧ (if holds then settleCondition app { s with data := data } waiter position q
          else .ok { s with data := data }) = .ok b := by
  -- The condition thread that is found is one with the number, not necessarily the one that was
  -- given.
  unfold evaluateCondition at h
  split at h
  next hnone =>
    rcases List.getElem?_of_mem hq₀ with ⟨i, hi⟩
    have hnot := List.find?_eq_none.mp hnone (q₀, i) (List.mem_zipIdx_iff_getElem?.mpr hi)
    exact absurd (beq_iff_eq.mpr hid₀) hnot
  next q position hfind =>
    have hid : q.id = checker := by simpa using List.find?_some hfind
    have hq := List.mem_zipIdx_iff_getElem?.mp (List.mem_of_find?_eq_some hfind)
    rcases (except_bind_ok _ _ _).mp h with ⟨r, hr, h⟩
    rcases (except_bind_ok _ _ _).mp h with ⟨actor, hactor, h⟩
    rcases (except_bind_ok _ _ _).mp h with ⟨scope, hscope, h⟩
    rcases (except_bind_ok _ _ _).mp h with ⟨results, hresults, h⟩
    rcases mem_of_forall₂_right _ results found ((except_mapM_ok _ _ _).mp h) b hb with
      ⟨⟨data, holds⟩, hmem, hb⟩
    refine ⟨position, q, results, data, holds, hq, hid, ?_, hmem, hb⟩
    unfold conditionRun
    exact (except_bind_ok _ _ _).mpr ⟨r, hr, (except_bind_ok _ _ _).mpr ⟨actor, hactor,
      (except_bind_ok _ _ _).mpr ⟨scope, hscope, hresults⟩⟩⟩

variable [DecidableEq σ]

/-- Every result of the evaluation of pending conditions has a record. The induction is over the
    conditions that are left. -/
theorem evaluation_of_evaluatePending (c : Control σ) (app : App) (pending : List (Nat × ThreadId))
    (alternatives found : List (ControlState σ))
    (h : evaluatePending c app pending alternatives = .ok found) (u : ControlState σ)
    (hu : u ∈ found) : ∃ s ∈ alternatives, ∃ verdicts, Evaluation c app pending s verdicts u := by
  induction pending generalizing alternatives with
  | nil =>
      cases h
      exact ⟨u, hu, [], .done u⟩
  | cons p rest ih =>
      rcases p with ⟨waiter, checker⟩
      unfold evaluatePending at h
      rcases (except_bind_ok _ _ _).mp h with ⟨results, hresults, h⟩
      rcases ih _ h with ⟨b, hb, verdicts, hlater⟩
      rcases List.mem_flatten.mp (mem_of_mem_distinct _ b hb) with ⟨bs, hbs, hb⟩
      rcases mem_of_forall₂_right _ _ _ ((except_mapM_ok _ _ _).mp hresults) bs hbs with
        ⟨s, hs, heval⟩
      refine ⟨s, hs, ?_⟩
      -- The condition may have gone while others were evaluated, and then it is passed over.
      by_cases hthere : ∃ q ∈ s.conditions, q.id = checker
      · rcases hthere with ⟨q₀, hq₀, hid₀⟩
        rcases conditionRun_of_evaluateCondition c app s waiter checker bs q₀ hq₀ hid₀ heval b hb
          with ⟨position, q, found, data, holds, hq, rfl, hrun, hmem, hnext⟩
        cases holds with
        | false =>
            cases hnext
            exact ⟨_, .fails waiter rest s u verdicts q found data (List.mem_of_getElem? hq) hrun
              hmem hlater⟩
        | true =>
            exact ⟨_, .holds waiter rest s b u verdicts position q found data hq hrun hmem hnext
              hlater⟩
      · have hmissing : ∀ q ∈ s.conditions, q.id ≠ checker := fun q hq hid => hthere ⟨q, hq, hid⟩
        rw [evaluateCondition_absent c app s waiter checker hmissing] at heval
        cases heval
        rw [List.mem_singleton.mp hb] at hlater
        exact ⟨verdicts, .absent waiter checker rest s u verdicts hmissing hlater⟩

theorem examined_of_evaluateConditions (c : Control σ) (k k' : Scheduler) (s u : ControlState σ)
    (data : σ) (hdata : EvaluatedOn c k s data) (found : List (ControlState σ))
    (h : evaluateConditions c k'.app { s with data := data } = .ok found) (hu : u ∈ found) :
    ∃ verdicts, Examined c k k' s u verdicts := by
  rcases pending_of_evaluateConditions c k'.app _ u found h hu with
    ⟨pending, alternatives, b, hpending, halternatives, hb, rfl⟩
  rcases evaluation_of_evaluatePending c k'.app pending _ alternatives halternatives b hb with
    ⟨a, ha, verdicts, hevaluation⟩
  rw [List.mem_singleton.mp ha] at hevaluation
  exact ⟨verdicts, .evaluated data pending b hdata hpending hevaluation rfl⟩

theorem examined_of_gives_runConditions (c : Control σ) (s u : ControlState σ) (k k' : Scheduler)
    (woken : List (ControlState σ)) (h : Gives (runConditions c s) k woken k') (hu : u ∈ woken) :
    ∃ verdicts, Examined c k k' s u verdicts := by
  -- No conditions, somebody who can run, or the clock is moved for the only condition. Anything
  -- else is an error.
  unfold runConditions at h
  split at h
  next hempty =>
    rcases (gives_pure _ _ _ _).mp h with ⟨rfl, rfl⟩
    exact ⟨[], .none (List.isEmpty_iff.mp hempty) (List.mem_singleton.mp hu) rfl⟩
  next =>
    split at h
    next hbusy =>
      rw [gives_program_bind] at h
      rcases (gives_lookUp _ _ _ _).mp h with ⟨hfound, rfl⟩
      exact examined_of_evaluateConditions c k k s u s.data (.still hbusy) woken hfound hu
    next hidle =>
      rcases (gives_bind _ _ _ _ _).mp h with ⟨k₀, k₁, hk, h⟩
      cases hk
      dsimp only at h
      split at h
      next script a hwait =>
        rcases (gives_bind _ _ _ _ _).mp h with ⟨moved, k₂, hmoved, h⟩
        rw [gives_program_bind] at h
        rcases (gives_bind _ _ _ _ _).mp h with ⟨found, k₄, hgives, h⟩
        rcases (gives_pure _ _ _ _).mp h with ⟨rfl, rfl⟩
        rcases gives_mapM_lookUp _ moved k₂ k₄ found hgives with ⟨hfound, rfl⟩
        rcases List.mem_flatten.mp hu with ⟨results, hresults, hu⟩
        rcases mem_of_forall₂_right _ _ _ ((except_mapM_ok _ _ _).mp hfound) results hresults with
          ⟨t, ht, heval⟩
        rcases data_of_gives_fastForward c s script a _ k₂ moved hmoved t ht with ⟨data, rfl⟩
        exact examined_of_evaluateConditions c k k₂ s u data
          (.forward script a k₂ moved data (Bool.not_eq_true _ ▸ hidle) hwait hmoved ht) results
          heval hu
      next => exact absurd h (not_gives_throw _ _ _ _)

/-- Every end of a step has a record with verdicts. -/
theorem concluded_of_gives_complete (c : Control σ) (s : ControlState σ) (index : Nat)
    (t : Thread) (concern : Concern) (data : σ) (k k' : Scheduler) (next : List (ControlState σ))
    (h : Gives (complete c s index t concern data) k next k') (s' : ControlState σ)
    (hs' : s' ∈ next) : ∃ verdicts, Concluded c k k' concern s index t data verdicts s' := by
  unfold complete at h
  rw [gives_program_bind] at h
  rcases (gives_lookUp_bind _ _ _ _ _).mp h with ⟨threads, hfinish, h⟩
  rcases (gives_bind _ _ _ _ _).mp h with ⟨woken, k₃, hwoken, h⟩
  rw [gives_program_bind] at h
  rcases gives_mapM_lookUp _ woken k₃ k' next h with ⟨hturns, rfl⟩
  rcases mem_of_forall₂_right _ _ _ ((except_mapM_ok _ _ _).mp hturns) s' hs' with ⟨u, hu, hturn⟩
  unfold wakeAll at hwoken
  rw [gives_program_bind] at hwoken
  rcases (gives_lookUp_bind _ _ _ _ _).mp hwoken with ⟨started, hstart, hwoken⟩
  rcases (gives_lookUp_bind _ _ _ _ _).mp hwoken with ⟨released, hrelease, hwoken⟩
  rcases examined_of_gives_runConditions c _ u k k₃ woken hwoken hu with ⟨verdicts, hexamined⟩
  exact ⟨verdicts, .intro threads started released u hfinish hstart hrelease hexamined hturn⟩

end Records

section Evaluate

variable (c : Control σ) (app : App)

/-- What settling a condition changes. -/
theorem settled_of_settleCondition (s next : ControlState σ) (waiter position : Nat) (q : Thread)
    (h : settleCondition app s waiter position q = .ok next) :
    next.conditions = s.conditions.set position { q with status := .done }
      ∧ ((s.threads[waiter]? = none ∧ next.threads = s.threads)
        ∨ ∃ t u, s.threads[waiter]? = some t ∧ conditionHolds app q.id t = .ok u
          ∧ next.threads = s.threads.set waiter u) := by
  unfold settleCondition at h
  dsimp only at h
  split at h
  next t ht =>
    rcases (except_bind_ok _ _ _).mp h with ⟨u, hu, h⟩
    cases (except_pure_ok _ _).mp h
    exact ⟨rfl, Or.inr ⟨t, u, ht, hu, rfl⟩⟩
  next hnone =>
    cases (except_pure_ok _ _).mp h
    exact ⟨rfl, Or.inl ⟨hnone, rfl⟩⟩

/-- Threads that wait for no pending condition are as before. -/
theorem untouched_of_evaluation (pending : List (Nat × ThreadId)) (s u : ControlState σ)
    (verdicts : List (Thread × Bool)) (h : Evaluation c app pending s verdicts u) (i : Nat)
    (hi : i ∉ pending.map Prod.fst) : u.threads[i]? = s.threads[i]? := by
  -- By induction on the evaluation. Only a condition that holds touches a thread, and that is its
  -- waiter.
  induction h with
  | done s => rfl
  | absent waiter checker rest s u verdicts _ _ ih =>
      exact ih fun hmem => hi (List.mem_cons_of_mem _ hmem)
  | fails waiter rest s u verdicts q results data _ _ _ _ ih =>
      exact ih fun hmem => hi (List.mem_cons_of_mem _ hmem)
  | holds waiter rest s next u verdicts position q results data _ _ _ hsettle _ ih =>
      have hne : waiter ≠ i := fun heq => hi (heq ▸ List.mem_cons_self)
      rw [ih fun hmem => hi (List.mem_cons_of_mem _ hmem)]
      rcases (settled_of_settleCondition app _ next waiter position q hsettle).2 with
        ⟨_, hthreads⟩ | ⟨t, v, _, _, hthreads⟩
      · rw [hthreads]
      · rw [hthreads]
        exact List.getElem?_set_ne hne

/-- A thread when a condition that it waits for was found to hold. -/
theorem eased_of_conditionHolds (checker : ThreadId) (t u : Thread)
    (hleaves : app.hasLeaving t = .ok true)
    (hover : t.status ≠ .wait → t.waitingFor = ∅ ∧ (t.status = .yield ∨ t.status = .running))
    (h : conditionHolds app checker t = .ok u) :
    t.Eased (fun id => id = checker) u ∧ checker ∉ u.waitingFor := by
  have herased := mem_erase_iff t.waitingFor checker
  have hfewer : ∀ id, id ∈ t.waitingFor.erase checker → id ∈ t.waitingFor := fun id hid =>
    ((herased id).mp hid).2
  have hreason : ∀ id, id ∈ t.waitingFor → id ∉ t.waitingFor.erase checker → id = checker := by
    intro id hid hnot
    by_contra hne
    exact hnot ((herased id).mpr ⟨hne, hid⟩)
  have hgone : checker ∉ t.waitingFor.erase checker := fun hid => ((herased checker).mp hid).1 rfl
  unfold conditionHolds at h
  dsimp only at h
  split at h
  next hempty =>
    have hrest : app.hasLeaving { t with waitingFor := t.waitingFor.erase checker } = .ok true :=
      (app.hasLeaving_of_place t _ rfl).trans hleaves
    rw [app.wake_of_leaves _ u hrest h]
    exact ⟨⟨rfl, hfewer, hreason, fun _ => ⟨Std.ExtTreeSet.isEmpty_iff.mp hempty, Or.inl rfl⟩⟩,
      hgone⟩
  next hsome =>
    cases h
    refine ⟨⟨rfl, hfewer, hreason, fun hstatus => ?_⟩, hgone⟩
    rcases hover hstatus with ⟨hfree, hactive⟩
    refine ⟨(awaited_eq_empty _).mpr fun id hid => ?_, hactive⟩
    exact (awaited_eq_empty _).mp hfree id (hfewer id hid)

/-- What the evaluation of conditions releases. The thread at an index waits for no condition that
    another thread waits for, and the condition threads that it waits for are among `conditions`.
    The induction is over the evaluation, and these two facts carry it. -/
theorem eased_of_evaluation (pending : List (Nat × ThreadId)) (s u : ControlState σ)
    (verdicts : List (Thread × Bool)) (h : Evaluation c app pending s verdicts u)
    (conditions : List Thread) (i : Nat) (t : Thread) (ht : s.threads[i]? = some t)
    (hleaves : app.hasLeaving t = .ok true)
    (hover : t.status ≠ .wait → t.waitingFor = ∅ ∧ (t.status = .yield ∨ t.status = .running))
    (hothers : ∀ p ∈ pending, p.1 ≠ i → p.2 ∉ t.waitingFor)
    (hconditions : ∀ q ∈ s.conditions, q.id ∈ t.waitingFor → q ∈ conditions) :
    ∃ v, u.threads[i]? = some v
      ∧ t.Eased (fun id => ∃ q ∈ conditions, q.id = id ∧ (q, true) ∈ verdicts) v := by
  -- The thread is generalized, since a condition that holds takes something off its waiting set.
  induction h generalizing t with
  | done s => exact ⟨t, ht, rfl, fun _ hid => hid, fun _ hid hnot => absurd hid hnot, hover⟩
  | absent waiter checker rest s u verdicts _ _ ih =>
      exact ih t ht hleaves hover (fun p hp => hothers p (List.mem_cons_of_mem _ hp)) hconditions
  | fails waiter rest s u verdicts q results data _ _ _ _ ih =>
      rcases ih t ht hleaves hover (fun p hp => hothers p (List.mem_cons_of_mem _ hp)) hconditions
        with ⟨v, hv, heased⟩
      refine ⟨v, hv, heased.place, heased.fewer, fun id hid hnot => ?_, heased.freed⟩
      rcases heased.reason id hid hnot with ⟨p, hp, hpid, hverdict⟩
      exact ⟨p, hp, hpid, List.mem_cons_of_mem _ hverdict⟩
  | holds waiter rest s next u verdicts position q results data hq _ _ hsettle _ ih =>
      rcases settled_of_settleCondition app _ next waiter position q hsettle with
        ⟨hnext, hthreads⟩
      -- The condition thread that is done is not waited for by this thread any more.
      have hkept : ∀ w : Thread, (∀ id, id ∈ w.waitingFor → id ∈ t.waitingFor) →
          q.id ∉ w.waitingFor → ∀ p ∈ next.conditions, p.id ∈ w.waitingFor → p ∈ conditions := by
        intro w hfewer hgone p hp hpid
        rw [hnext] at hp
        rcases List.mem_or_eq_of_mem_set hp with hp | rfl
        · exact hconditions p hp (hfewer _ hpid)
        · exact absurd hpid hgone
      have hrest : ∀ w : Thread, (∀ id, id ∈ w.waitingFor → id ∈ t.waitingFor) →
          ∀ p ∈ rest, p.1 ≠ i → p.2 ∉ w.waitingFor := fun w hfewer p hp hne hid =>
        hothers p (List.mem_cons_of_mem _ hp) hne (hfewer _ hid)
      by_cases hwaiter : waiter = i
      · subst hwaiter
        rcases hthreads with ⟨hnone, _⟩ | ⟨t', w, ht', hholds, hthreads⟩
        · rw [show s.threads[waiter]? = none from hnone] at ht
          cases ht
        · rw [show s.threads[waiter]? = some t' from ht'] at ht
          cases ht
          rcases eased_of_conditionHolds app q.id t w hleaves hover hholds with ⟨hw, hgone⟩
          have hnextThread : next.threads[waiter]? = some w := by
            rw [hthreads]
            exact List.getElem?_set_self (List.getElem?_eq_some_iff.mp ht').1
          rcases ih w hnextThread ((app.hasLeaving_of_place t w hw.place).trans hleaves) hw.freed
            (hrest w hw.fewer) (hkept w hw.fewer hgone) with ⟨v, hv, heased⟩
          refine ⟨v, hv, t.eased_trans _ _ _ w v hw heased ?_ ?_⟩
          · rintro id hid rfl
            exact ⟨q, hconditions q (List.mem_of_getElem? hq) hid, rfl, List.mem_cons_self⟩
          · rintro id _ ⟨p, hp, hpid, hverdict⟩
            exact ⟨p, hp, hpid, List.mem_cons_of_mem _ hverdict⟩
      · have hnextThread : next.threads[i]? = some t := by
          rcases hthreads with ⟨_, hthreads⟩ | ⟨t', w, _, _, hthreads⟩
          · rw [hthreads]
            exact ht
          · rw [hthreads]
            exact (List.getElem?_set_ne hwaiter).trans ht
        rcases ih t hnextThread hleaves hover (hrest t fun _ hid => hid)
          (hkept t (fun _ hid => hid) (hothers _ List.mem_cons_self hwaiter)) with ⟨v, hv, heased⟩
        refine ⟨v, hv, heased.place, heased.fewer, fun id hid hnot => ?_, heased.freed⟩
        rcases heased.reason id hid hnot with ⟨p, hp, hpid, hverdict⟩
        exact ⟨p, hp, hpid, List.mem_cons_of_mem _ hverdict⟩

/-- A thread that is done stays so when the conditions are looked at. -/
theorem done_of_examined (k k' : Scheduler) (s u : ControlState σ) (verdicts : List (Thread × Bool))
    (h : Examined c k k' s u verdicts) (t : Thread) (ht : t ∈ s.threads)
    (hdone : t.status = .done) : t ∈ u.threads := by
  cases h with
  | none _ hsame _ =>
      rw [hsame]
      exact ht
  | evaluated data pending b _ hpending hevaluation hresult =>
      rcases List.getElem?_of_mem ht with ⟨i, hi⟩
      -- Whoever is done does not wait, so no condition is pending for it.
      have hidle : i ∉ pending.map Prod.fst := by
        intro hmem
        rcases List.mem_map.mp hmem with ⟨⟨waiter, checker⟩, hp, rfl⟩
        rcases (mem_pendingConditions _ pending hpending waiter checker).mp hp with
          ⟨t', ht', hwait, _⟩
        rw [show s.threads[waiter]? = some t' from ht'] at hi
        cases hi
        rw [hdone] at hwait
        cases hwait
      rw [hresult]
      refine List.mem_of_getElem? (i := i) ?_
      exact (untouched_of_evaluation c k'.app pending _ b verdicts hevaluation i hidle).trans hi

/-- What the end of a step releases of a thread that waits. It has not taken the step itself, and
    it is not started again as a monitor. -/
theorem eased_of_concluded (k k' : Scheduler) (hext : k.app.Extends k'.app)
    (hdrawn : k.app.RelationsDrawn) (concern : Concern) (s s' : ControlState σ) (index : Nat)
    (t : Thread) (data : σ) (verdicts : List (Thread × Bool)) (hs : k.app.Coherent s)
    (ht : s.threads[index]? = some t)
    (h : Concluded c k k' concern s index t data verdicts s') (i : Nat) (hne : index ≠ i)
    (u : Thread) (hu : s.threads[i]? = some u) (hwait : u.status = .wait)
    (hleaves : k.app.hasLeaving u = .ok true)
    (hmonitor : concern = .program → ¬ k.app.IsMonitor u) :
    ∃ v, s'.threads[i]? = some v ∧ u.Eased (fun id =>
      (∃ w ∈ s'.threads, w.id = id ∧ w.status = .done)
        ∨ ∃ q ∈ s.conditions, q.id = id ∧ (q, true) ∈ verdicts) v := by
  rcases h with ⟨threads, started, released, looked, hfinish, hstart, hrelease, hexamined, hturn⟩
  have hcleared := coherent_of_cleared k.app s hs index t ht
  have hlinked := (App.released_of_phases k.app concern _ threads started released s.conditions
    hcleared.linked hfinish hstart hrelease).linked
  -- Until somebody is released, the thread is as it was.
  have hfinished := k.app.stays_of_finishThreads _ threads i u
    ((List.getElem?_set_ne hne).trans hu) hleaves hfinish
  have hstarted :=
    k.app.stays_of_startMonitors threads started i u hfinished concern hmonitor hstart
  rcases k.app.eased_of_releaseWaiting started released i u hstarted hwait hleaves hrelease with
    ⟨v, hv, heased⟩
  -- Whoever was done then is done in the end.
  have hdone : ∀ id, (∃ w ∈ started, w.id = id ∧ w.status = .done) →
      ∃ w ∈ s'.threads, w.id = id ∧ w.status = .done := by
    rintro id ⟨w, hw, rfl, hstatus⟩
    rcases k.app.done_of_releaseWaiting started released hrelease w hw hstatus with
      ⟨x, hx, hid, hxdone⟩
    refine ⟨x, k'.app.done_of_passTurn looked s' index hturn x ?_ hxdone, hid, hxdone⟩
    exact done_of_examined c k k' _ looked verdicts hexamined x hx hxdone
  have hlooked : ∃ w, looked.threads[i]? = some w ∧ v.Eased (fun id =>
      ∃ q ∈ s.conditions, q.id = id ∧ (q, true) ∈ verdicts) w := by
    cases hexamined with
    | none _ hsame _ =>
        rw [hsame]
        exact ⟨v, hv, rfl, fun _ hid => hid, fun _ hid hnot => absurd hid hnot, heased.freed⟩
    | evaluated moved pending b _ hpending hevaluation hresult =>
        rw [hresult]
        refine eased_of_evaluation c k'.app pending _ b verdicts hevaluation s.conditions i v hv ?_
          heased.freed ?_ fun q hq _ => hq
        · refine App.hasLeaving_of_extends k.app k'.app hext hdrawn v true ?_
          exact (k.app.hasLeaving_of_place u v heased.place).trans hleaves
        -- Nobody else waits for a condition thread of this thread.
        · rintro ⟨waiter, checker⟩ hp hother hid
          rcases (mem_pendingConditions _ pending hpending waiter checker).mp hp with
            ⟨w, hw, _, hin, q, hq, rfl⟩
          exact hother (hlinked.single q hq waiter i w v hw hv hin hid)
  rcases hlooked with ⟨w, hw, heased'⟩
  exact k'.app.eased_of_passTurn looked s' index i hne _ u w hw
    (u.eased_trans _ _ _ v w heased heased' (fun id _ h => Or.inl (hdone id h))
      fun _ _ h => Or.inr h) hturn

/-- The condition threads after a statement are those before it, apart from one with a new
    number. -/
theorem conditions_of_effect (before after : App) (s s' : ControlState σ) (index : Nat) (t : Thread)
    (statement : Statement) (h : Effect before after s index t statement s') :
    ∀ q ∈ s'.conditions, q ∈ s.conditions ∨ before.supply.next ≤ q.id := by
  intro q hq
  -- Only a timed wait adds a condition thread, and its number is newly drawn.
  cases h with
  | paused args result checker ops hnew _ _ =>
      rcases List.mem_append.mp hq with hq | hq
      · exact Or.inl hq
      · rw [List.mem_singleton.mp hq]
        exact Or.inr hnew
  | _ => exact Or.inl hq

end Evaluate

end Scheduler

namespace Session

variable {σ : Type} [DecidableEq σ]

/-- Why waiting threads wait for less after a step. Every step ends with verdicts on the conditions
    that were pending. A thread that waited, and that the step does not start again, waits for no
    more than before. Whoever it no longer waits for is a thread that is done, or a condition thread
    whose relation was run in this step up to its exit. If the thread does not wait any more, it
    waits for nobody, and it can run or runs where it stood. -/
theorem released_for_a_reason (c : Control σ) (app : App) (hdrawn : app.RelationsDrawn)
    (x : Session σ) (h : Explored c app x) (k : Scheduler) (m : Move σ) (hs : m.source ∈ x.found)
    (w : Scheduler.Passage c x.scheduler k m) :
    ∃ verdicts, Scheduler.Concluded c w.k₄ w.k₅ w.actor.concern w.s₁ m.index w.t₁ w.data verdicts
        m.target
      ∧ ∀ (i : Nat) (t : Thread), m.source.threads[i]? = some t → t.status = .wait →
        ¬ m.Restarts k.app t → ∃ u, m.target.threads[i]? = some u ∧ t.Eased (fun id =>
          (∃ v ∈ m.target.threads, v.id = id ∧ v.status = .done)
            ∨ ∃ q ∈ m.source.conditions, q.id = id ∧ (q, true) ∈ verdicts) u := by
  rcases Scheduler.concluded_of_gives_complete c w.s₁ m.index w.t₁ w.actor.concern w.data w.k₄ w.k₅
    w.next w.completed m.target w.reached with ⟨verdicts, hconcluded⟩
  refine ⟨verdicts, hconcluded, fun i t ht hwait hstays => ?_⟩
  -- The program grows from one phase to the next.
  rcases Scheduler.related_of_passage Scheduler.additive_extends c x.scheduler k m w with
    ⟨hext₁, hext₂, hext₃, hext₄⟩
  have hdrawn₀ := App.relationsDrawn_of_extends _ _ (extends_of_explored c app x h) hdrawn
  have hdrawn₁ := App.relationsDrawn_of_extends _ _ hext₁ hdrawn₀
  have hdrawn₂ := App.relationsDrawn_of_extends _ _ hext₂ hdrawn₁
  have hlast := App.extends_trans _ _ _ hext₄ w.grown
  have hafter := App.extends_trans _ _ _ hext₂ (App.extends_trans _ _ _ hext₃ hlast)
  have hbefore := App.extends_trans _ _ _ hext₁ (App.extends_trans _ _ _ hext₂ hext₃)
  have hawaiting := awaiting_of_explored c app hdrawn x h m.source hs
  have hruns := m.source.isRunning_of_running m.index w.t w.running w.thread
  have hne : m.index ≠ i := by
    intro heq
    have hthread := w.thread
    rw [heq, ht] at hthread
    cases hthread
    rw [hwait] at hruns
    cases hruns
  -- The statement leaves the thread alone.
  rcases Scheduler.effect_of_passage c x.scheduler k m w with ⟨loops, heffect⟩
  have hthread := (Scheduler.untouched_of_effect _ _ _ _ _ _ _ heffect i hne t
    ((List.getElem?_set_ne hne).trans ht) hwait fun message script name hsends hscript hname => by
      by_contra hmatches
      exact hstays ⟨script, App.scriptOf_of_extends _ _ hafter t script hscript,
        Or.inr ⟨message, name, hsends, hname, Bool.not_eq_false _ ▸ hmatches⟩⟩).1
  have hcoherent := Scheduler.coherent_of_gives_follow m.source m.index m.edge.1 m.edge.2 w.t w.k₁
    w.k₂ _ hdrawn₁ (App.coherent_of_extends _ _ hext₁ hdrawn₀ m.source
      (Scheduler.coherent_of_awaiting _ m.source hawaiting)) w.thread hruns w.followed
    (w.s₁, w.settled) (List.mem_append_right _ List.mem_cons_self)
  have hleaves := hawaiting.leaves t (List.mem_of_getElem? ht) hwait
  have hmonitor : w.actor.concern = .program → ¬ w.k₄.app.IsMonitor t := by
    rintro hconcern ⟨script, hscript, hevent⟩
    refine hstays ⟨script, App.scriptOf_of_extends _ _ hlast t script hscript, Or.inl ⟨hevent, w.t,
      w.actor, w.thread, ?_, hconcern⟩⟩
    rw [App.actorNamed_of_extends _ _ (App.extends_trans _ _ _ hbefore hlast)]
    exact w.acting
  rcases Scheduler.eased_of_concluded c w.k₄ w.k₅ hext₄
    (App.relationsDrawn_of_extends _ _ hext₃ hdrawn₂) w.actor.concern w.s₁ m.target m.index w.t₁
    w.data verdicts (App.coherent_of_extends _ _ hext₃ hdrawn₂ w.s₁ hcoherent) w.moved hconcluded i
    hne t hthread hwait (App.hasLeaving_of_extends _ _ hbefore hdrawn₀ t true hleaves) hmonitor with
    ⟨u, hu, heased⟩
  refine ⟨u, hu, heased.place, heased.fewer, fun id hid hnot => ?_, heased.freed⟩
  -- Nobody has waited for a condition thread that the statement has added.
  refine (heased.reason id hid hnot).imp_right ?_
  rintro ⟨q, hq, rfl, hverdict⟩
  rcases Scheduler.conditions_of_effect _ _ _ _ _ _ _ heffect q hq with hold | hnew
  · exact ⟨q, hold, rfl, hverdict⟩
  · have hdrawnId := hawaiting.linked.awaited t (List.mem_of_getElem? ht) q.id hid
    exact absurd (Nat.le_trans hext₁.supply hnew) (Nat.not_le_of_lt hdrawnId)

/-- The asker of a relay goes on because the answerer is done. -/
theorem released_for_a_reason_relay : ∃ (m : Move Unit) (k : Scheduler) (t u : Thread),
    Nonempty (Scheduler.Passage .indifferent (relaySession (pausing 1) [.epsilon] 2).scheduler k m)
      ∧ m.source.threads[0]? = some t ∧ t.status = .wait ∧ t.waitingFor ≠ ∅
      ∧ m.target.threads[0]? = some u ∧ u.waitingFor = ∅ ∧ u.place = t.place
      ∧ ∀ id, id ∈ t.waitingFor → ∃ v ∈ m.target.threads, v.id = id ∧ v.status = .done := by
  let x := relaySession (pausing 1) [.epsilon]
  rcases passage_of_expandLast .indifferent (x 2) (by decide +kernel) with
    ⟨m, k, hsource, htarget, hexpand, ⟨w⟩⟩
  have hk : (x 3).scheduler = k := by
    rw [show x 3 = (x 2).expandLast .indifferent from rfl, hexpand, expand_eq, scheduler_extend,
      w.whole]
  have hwaits : ∀ s ∈ (x 2).found.getLast?, s.conditions = [] ∧ ∃ t ∈ s.threads[0]?,
      t.status = .wait ∧ t.waitingFor ≠ ∅
        ∧ ∃ script ∈ ((x 3).scheduler.app.scriptOf t).toOption, script.event = .bootstrap := by
    decide +kernel
  have hruns : ∀ s ∈ (x 3).found.getLast?, ∃ t ∈ s.threads[0]?, t.status = .running := by
    decide +kernel
  rcases hwaits m.source hsource with ⟨hnone, t, ht, hwait, hsome, hscript⟩
  rw [hk] at hscript
  rcases (released_for_a_reason .indifferent _ (App.relationsDrawn_of_draft _ _) (x 2)
    (explored_relaySession _ _ _) k m (List.mem_of_getLast? hsource) w).choose_spec.2 0 t ht hwait
    (not_restarts_of_bootstrap _ m t hscript) with ⟨u, hu, heased⟩
  rcases hruns m.target htarget with ⟨v, hv, hrunning⟩
  rw [Option.mem_def.mp hv] at hu
  cases hu
  have hfree := (heased.freed (by rw [hrunning]; exact nofun)).1
  refine ⟨m, k, t, u, ⟨w⟩, ht, hwait, hsome, hv, hfree, heased.place, fun id hid => ?_⟩
  rcases heased.reason id hid ((awaited_eq_empty _).mp hfree id) with hdone | ⟨q, hq, _⟩
  · exact hdone
  · rw [hnone] at hq
    cases hq

end Session

end ActorCheck

import ActorCheck.Program.Draft
import ActorCheck.Proofs.Control.Lanes
import ActorCheck.Proofs.Data.Stores
import Mathlib.Algebra.GroupWithZero.Nat

/-!
# Straight Lines Run in Rounds

Cooperative threads that only concern the data take turns in a strict order: the first thread
begins, and after each statement the turn goes to the cyclically next thread that has a statement
left. `roundRobin` computes this order from the lengths of the threads alone, and the scheduler
follows it to the end.

Two things are kept by every move of a run. What has been executed and what is ahead make up the
statements of each lane, and the turns taken so far continue with the turns that the lengths of
what is ahead give rise to. `Progress` says both. A run that has made progress either goes on in
one way, with one statement less ahead, or nothing is ahead any more.

## Main definitions

* `nextInTurn`, `turns`, `roundRobin`: The order of turns, from numbers of statements.
* `Scheduler.Determined`: Every statement has one feasible successor in every state of a run.
* `executed`: What a thread has executed.
* `Scheduler.RunsInTurn`: What is promised about a run.

## Theorems

* `ControlState.nextThread_of_underway`: The scheduler follows the order.
* `Scheduler.step_of_underway`: The only step from a state, and what it leads to.
* `Scheduler.progress_of_journey`: Every run makes progress.
* `Scheduler.runs_in_turn`: The promise is kept by every run, and some run comes to the end.
-/

namespace ActorCheck

/-- Whose turn is next: the cyclically next thread behind the current one that has statements
    left, where the current one comes last. -/
def nextInTurn (left : List Nat) (current : Nat) : Option Nat :=
  ((List.range left.length).map fun offset => (current + 1 + offset) % left.length).find?
    fun j => decide (0 < left.getD j 0)

/-- So many turns, beginning with the current thread. Each takes one statement off what is left of
    the thread. -/
def turns : Nat → List Nat → Option Nat → List Nat
  | steps + 1, left, some current =>
    let rest := left.modify current fun n => n - 1
    current :: turns steps rest (nextInTurn rest current)
  | _, _, _ => []

/-- The order of turns of threads with so many statements. -/
def roundRobin (lengths : List Nat) : List Nat := turns lengths.sum lengths (some 0)

example : roundRobin [2, 1, 3] = [0, 1, 2, 0, 2, 2] := by decide

section Turns

theorem length_of_nextInTurn (left : List Nat) (current j : Nat)
    (h : nextInTurn left current = some j) : ∃ n, left[j]? = some (n + 1) := by
  have hsome := of_decide_eq_true
    (List.find?_some (p := fun j => decide (0 < left.getD j 0)) h)
  rw [List.getD_eq_getElem?_getD] at hsome
  -- Out of range nothing would be left, and such an index is not chosen.
  cases hj : left[j]? with
  | none =>
      rw [hj] at hsome
      exact absurd hsome (Nat.lt_irrefl 0)
  | some n =>
      rw [hj] at hsome
      exact ⟨n - 1, congrArg some (Nat.sub_add_cancel hsome).symm⟩

/-- If it is nobody's turn, nobody has anything left. -/
theorem eq_zero_of_nextInTurn (left : List Nat) (current : Nat)
    (h : nextInTurn left current = none) : ∀ n ∈ left, n = 0 := by
  intro n hn
  rcases List.getElem?_of_mem hn with ⟨j, hj⟩
  have hmem := (App.mem_turnOrder left.length current j).mpr (List.getElem?_eq_some_iff.mp hj).1
  have hnot := List.find?_eq_none.mp h j hmem
  rw [List.getD_eq_getElem?_getD, hj, decide_eq_true_eq] at hnot
  exact Nat.eq_zero_of_not_pos hnot

/-- The first turn is that of the first thread, if it has something to do. -/
theorem nextInTurn_first (n : Nat) (rest : List Nat) :
    nextInTurn ((n + 1) :: rest) rest.length = some 0 := by
  unfold nextInTurn
  rw [List.length_cons, List.range_succ_eq_map, List.map_cons, Nat.add_zero, Nat.mod_self]
  exact List.find?_cons_of_pos (decide_eq_true (Nat.succ_pos n))

/-- One statement less is ahead in total. -/
theorem sum_lengths_set (ahead : List (List Operation)) (i : Nat) (op : Operation)
    (ops : List Operation) (h : ahead[i]? = some (op :: ops)) :
    (ahead.map List.length).sum = ((ahead.set i ops).map List.length).sum + 1 := by
  -- The index is passed down until the list is reached that loses its head.
  induction ahead generalizing i with
  | nil => cases h
  | cons first rest ih =>
      cases i with
      | zero =>
          cases h
          simp only [List.set_cons_zero, List.map_cons, List.sum_cons, List.length_cons]
          omega
      | succ i =>
          simp only [List.set_cons_succ, List.map_cons, List.sum_cons, ih i h]
          omega

/-- The current thread takes its turn. -/
theorem turns_of_ahead (ahead : List (List Operation)) (i : Nat) (op : Operation)
    (ops : List Operation) (h : ahead[i]? = some (op :: ops)) :
    turns (ahead.map List.length).sum (ahead.map List.length) (some i)
      = i :: turns ((ahead.set i ops).map List.length).sum ((ahead.set i ops).map List.length)
        (nextInTurn ((ahead.set i ops).map List.length) i) := by
  have hrest : (ahead.map List.length).modify i (fun n => n - 1)
      = (ahead.set i ops).map List.length := by
    rw [List.modify_eq_set_getElem?, List.getElem?_map, h, List.map_set]
    rfl
  rw [sum_lengths_set ahead i op ops h, turns, hrest]

end Turns

namespace ControlState

variable {σ : Type} (app : App) (lanes : List Lane) (h : app.Fleet lanes)
  (ahead : List (List Operation)) (s : ControlState σ)

include h

/-- The scheduler follows the order of turns. -/
theorem nextThread_of_underway (hs : s.Underway lanes ahead none) (stepped : Nat)
    (hstepped : stepped < lanes.length) :
    app.nextThread s stepped = .ok (nextInTurn (ahead.map List.length) stepped) := by
  have hcount : s.threads.length = (ahead.map List.length).length := by
    rw [List.length_map, hs.threads, hs.rows]
  unfold nextInTurn
  rw [← hcount]
  -- The search is the same, over whether an operation is ahead instead of whether a thread can run.
  refine app.nextThread_eq s _ stepped (hs.threads ▸ hstepped) fun i t ht => ?_
  rcases hs.row i t ht with ⟨lane, ops, hlane, hops, hon, hstatus⟩
  have hmem := List.mem_of_getElem? hlane
  have hcan : decide (0 < (ahead.map List.length).getD i 0) = !ops.isEmpty := by
    rw [List.getD_eq_getElem?_getD, List.getElem?_map, hops]
    cases ops with
    | nil => rfl
    | cons op ops => rfl
  have hobserves := t.observes_of_follows _ _ _ hon.follows app
    (app.runs_of_fleet lanes h lane hmem)
  rw [(h.lane lane hmem).plain] at hobserves
  refine ⟨fun hruns => ?_, ?_, fun _ => hobserves⟩
  · exact statusAt_none_ne_running i ops (hstatus.symm.trans hruns)
  · rw [hcan]
    exact t.canRun_of_onLane app lanes h lane hmem ops hon i hstatus

end ControlState

/-- What the thread at an index has executed in some moves. -/
def executed {σ : Type} (moves : List (Move σ)) (i : Nat) : List Operation :=
  (moves.filter fun m => m.index == i).flatMap Move.operations

theorem executed_append {σ : Type} (moves : List (Move σ)) (m : Move σ) (i : Nat) :
    executed (moves ++ [m]) i = executed moves i ++ if m.index = i then m.operations else [] := by
  unfold executed
  rw [List.filter_append, List.flatMap_append]
  by_cases h : m.index = i
  · simp [h]
  · simp [h]

namespace Scheduler

variable {σ : Type} [DecidableEq σ]

/-- In every state of a run the data analysis gives every statement of the lanes one feasible
    successor. -/
def Determined (c : Control σ) (app : App) (data : σ) (lanes : List Lane) : Prop :=
  ∀ moves k s, Journey c app data moves k s → ∀ lane ∈ lanes, ∀ op ∈ lane.statements,
    ∃ found d, c.analysis.run s.data [op] lane.actor.concern = .ok found
      ∧ found.filter c.analysis.isFeasible = [d]

/-- How many statements there are in all lanes. -/
def total (lanes : List Lane) : Nat := (lanes.map fun lane => lane.operations.length).sum

/-- The order of turns of some lanes. -/
def order (lanes : List Lane) : List Nat :=
  roundRobin (lanes.map fun lane => lane.operations.length)

/-- What is promised about a run that has made some moves. -/
structure RunsInTurn (c : Control σ) (lanes : List Lane) (moves : List (Move σ)) (k : Scheduler)
    (s : ControlState σ) : Prop where
  bounded : moves.length ≤ total lanes
  turns : moves.map Move.index <+: order lanes
  marked : ∀ m ∈ moves, m.target.stepped = some m.index
  own : ∀ i lane, lanes[i]? = some lane → executed moves i <+: lane.statements
  /-- Until all statements are executed, the state has one successor. -/
  going : moves.length < total lanes → ∃ next, Gives (successors c s) k [next] k
  /-- Then it has none, and everybody has executed everything. -/
  ended : moves.length = total lanes → Gives (successors c s) k [] k
    ∧ moves.map Move.index = order lanes
    ∧ ∀ i lane, lanes[i]? = some lane → executed moves i = lane.statements

/-- How far a run has come. -/
structure Progress (lanes : List Lane) (moves : List (Move σ)) (k : Scheduler)
    (s : ControlState σ) (ahead : List (List Operation)) (current : Option Nat) : Prop where
  fleet : k.app.Fleet lanes
  underway : s.Underway lanes ahead current
  turns : moves.map Move.index
    ++ turns (ahead.map List.length).sum (ahead.map List.length) current = order lanes
  marked : ∀ m ∈ moves, m.target.stepped = some m.index
  count : moves.length + (ahead.map List.length).sum = total lanes
  busy : ∀ i, current = some i → ∃ op ops, ahead[i]? = some (op :: ops)
  idle : current = none → (ahead.map List.length).sum = 0
  own : ∀ i lane ops, lanes[i]? = some lane → ahead[i]? = some ops →
    ∃ left, ops.mapM lane.scoping.operation = .ok left ∧ executed moves i ++ left = lane.statements

section Steps

variable (c : Control σ) (lanes : List Lane) (k : Scheduler) (s : ControlState σ)
  (ahead : List (List Operation))

/-- The only step from a state in which some operation is ahead of the current thread, and what it
    leads to. -/
theorem step_of_underway (hplain : c.config.aggregateAtomicTransitions = false)
    (hk : k.app.Fleet lanes) (i : Nat) (hs : s.Underway lanes ahead (some i)) (lane : Lane)
    (hlane : lanes[i]? = some lane) (op : Operation) (ops : List Operation)
    (hops : ahead[i]? = some (op :: ops)) (placed : Operation)
    (hplaced : lane.scoping.operation op = .ok placed) (found : List σ) (d : σ)
    (hfound : c.analysis.run s.data [placed] lane.actor.concern = .ok found)
    (hd : found.filter c.analysis.isFeasible = [d]) :
    ∃ next, LooksUp (successors c s) k (.ok [next]) ∧ next.stepped = some i
      ∧ next.Underway lanes (ahead.set i ops) (nextInTurn ((ahead.set i ops).map List.length) i)
      ∧ ∀ k' (m : Move σ), Passage c k k' m → m.source = s →
        m.index = i ∧ m.operations = [placed] := by
  have hmem := List.mem_of_getElem? hlane
  rcases s.thread_of_underway lanes ahead _ hs i _ hops with ⟨t, lane', ht, hlane', hon, _⟩
  rw [hlane] at hlane'
  cases hlane'
  have hquiet := s.quiet_of_underway k.app lanes hk ahead i hs t ht lane hlane
  have hr := t.relationOf_of_follows _ _ _ hon.follows k.app
    (k.app.runs_of_fleet lanes hk lane hmem)
  have hop : op ∈ lane.operations := hon.part.subset List.mem_cons_self
  rcases t.way_of_onLane k.app lanes hk lane hmem op ops hon placed hplaced with
    ⟨next, last, hedges, hline, hall, hdata⟩
  let target : Place := { t.place with location := next }
  -- Whoever is next is known from what is ahead after the step.
  let who := nextInTurn ((ahead.set i ops).map List.length) i
  have hrested : ∀ data, (k.app.rested s i t target data).Underway lanes (ahead.set i ops) none :=
    fun data => s.underway_rested k.app lanes hk ahead i hs t ht lane hlane op ops hops next last
      hline data
  have hi := (List.getElem?_eq_some_iff.mp hlane).1
  refine ⟨(k.app.rested s i t target d).granted who, ?_, ?_, ?_, fun k' m w hm => ?_⟩
  -- The step is a mere look-up, so all that matters is which edge there is and what comes of its
  -- operation.
  · have hsteps := looksUp_successors k c s i t lane.actor hquiet hplain hon.follows.free
      lane.relation hr
      (by rw [Flow.hasEdgesFrom_eq, hedges]; rfl) ?_ (fun _ => who) ?_
    · have hone : (do
          let states ← c.analysis.run s.data [placed] lane.actor.concern
          return (states.filter c.analysis.isFeasible).map fun data =>
            (k.app.rested s i t target data).granted who)
          = .ok [(k.app.rested s i t target d).granted who] := by
        rw [hfound]
        change Except.ok (List.map _ (found.filter c.analysis.isFeasible)) = _
        rw [hd]
        rfl
      refine hsteps.trans (congrArg (fun e => (e, k)) ?_)
      exact (except_bind_ok _ _ _).mpr ⟨_, hall, (except_bind_ok _ _ _).mpr
        ⟨_, (except_mapM_ok _ _ _).mpr (.cons hone .nil), rfl⟩⟩
    · intro edge hin op' hop'
      rw [hedges] at hin
      cases List.mem_singleton.mp hin
      rw [(hk.lane lane hmem).known op hop] at hop'
      cases hop'
      exact (hk.lane lane hmem).ofData op hop
    · intro edge hin data
      rw [hedges] at hin
      cases List.mem_singleton.mp hin
      exact ControlState.nextThread_of_underway k.app lanes hk _ _ (hrested data) i hi
  · exact ControlState.stepped_granted _ who
  · refine ControlState.underway_granted lanes _ _ (hrested d) who fun j hj => ?_
    rcases length_of_nextInTurn _ i j hj with ⟨n, hn⟩
    have hlt := (List.getElem?_eq_some_iff.mp hn).1
    rw [List.length_map] at hlt
    exact (hrested d).rows ▸ hlt
  · refine move_of_passage k c s i t lane.actor hquiet m k' w hm (placed, target) ?_ lane.relation
      hr hdata
    rw [k.app.leaving_eq s t lane.relation lane.actor hr hquiet.acting hs.unbound]
    exact hall

/-- Nobody goes on if it is nobody's turn. -/
theorem gives_of_idle (hplain : c.config.aggregateAtomicTransitions = false)
    (hs : s.Underway lanes ahead none) : Gives (successors c s) k [] k := by
  -- Nobody runs, since it is nobody's turn.
  have hidle : s.running = [] := by
    refine List.eq_nil_iff_forall_not_mem.mpr fun i hi => ?_
    rcases (s.mem_running i).mp hi with ⟨t, ht, hruns⟩
    exact s.idle_of_underway lanes ahead hs t (List.mem_of_getElem? ht) hruns
  have htarget : s.isTarget = false := by
    unfold ControlState.isTarget
    rw [hs.noTarget]
    rfl
  exact looksUp_successors_idle k c s hplain htarget hidle

/-- A run that has made progress goes on in one way, and makes progress by it. -/
theorem step_of_progress (hplain : c.config.aggregateAtomicTransitions = false)
    (hdetermined : ∀ lane ∈ lanes, ∀ op ∈ lane.statements, ∃ found d,
      c.analysis.run s.data [op] lane.actor.concern = .ok found
        ∧ found.filter c.analysis.isFeasible = [d])
    (moves : List (Move σ)) (i : Nat) (p : Progress lanes moves k s ahead (some i)) :
    ∃ next, Gives (successors c s) k [next] k
      ∧ ∀ k' (m : Move σ), Passage c k k' m → m.source = s →
        ∃ ahead' current', Progress lanes (moves ++ [m]) k' m.target ahead' current' := by
  rcases p.busy i rfl with ⟨op, ops, hops⟩
  rcases s.thread_of_underway lanes ahead _ p.underway i _ hops with ⟨t, lane, _, hlane, hon, _⟩
  rcases p.own i lane _ hlane hops with ⟨left, hleft, hown⟩
  rcases List.forall₂_cons_left_iff.mp ((except_mapM_ok _ _ _).mp hleft) with
    ⟨placed, rest, hplaced, hrest, rfl⟩
  have hmem : placed ∈ lane.statements := by
    rw [← hown]
    exact List.mem_append_right _ List.mem_cons_self
  rcases hdetermined lane (List.mem_of_getElem? hlane) placed hmem with ⟨found, d, hfound, hd⟩
  rcases step_of_underway c lanes k s ahead hplain p.fleet i p.underway lane hlane op ops hops
    placed hplaced found d hfound hd with ⟨next, hsteps, hstepped, hnext, hmove⟩
  refine ⟨next, hsteps, fun k' m w hm => ?_⟩
  rcases hmove k' m w hm with ⟨hindex, hoperations⟩
  -- The move leads to the only successor, and the program is as it was.
  have hwhole := w.whole
  rw [hm] at hwhole
  have hsame := hwhole.symm.trans hsteps
  have htarget := w.offered
  rw [Except.ok.inj (congrArg Prod.fst hsame), List.mem_singleton] at htarget
  have hk' : k' = k := congrArg Prod.snd hsame
  rw [htarget, hk']
  refine ⟨ahead.set i ops, nextInTurn ((ahead.set i ops).map List.length) i, p.fleet, hnext, ?_, ?_,
    ?_, ?_, ?_, ?_⟩
  -- The first of the turns that are left was this one.
  · have hturns := p.turns
    rw [turns_of_ahead ahead i op ops hops] at hturns
    rw [← hturns, List.map_append, List.append_assoc, ← hindex]
    rfl
  · refine List.forall_mem_append.mpr ⟨p.marked, List.forall_mem_singleton.mpr ?_⟩
    rw [htarget, hstepped, hindex]
  · rw [List.length_append, List.length_singleton, ← p.count, sum_lengths_set ahead i op ops hops]
    omega
  -- Whose turn is next has an operation left, by the way in which the next one is chosen.
  · intro j hj
    rcases length_of_nextInTurn _ i j hj with ⟨n, hn⟩
    rw [List.getElem?_map, Option.map_eq_some_iff] at hn
    rcases hn with ⟨more, hmore, hlength⟩
    rcases List.exists_cons_of_length_eq_add_one hlength with ⟨op', ops', rfl⟩
    exact ⟨op', ops', hmore⟩
  · exact fun hnone => List.sum_eq_zero_iff_forall_eq_nat.mpr (eq_zero_of_nextInTurn _ i hnone)
  · intro j lane' ops' hlane' hops'
    rw [executed_append, hindex]
    -- Only the thread that has moved has executed one more operation, the first of those that were
    -- left.
    by_cases hij : i = j
    · subst hij
      rw [hlane] at hlane'
      cases hlane'
      rw [List.getElem?_set_self (List.getElem?_eq_some_iff.mp hops).1] at hops'
      cases hops'
      refine ⟨rest, (except_mapM_ok _ _ _).mpr hrest, ?_⟩
      rw [if_pos rfl, hoperations, List.append_assoc, List.singleton_append]
      exact hown
    · rw [List.getElem?_set_ne hij] at hops'
      rw [if_neg hij, List.append_nil]
      exact p.own j lane' ops' hlane' hops'

omit [DecidableEq σ] in
/-- A fleet starts, and the first thread has the first turn. -/
theorem progress_of_start (app : App) (data : σ) (hsome : lanes ≠ []) (h : app.Fleet lanes) :
    ∃ k s, Gives (startState data) (Scheduler.new app) s k
      ∧ Progress lanes ([] : List (Move σ)) k s (lanes.map Lane.operations) (some 0) := by
  rcases underway_of_initialThreads lanes (Scheduler.new app) h data with
    ⟨threads, k, hthreads, hk, hs⟩
  have hlengths : (lanes.map Lane.operations).map List.length
      = lanes.map fun lane => lane.operations.length := List.map_map
  have hpositive : 0 < lanes.length := List.length_pos_iff.mpr hsome
  have hbusy : ∀ (i : Nat) (lane : Lane), lanes[i]? = some lane →
      ∃ op ops, (lanes.map Lane.operations)[i]? = some (op :: ops) := by
    intro i lane hlane
    rcases List.exists_cons_of_ne_nil (h.lane lane (List.mem_of_getElem? hlane)).something with
      ⟨op, ops, hops⟩
    exact ⟨op, ops, by rw [List.getElem?_map, hlane, ← hops]; rfl⟩
  -- The scan begins behind the last thread, so it comes to the first one at once.
  have hwho : nextInTurn ((lanes.map Lane.operations).map List.length) (lanes.length - 1)
      = some 0 := by
    cases lanes with
    | nil => exact absurd rfl hsome
    | cons lane rest =>
        rcases hbusy 0 lane rfl with ⟨op, ops, hops⟩
        have hfirst : lane.operations = op :: ops := Option.some.inj hops
        rw [hlengths, List.map_cons, hfirst, List.length_cons]
        have := nextInTurn_first ops.length (rest.map fun lane => lane.operations.length)
        rwa [List.length_map] at this
  have hnext := ControlState.nextThread_of_underway k.app lanes hk _ _ hs (lanes.length - 1)
    (Nat.sub_lt hpositive Nat.one_pos)
  rw [hwho] at hnext
  have hcount : threads.length = lanes.length := hs.threads
  refine ⟨k, (ControlState.new threads data).granted (some 0), ?_, hk,
    ControlState.underway_granted lanes _ _ hs (some 0) fun i hi => ?_, ?_, nofun, ?_,
    fun i hi => ?_, nofun, fun i lane ops hlane hops => ?_⟩
  · exact gives_startState _ k threads data hthreads
      (ControlState.idle_of_underway lanes _ _ hs) (some 0) (hcount ▸ hnext)
  · cases hi
    exact hpositive
  · rw [hlengths]
    rfl
  · rw [hlengths]
    exact Nat.zero_add _
  · cases hi
    exact hbusy 0 _ (List.getElem?_eq_getElem hpositive)
  · rw [List.getElem?_map, hlane] at hops
    cases hops
    exact ⟨lane.statements, (h.lane lane (List.mem_of_getElem? hlane)).placed, rfl⟩

/-- Every run makes progress. -/
theorem progress_of_journey (hplain : c.config.aggregateAtomicTransitions = false) (app : App)
    (data : σ) (hsome : lanes ≠ []) (h : app.Fleet lanes)
    (hdetermined : Determined c app data lanes)
    (moves : List (Move σ)) (hj : Journey c app data moves k s) :
    ∃ ahead current, Progress lanes moves k s ahead current := by
  -- By induction on the run. What is carried along is how far each lane has come and whose turn it
  -- is.
  induction hj with
  | start k s hgives =>
      rcases progress_of_start lanes app data hsome h with ⟨k', s', hgives', p⟩
      cases hgives.symm.trans hgives'
      exact ⟨_, _, p⟩
  | move moves m k k' before w ih =>
      rcases ih with ⟨ahead, current, p⟩
      cases current with
      -- Nobody's turn means that the state has no successors, so there was no move.
      | none =>
          have hnone :=
            w.whole.symm.trans (gives_of_idle c lanes k m.source ahead hplain p.underway)
          have hoffered := w.offered
          rw [Except.ok.inj (congrArg Prod.fst hnone)] at hoffered
          cases hoffered
      | some i =>
          rcases step_of_progress c lanes k m.source ahead hplain
            (hdetermined moves k m.source before) moves i p with ⟨_, _, hmove⟩
          exact hmove k' m w rfl

/-- A run that makes progress keeps the promise. -/
theorem runsInTurn_of_progress (hplain : c.config.aggregateAtomicTransitions = false)
    (hdetermined : ∀ lane ∈ lanes, ∀ op ∈ lane.statements, ∃ found d,
      c.analysis.run s.data [op] lane.actor.concern = .ok found
        ∧ found.filter c.analysis.isFeasible = [d])
    (moves : List (Move σ)) (current : Option Nat) (p : Progress lanes moves k s ahead current) :
    RunsInTurn c lanes moves k s := by
  have hcount := p.count
  have hrow : ∀ (i : Nat) (lane : Lane), lanes[i]? = some lane → ∃ ops, ahead[i]? = some ops := by
    intro i lane hlane
    have hlt := (List.getElem?_eq_some_iff.mp hlane).1
    rw [← p.underway.rows] at hlt
    exact ⟨_, List.getElem?_eq_getElem hlt⟩
  refine ⟨by omega, ⟨_, p.turns⟩, p.marked, fun i lane hlane => ?_, fun hless => ?_,
    fun hend => ?_⟩
  · rcases hrow i lane hlane with ⟨ops, hops⟩
    rcases p.own i lane ops hlane hops with ⟨left, _, hown⟩
    exact ⟨left, hown⟩
  · cases current with
    | none =>
        have hnone := p.idle rfl
        omega
    | some i =>
        rcases step_of_progress c lanes k s ahead hplain hdetermined moves i p with ⟨next, hnext, _⟩
        exact ⟨next, hnext⟩
  -- As many statements as there are have been executed, so every lane has come to its end.
  · have hzero : (ahead.map List.length).sum = 0 := by omega
    have hnothing : ∀ ops ∈ ahead, ops = [] := fun ops hops => List.eq_nil_of_length_eq_zero
      (List.sum_eq_zero_iff_forall_eq_nat.mp hzero _ (List.mem_map_of_mem hops))
    have hcurrent : current = none := by
      cases hturn : current with
      | none => rfl
      | some i =>
          rcases p.busy i hturn with ⟨op, ops, hops⟩
          cases hnothing _ (List.mem_of_getElem? hops)
    subst hcurrent
    refine ⟨gives_of_idle c lanes k s ahead hplain p.underway, ?_, fun i lane hlane => ?_⟩
    · have hturns := p.turns
      rw [hzero] at hturns
      rw [← hturns]
      exact (List.append_nil _).symm
    · rcases hrow i lane hlane with ⟨ops, hops⟩
      rcases p.own i lane ops hlane hops with ⟨left, hleft, hown⟩
      rw [hnothing ops (List.mem_of_getElem? hops), List.mapM_nil, except_pure_ok] at hleft
      rw [← hown, ← hleft, List.append_nil]

/-- Straight lines run in rounds: every run of a fleet follows the order of turns, with one way to
    go on until all statements are executed, and some run comes to the end. -/
theorem runs_in_turn (hplain : c.config.aggregateAtomicTransitions = false) (app : App) (data : σ)
    (hsome : lanes ≠ []) (h : app.Fleet lanes) (hdetermined : Determined c app data lanes) :
    (∃ moves k s, Journey c app data moves k s ∧ moves.length = total lanes)
      ∧ ∀ moves k s, Journey c app data moves k s → RunsInTurn c lanes moves k s := by
  have hall : ∀ moves k s, Journey c app data moves k s → RunsInTurn c lanes moves k s := by
    intro moves k s hj
    rcases progress_of_journey c lanes k s hplain app data hsome h hdetermined moves hj with
      ⟨ahead, current, p⟩
    exact runsInTurn_of_progress c lanes k s ahead hplain (hdetermined moves k s hj) moves current p
  -- By induction on the length: as long as statements are left there is a move, which makes the run
  -- longer by one.
  have hreach : ∀ n ≤ total lanes, ∃ moves k s, Journey c app data moves k s
      ∧ moves.length = n := by
    intro n hn
    induction n with
    | zero =>
        rcases progress_of_start lanes app data hsome h with ⟨k, s, hgives, _⟩
        exact ⟨[], k, s, .start k s hgives, rfl⟩
    | succ n ih =>
        rcases ih (Nat.le_of_succ_le hn) with ⟨moves, k, s, hj, rfl⟩
        rcases (hall moves k s hj).going hn with ⟨next, hnext⟩
        rcases passage_of_gives_successors c s next k k [next] hnext List.mem_cons_self with
          ⟨index, edge, operations, ⟨w⟩⟩
        exact ⟨_, k, next, .move moves ⟨s, index, edge, operations, next⟩ k k hj w,
          List.length_append⟩
  exact ⟨hreach _ (Nat.le_refl _), hall⟩

end Steps

section Convoy

/-- A number that every ship has for itself. -/
def cargo : Variable := ⟨"cargo", .number, .unqualified⟩

/-- An actor with a script. -/
def ship (name : ActorName) (n : Nat) : ActorDraft :=
  ⟨name, .program, none, [], [], [], [(.bootstrap, n)]⟩

/-- The program of two ships, the first of which has two statements and the second one. -/
def convoy : App :=
  (AppDraft.build
    { name := "convoy"
      relations := [
        .sequence [.store cargo (.num 1), .store cargo (.num 2)],
        .sequence [.declare cargo]]
      actors := [ship "first" 0, ship "second" 1] }).run (App.new "convoy") |>.2

/-- The lane of a ship, from the numbers that were drawn for it. -/
def convoyLane (name : ActorName) (script first : Nat) (operations : List Operation) : Lane :=
  let relation := match ((Relation.sequence (operations.map Operation.id)).run ⟨first⟩).1 with
    | .ok r => r
    | .error _ => ⟨Flow.empty, 0, name⟩
  let script : Script := ⟨script, .bootstrap, relation.id⟩
  let actor := (Actor.new name .program).addScript script
  let scoping := Scoping.new actor [name, relation.name]
  ⟨actor, script, relation, operations,
    operations.filterMap fun op => (scoping.operation op).toOption⟩

/-- The lanes of the convoy. -/
def convoyLanes : List Lane := [
  convoyLane "first" 14 3 [⟨1, .store cargo (.num 1)⟩, ⟨2, .store cargo (.num 2)⟩],
  convoyLane "second" 15 10 [⟨9, .declare cargo⟩]]

theorem fleet_convoy : convoy.Fleet convoyLanes := by
  refine ⟨by decide +kernel, by decide +kernel, ?_⟩
  refine List.forall_mem_cons.mpr ⟨?_, List.forall_mem_singleton.mpr ?_⟩
  · exact ⟨rfl, rfl, rfl, rfl, by decide +kernel, ⟨_, ⟨3⟩, _, rfl, rfl⟩, by decide +kernel,
      by decide +kernel, by decide +kernel, by decide +kernel⟩
  · exact ⟨rfl, rfl, rfl, rfl, by decide +kernel, ⟨_, ⟨10⟩, _, rfl, rfl⟩, by decide +kernel,
      by decide +kernel, by decide +kernel, by decide +kernel⟩

/-- The first ship is next again after the second, which has nothing left then. -/
theorem runs_in_turn_convoy : ∃ moves k s,
    Journey ⟨.explicit, .default⟩ convoy ∅ moves k s ∧ moves.map Move.index = [0, 1, 0] := by
  have hplaced : convoyLanes.flatMap Lane.statements = [
      ⟨1, .store (.within "cargo" .number ["first", "R8"]) (.num 1)⟩,
      ⟨2, .store (.within "cargo" .number ["first", "R8"]) (.num 2)⟩,
      ⟨9, .declare (.within "cargo" .number ["second", "R13"])⟩] := by decide +kernel
  have hprogram : ∀ lane ∈ convoyLanes, lane.actor.concern = .program := by
    decide +kernel
  -- Whatever the store is, each of these writes one value to it.
  have hwrites : ∀ s : Store, ∀ op ∈ convoyLanes.flatMap Lane.statements,
      ∃ found d, DataAnalysis.explicit.run s [op] .program = .ok found
        ∧ found.filter DataAnalysis.explicit.isFeasible = [d] := by
    intro s
    rw [hplaced]
    refine List.forall_mem_cons.mpr ⟨⟨_, _, rfl, rfl⟩, ?_⟩
    exact List.forall_mem_cons.mpr ⟨⟨_, _, rfl, rfl⟩,
      List.forall_mem_singleton.mpr ⟨_, _, rfl, rfl⟩⟩
  have hdetermined : Determined ⟨.explicit, .default⟩ convoy ∅ convoyLanes := by
    intro moves k s _ lane hlane op hop
    rw [hprogram lane hlane]
    exact hwrites s.data op (List.mem_flatMap.mpr ⟨lane, hlane, hop⟩)
  rcases runs_in_turn ⟨.explicit, .default⟩ convoyLanes rfl convoy ∅ nofun fleet_convoy
    hdetermined with ⟨⟨moves, k, s, hj, hlength⟩, hall⟩
  exact ⟨moves, k, s, hj, ((hall moves k s hj).ended hlength).2.1⟩

end Convoy

end Scheduler

end ActorCheck

import ActorCheck.Proofs.Control.Followers
import ActorCheck.Proofs.Program.Lines

/-!
# Programs of Straight Lines

The simplest programs that share the scheduler: every actor has one script, the script is a
sequence of operations, and none of these is the scheduler's business. A `Lane` is such an actor
with its script, and a `Fleet` is a program that consists of lanes.

In such a program a state is told by how much every lane has ahead of it and whose turn it is.
`Underway` says so, of all threads at once: each is on its lane, it runs if it is its turn, and
otherwise it waits for its turn or has come to the end. Everything the scheduler asks about a
thread is answered from there.

## Main definitions

* `Lane`: An actor with its only script, a straight line.
* `App.Fleet`: A program that consists of lanes.
* `Thread.OnLane`: A thread on its lane, with some operations ahead.
* `ControlState.Underway`: All threads are on their lanes.

## Theorems

* `App.actor_of_fleet`: Names tell the actors of a fleet apart.
* `Thread.hasLeaving_of_onLane`, `Thread.canRun_of_onLane`: A thread can move, or run, if operations
  are ahead.
* `Thread.way_of_onLane`: The only way on.
* `ControlState.quiet_of_underway`: Nothing is going on but the step of the current thread.
* `ControlState.underway_rested`, `ControlState.underway_granted`: A step, and the next turn.
* `Scheduler.underway_of_initialThreads`: The start of a fleet.
-/

namespace ActorCheck

/-- An actor with its only script, which is a straight line. -/
structure Lane where
  actor : Actor
  script : Script
  relation : Relation
  /-- The operations on the line, in order. -/
  operations : List Operation
  /-- The same operations with all variables in their places. -/
  statements : List Operation

/-- The scoping of the script of a lane. -/
def Lane.scoping (lane : Lane) : Scoping :=
  Scoping.new lane.actor [lane.actor.name, lane.relation.name]

namespace App

/-- The program has a lane: the script of the actor starts by itself and runs a sequence of
    operations that only concern the data. -/
structure HasLane (app : App) (lane : Lane) : Prop where
  plain : lane.actor.isObserver = false
  only : lane.actor.scripts = [lane.script]
  bootstrap : lane.script.event = .bootstrap
  runs : lane.script.relation = lane.relation.id
  relation : app.relation lane.relation.id = .ok lane.relation
  sequence : ∃ line s s', Gives (Relation.sequence (lane.operations.map Operation.id)) s line s'
    ∧ lane.relation = line.rename lane.relation.name
  known : ∀ op ∈ lane.operations, app.operation op.id = .ok op
  something : lane.operations ≠ []
  ofData : ∀ op ∈ lane.operations, op.statement.OfData lane.actor
  placed : lane.operations.mapM lane.scoping.operation = .ok lane.statements

/-- The program consists of lanes, one for each of its actors. -/
structure Fleet (app : App) (lanes : List Lane) : Prop where
  actors : app.actors = lanes.map Lane.actor
  distinct : (lanes.map fun lane => lane.actor.name).Nodup
  lane : ∀ lane ∈ lanes, app.HasLane lane

variable (app : App) (lanes : List Lane) (h : app.Fleet lanes) (lane : Lane) (hlane : lane ∈ lanes)

include h in
/-- Drawing numbers changes nothing about a fleet. -/
theorem fleet_of_supply (supply : IdSupply) : { app with supply := supply }.Fleet lanes :=
  ⟨h.actors, h.distinct, fun lane hlane =>
    let old := h.lane lane hlane
    ⟨old.plain, old.only, old.bootstrap, old.runs, old.relation, old.sequence, old.known,
      old.something, old.ofData, old.placed⟩⟩

include h hlane

/-- Names tell the actors of a fleet apart. -/
theorem actor_of_fleet : app.actor lane.actor.name = .ok lane.actor := by
  unfold actor
  -- The first actor of the name is the one that is looked for, as no other has the same name.
  cases hfind : app.actors.find? fun a => a.name == lane.actor.name with
  | none =>
      have hnone := List.find?_eq_none.mp hfind lane.actor
        (h.actors ▸ List.mem_map_of_mem hlane)
      exact absurd (beq_self_eq_true _) hnone
  | some found =>
      have hname := List.find?_some (p := fun a : Actor => a.name == lane.actor.name) hfind
      have hmem := List.mem_of_find?_eq_some hfind
      rw [h.actors] at hmem
      rcases List.mem_map.mp hmem with ⟨other, hother, rfl⟩
      rw [List.inj_on_of_nodup_map h.distinct hother hlane (beq_iff_eq.mp hname)]

theorem runs_of_fleet : app.Runs lane.actor lane.script lane.relation :=
  have own := h.lane lane hlane
  app.runs_of_only _ _ _ (app.actor_of_fleet lanes h lane hlane) own.only own.bootstrap own.relation

/-- The relation of a lane is a straight line from its only entry. -/
theorem line_of_fleet : ∃ entry last, lane.relation.soleEntry = .ok entry
    ∧ lane.relation.Line last entry (lane.operations.map Operation.id) := by
  rcases (h.lane lane hlane).sequence with ⟨line, s, s', hline, hsame⟩
  rcases Relation.line_of_gives_sequence _ line s s' hline with
    ⟨entry, last, hentry, _, hway⟩
  refine ⟨entry, last, ?_, ?_⟩
  · rw [hsame]
    have hentries : (line.rename lane.relation.name).entries.toList = [entry] := hentry
    unfold Relation.soleEntry
    rw [hentries]
  · rw [hsame]
    exact hway

end App

/-- A thread on its lane, with some operations ahead. -/
structure Thread.OnLane (t : Thread) (lane : Lane) (ahead : List Operation) : Prop where
  follows : t.Follows lane.actor lane.script lane.relation
  line : ∃ last, lane.relation.Line last t.place.location (ahead.map Operation.id)
  part : ahead <:+ lane.operations

/-- Something leaves the place of a thread if operations are ahead. -/
theorem Thread.hasEdgesFrom_of_onLane (lane : Lane) (t : Thread) (ahead : List Operation)
    (ht : t.OnLane lane ahead) :
    lane.relation.hasEdgesFrom t.place.location = !ahead.isEmpty := by
  rcases ht.line with ⟨last, hline⟩
  rw [Flow.hasEdgesFrom_of_line _ last _ _ hline, List.isEmpty_map]

/-- A thread can move if operations are ahead. -/
theorem Thread.hasLeaving_of_onLane (app : App) (lanes : List Lane) (h : app.Fleet lanes)
    (lane : Lane) (hlane : lane ∈ lanes) (t : Thread) (ahead : List Operation)
    (ht : t.OnLane lane ahead) : app.hasLeaving t = .ok !ahead.isEmpty := by
  rw [t.hasLeaving_of_follows _ _ _ ht.follows app (app.runs_of_fleet lanes h lane hlane),
    t.hasEdgesFrom_of_onLane lane ahead ht]

/-- The only way on for a thread that has an operation ahead. -/
theorem Thread.way_of_onLane (app : App) (lanes : List Lane) (h : app.Fleet lanes) (lane : Lane)
    (hlane : lane ∈ lanes) (t : Thread) (op : Operation) (ops : List Operation)
    (ht : t.OnLane lane (op :: ops)) (placed : Operation)
    (hplaced : lane.scoping.operation op = .ok placed) :
    ∃ next last, lane.relation.edgesFrom t.place.location = [(op.id, next)]
      ∧ lane.relation.Line last next (ops.map Operation.id)
      ∧ (lane.relation.edgesFrom t.place.location).mapM
          (app.edgeAt lane.actor lane.relation t.place)
        = .ok [(placed, { t.place with location := next })]
      ∧ placed.statement.OfData lane.actor := by
  rcases ht.line with ⟨last, next, hedges, hline⟩
  -- What is ahead is part of the operations of the lane, so the program knows it and it only
  -- concerns the data.
  have hop : op ∈ lane.operations := ht.part.subset List.mem_cons_self
  refine ⟨next, last, hedges, hline, ?_, ?_⟩
  · rw [hedges, except_mapM_ok]
    refine .cons ((except_bind_ok _ _ _).mpr
      ⟨op, (ofModel_ok _ _).mpr ((h.lane lane hlane).known op hop), ?_⟩) .nil
    refine (except_bind_ok _ _ _).mpr ⟨placed, (ofScope_ok _ _).mpr ?_, rfl⟩
    rw [ht.follows.home]
    exact hplaced
  · rcases (except_bind_ok _ _ _).mp hplaced with ⟨statement, hstatement, hpure⟩
    rw [← (except_pure_ok _ _).mp hpure]
    exact lane.scoping.ofData_of_statement _ _ _ ((h.lane lane hlane).ofData op hop) hstatement

/-- The status of the thread at an index, from whose turn it is and what is ahead of it. -/
def statusAt (current : Option Nat) (i : Nat) (ahead : List Operation) : ThreadStatus :=
  if current = some i then .running else if ahead.isEmpty then .done else .yield

theorem statusAt_self (i : Nat) (ahead : List Operation) : statusAt (some i) i ahead = .running :=
  if_pos rfl

theorem statusAt_none (i : Nat) (ahead : List Operation) :
    statusAt none i ahead = if ahead.isEmpty then .done else .yield :=
  if_neg nofun

theorem statusAt_ne (i j : Nat) (ahead : List Operation) (h : j ≠ i) :
    statusAt (some i) j ahead = statusAt none j ahead :=
  if_congr (iff_of_false (fun heq => h (Option.some.inj heq).symm) nofun) rfl rfl

theorem statusAt_none_ne_running (i : Nat) (ahead : List Operation) :
    statusAt none i ahead ≠ .running := by
  rw [statusAt_none]
  split
  · exact nofun
  · exact nofun

/-- A thread whose turn it is not can run if operations are ahead. -/
theorem Thread.canRun_of_onLane (app : App) (lanes : List Lane) (h : app.Fleet lanes)
    (lane : Lane) (hlane : lane ∈ lanes) (t : Thread) (ahead : List Operation)
    (ht : t.OnLane lane ahead) (i : Nat) (hstatus : t.status = statusAt none i ahead) :
    app.canRun t = .ok !ahead.isEmpty := by
  have hmore := t.hasEdgesFrom_of_onLane lane ahead ht
  rw [← hmore]
  refine t.canRun_of_follows _ _ _ ht.follows app (app.runs_of_fleet lanes h lane hlane) ?_
  rw [hstatus, statusAt_none, hmore]
  cases ahead.isEmpty with
  | true => rfl
  | false => rfl

namespace ControlState

variable {σ : Type}

/-- All threads are on their lanes and have some operations ahead. The current one runs. -/
structure Underway (lanes : List Lane) (ahead : List (List Operation)) (current : Option Nat)
    (s : ControlState σ) : Prop where
  noTarget : s.targetFor = ∅
  noConditions : s.conditions = []
  unbound : s.actorScopes = ∅
  threads : s.threads.length = lanes.length
  rows : ahead.length = lanes.length
  row : ∀ i t, s.threads[i]? = some t → ∃ lane ops, lanes[i]? = some lane ∧ ahead[i]? = some ops
    ∧ t.OnLane lane ops ∧ t.status = statusAt current i ops

variable (app : App) (lanes : List Lane) (h : app.Fleet lanes) (ahead : List (List Operation))
  (s : ControlState σ)

/-- The thread of a lane. -/
theorem thread_of_underway (current : Option Nat) (hs : s.Underway lanes ahead current) (i : Nat)
    (ops : List Operation) (hops : ahead[i]? = some ops) :
    ∃ t lane, s.threads[i]? = some t ∧ lanes[i]? = some lane ∧ t.OnLane lane ops
      ∧ t.status = statusAt current i ops := by
  have hlt := (List.getElem?_eq_some_iff.mp hops).1
  rw [hs.rows, ← hs.threads] at hlt
  have ht := List.getElem?_eq_getElem hlt
  rcases hs.row i _ ht with ⟨lane, ops', hlane, hops', hon, hstatus⟩
  rw [hops] at hops'
  cases hops'
  exact ⟨_, lane, ht, hlane, hon, hstatus⟩

/-- The current thread is the only one that runs. -/
theorem running_of_underway (i : Nat) (hs : s.Underway lanes ahead (some i))
    (hi : i < lanes.length) : s.running = [i] := by
  -- Everyone else has a status other than running, whatever is ahead of it.
  have halone : ∀ j ∈ s.running, j = i := by
    intro j hj
    rcases (s.mem_running j).mp hj with ⟨t, ht, hruns⟩
    rcases hs.row j t ht with ⟨_, ops, _, _, _, hstatus⟩
    by_contra hne
    rw [hruns, statusAt_ne i j ops hne] at hstatus
    exact statusAt_none_ne_running j ops hstatus.symm
  have hmem : i ∈ s.running := by
    have ht := List.getElem?_eq_getElem (hs.threads ▸ hi)
    rcases hs.row i _ ht with ⟨_, ops, _, _, _, hstatus⟩
    exact (s.mem_running i).mpr ⟨_, ht, hstatus.trans (statusAt_self i ops)⟩
  have hone := s.length_running_le_one i halone
  -- A list with one member at most, which has this member.
  match hrunning : s.running, halone, hone, hmem with
  | [j], halone, _, _ => rw [halone j List.mem_cons_self]
  | j :: j' :: js, _, hone, _ => exact absurd hone (by simp)

/-- Nobody runs if it is nobody's turn. -/
theorem idle_of_underway (hs : s.Underway lanes ahead none) :
    ∀ t ∈ s.threads, t.status ≠ .running := by
  intro t ht
  rcases List.getElem?_of_mem ht with ⟨i, hi⟩
  rcases hs.row i t hi with ⟨_, ops, _, _, _, hstatus⟩
  rw [hstatus]
  exact statusAt_none_ne_running i ops

include h

/-- Nothing is going on but the step of the current thread. -/
theorem quiet_of_underway (i : Nat) (hs : s.Underway lanes ahead (some i)) (t : Thread)
    (ht : s.threads[i]? = some t) (lane : Lane) (hlane : lanes[i]? = some lane) :
    app.Quiet s i t lane.actor := by
  have hall : ∀ u ∈ s.threads, ∃ lane ∈ lanes, ∃ ops, u.OnLane lane ops := by
    intro u hu
    rcases List.getElem?_of_mem hu with ⟨j, hj⟩
    rcases hs.row j u hj with ⟨lane, ops, hlane, _, hon, _⟩
    exact ⟨lane, List.mem_of_getElem? hlane, ops, hon⟩
  rcases hs.row i t ht with ⟨lane', ops, hlane', _, hon, _⟩
  rw [hlane] at hlane'
  cases hlane'
  refine ⟨?_, s.running_of_underway lanes ahead i hs (List.getElem?_eq_some_iff.mp hlane).1, ht,
    t.actorNamed_of_follows _ _ _ hon.follows app
      (app.runs_of_fleet lanes h lane (List.mem_of_getElem? hlane)), hs.noConditions,
    hs.unbound, hon.follows.operations, ?_, ?_, ?_⟩
  · unfold isTarget
    rw [hs.noTarget]
    rfl
  · intro u hu
    rcases hall u hu with ⟨_, _, _, hu⟩
    exact hu.follows.waits
  · intro u hu
    rcases hall u hu with ⟨lane, hlane, ops, hu⟩
    exact u.noMonitor_of_follows _ _ _ hu.follows app (app.runs_of_fleet lanes h lane hlane)
  · intro j u hu hne
    rcases hs.row j u hu with ⟨lane, ops, hlane, _, hon, hstatus⟩
    rw [statusAt_ne i j ops hne, statusAt_none] at hstatus
    -- Whoever has nothing ahead is done already.
    have hleaves := u.hasLeaving_of_onLane app lanes h lane (List.mem_of_getElem? hlane) ops hon
    -- Nothing is left to be finished. A thread that has operations ahead has an edge to take, and a
    -- thread that has none is done.
    unfold App.finishThread
    cases hempty : ops.isEmpty with
    | true =>
        rw [hempty, if_pos rfl] at hstatus
        rw [if_pos (Or.inr hstatus)]
    | false =>
        rw [hempty, if_neg Bool.false_ne_true] at hstatus
        rw [hempty] at hleaves
        rw [if_neg (by rw [hstatus]; decide), hleaves]
        rfl

/-- The current thread moves on by one operation and gives its turn away. -/
theorem underway_rested (i : Nat) (hs : s.Underway lanes ahead (some i)) (t : Thread)
    (ht : s.threads[i]? = some t) (lane : Lane) (hlane : lanes[i]? = some lane) (op : Operation)
    (ops : List Operation) (hops : ahead[i]? = some (op :: ops)) (next last : LocationId)
    (hline : lane.relation.Line last next (ops.map Operation.id)) (data : σ) :
    (app.rested s i t { t.place with location := next } data).Underway lanes (ahead.set i ops)
      none := by
  have hlt := (List.getElem?_eq_some_iff.mp ht).1
  have hahead := (List.getElem?_eq_some_iff.mp hops).1
  rcases hs.row i t ht with ⟨lane', ops', hlane', hops', hon, _⟩
  rw [hlane] at hlane'
  cases hlane'
  rw [hops] at hops'
  cases hops'
  let target : Place := { t.place with location := next }
  have hrested : (app.restedAt t target).OnLane lane ops
      ∧ (app.restedAt t target).status = statusAt none i ops := by
    -- It rests at the next location, from which the rest of the line leads on.
    rw [t.restedAt_of_follows _ _ _ hon.follows app
      (app.runs_of_fleet lanes h lane (List.mem_of_getElem? hlane)) next]
    refine ⟨⟨Thread.follows_of_status _ _ _ _
      (t.follows_movedTo _ _ _ hon.follows app next) _, ⟨last, hline⟩,
      (List.suffix_cons op ops).trans hon.part⟩, ?_⟩
    rw [statusAt_none, Flow.hasEdgesFrom_of_line _ last _ _ hline, List.isEmpty_map]
    cases ops.isEmpty with
    | true => rfl
    | false => rfl
  refine ⟨hs.noTarget, hs.noConditions, hs.unbound, ?_, ?_, fun j u hu => ?_⟩
  · exact List.length_set.trans hs.threads
  · exact List.length_set.trans hs.rows
  · have hu' : (s.threads.set i (app.restedAt t target))[j]? = some u := hu
    -- Only the row of the thread that moved becomes shorter. For the others it makes no difference
    -- whose turn it was.
    by_cases hij : i = j
    · subst hij
      rw [List.getElem?_set_self hlt] at hu'
      cases hu'
      exact ⟨lane, ops, hlane, List.getElem?_set_self hahead, hrested⟩
    · rw [List.getElem?_set_ne hij] at hu'
      rcases hs.row j u hu' with ⟨lane, ops', hlane, hops', hon, hstatus⟩
      exact ⟨lane, ops', hlane, (List.getElem?_set_ne hij).trans hops', hon,
        hstatus.trans (statusAt_ne i j ops' (Ne.symm hij))⟩

omit h in
theorem stepped_granted (who : Option Nat) : (s.granted who).stepped = s.stepped := by
  cases who with
  | none => rfl
  | some i => rfl

omit h in
/-- The thread that gets the turn runs. -/
theorem underway_granted (hs : s.Underway lanes ahead none) (who : Option Nat)
    (hwho : ∀ i, who = some i → i < lanes.length) :
    (s.granted who).Underway lanes ahead who := by
  cases who with
  | none => exact hs
  | some i =>
      have hi : i < s.threads.length := hs.threads ▸ hwho i rfl
      have ht := List.getElem?_eq_getElem hi
      have heq : s.granted (some i) = s.setThread i { s.threads[i] with status := .running } :=
        App.withStatus_eq s i _ .running ht
      rw [heq]
      refine ⟨hs.noTarget, hs.noConditions, hs.unbound, List.length_set.trans hs.threads, hs.rows,
        fun j u hu => ?_⟩
      unfold setThread at hu
      -- The same split again: one thread begins to run, and the others keep the status they had
      -- when nobody ran.
      by_cases hij : i = j
      · subst hij
        rw [List.getElem?_set_self (List.getElem?_eq_some_iff.mp ht).1] at hu
        cases hu
        rcases hs.row i _ ht with ⟨lane, ops, hlane, hops, hon, _⟩
        exact ⟨lane, ops, hlane, hops,
          ⟨Thread.follows_of_status _ _ _ _ hon.follows .running, hon.line, hon.part⟩,
          (statusAt_self i ops).symm⟩
      · rw [List.getElem?_set_ne hij] at hu
        rcases hs.row j u hu with ⟨lane, ops, hlane, hops, hon, hstatus⟩
        exact ⟨lane, ops, hlane, hops, hon,
          hstatus.trans (statusAt_ne i j ops (Ne.symm hij)).symm⟩

end ControlState

namespace Scheduler

variable (lanes : List Lane)

/-- The thread of a lane stands at the beginning of its line. -/
theorem onLane_of_initialThread (k : Scheduler) (h : k.app.Fleet lanes) (lane : Lane)
    (hlane : lane ∈ lanes) :
    ∃ t k', Gives (initialThread lane.actor lane.script) k t k' ∧ k'.app.Fleet lanes
      ∧ t.OnLane lane lane.operations ∧ t.status = .yield := by
  rcases k.app.line_of_fleet lanes h lane hlane with ⟨entry, last, hentry, hline⟩
  rcases gives_initialThread k _ _ _ (k.app.runs_of_fleet lanes h lane hlane)
    (h.lane lane hlane).runs entry hentry with ⟨t, hgives, hfollows, rfl, hstatus⟩
  refine ⟨t, _, hgives, k.app.fleet_of_supply lanes h _,
    ⟨hfollows, ⟨last, hline⟩, List.suffix_refl _⟩, ?_⟩
  -- Every lane has an operation, so its thread has somewhere to go and is not done at once.
  have hsome := List.isEmpty_eq_false_iff.mpr (h.lane lane hlane).something
  rw [hstatus, Flow.hasEdgesFrom_of_line _ last _ _ hline, List.isEmpty_map, hsome]
  rfl

/-- The members of related lists that each consist of one member. -/
theorem forall₂_flatten {α β : Type} (R : α → β → Prop) (xs : List α) (yss : List (List β))
    (h : List.Forall₂ (fun x ys => ∃ y, ys = [y] ∧ R x y) xs yss) :
    List.Forall₂ R xs yss.flatten := by
  induction h with
  | nil => exact .nil
  | cons hfirst _ ih =>
      rcases hfirst with ⟨y, rfl, hy⟩
      exact .cons hy ih

/-- When a fleet starts, all its threads stand at the beginning of their lines. -/
theorem underway_of_initialThreads {σ : Type} (k : Scheduler) (h : k.app.Fleet lanes) (data : σ) :
    ∃ threads k', Gives initialThreads k threads k' ∧ k'.app.Fleet lanes
      ∧ (ControlState.new threads data).Underway lanes (lanes.map Lane.operations) none := by
  -- For each actor on its own: it has one script, which makes one thread. Actors with the same name
  -- are the same lane.
  have hactors : ∀ actor ∈ lanes.map Lane.actor, ∀ k : Scheduler, k.app.Fleet lanes →
      ∃ ts k', Gives (actor.scripts.mapM (initialThread actor)) k ts k' ∧ k'.app.Fleet lanes
        ∧ ∀ lane ∈ lanes, lane.actor = actor →
          ∃ t, ts = [t] ∧ t.OnLane lane lane.operations ∧ t.status = .yield := by
    intro actor hactor k hk
    rcases List.mem_map.mp hactor with ⟨lane, hlane, rfl⟩
    rcases onLane_of_initialThread lanes k hk lane hlane with ⟨t, k', ht, hk', hon, hstatus⟩
    refine ⟨[t], k', ?_, hk', fun other hother hsame => ?_⟩
    · rw [(hk.lane lane hlane).only, List.mapM_cons, List.mapM_nil]
      exact (gives_bind _ _ _ _ _).mpr ⟨t, k', ht, rfl⟩
    · rw [List.inj_on_of_nodup_map hk.distinct hother hlane (congrArg Actor.name hsame)]
      exact ⟨t, rfl, hon, hstatus⟩
  rcases gives_mapM_of (fun k : Scheduler => k.app.Fleet lanes) _ _ _ hactors k h with
    ⟨found, k', hfound, hk', hrelated⟩
  -- So the lists of threads, one for each actor, have one member each and put together are the
  -- threads of the lanes.
  have hthreads : List.Forall₂ (fun (lane : Lane) t => t.OnLane lane lane.operations
      ∧ t.status = .yield) lanes found.flatten := by
    refine forall₂_flatten _ lanes found ?_
    refine forall₂_of_mem _ _ lanes found (List.forall₂_map_left_iff.mp hrelated) ?_
    exact fun lane hlane ts hts => hts lane hlane rfl
  refine ⟨found.flatten, k', ?_, hk', rfl, rfl, rfl, hthreads.length_eq.symm, List.length_map _,
    fun i t ht => ?_⟩
  · unfold initialThreads
    rw [gives_program_bind, gives_bind, h.actors]
    exact ⟨found, k', hfound, rfl⟩
  · rcases getElem?_of_forall₂_right _ _ _ hthreads i t ht with ⟨lane, hlane, hon, hstatus⟩
    refine ⟨lane, lane.operations, hlane, ?_, hon, ?_⟩
    · rw [List.getElem?_map, hlane]
      rfl
    · have hsome := (h.lane lane (List.mem_of_getElem? hlane)).something
      rw [hstatus, statusAt_none, if_neg (fun hempty => hsome (List.isEmpty_iff.mp hempty))]

end Scheduler

end ActorCheck

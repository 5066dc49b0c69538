import ActorCheck.Proofs.Control.Clock

/-!
# The Clock Goes Forward

The clock is moved by the scheduler alone, to the end of a wait, when nobody can run. It goes
forward only if that end is not in the past. `Ahead` says so of all waits that are pending: the
end of each is kept in its variable, as a number that the clock has not passed.

A program can spoil this in two ways. It can write the clock or the variables in which the ends
of waits are kept, and it can wait for a negative number of seconds. `Harmless` excludes both for
one step, and under it every step keeps all ends of waits ahead and does not set the clock back.

## Main definitions

* `Move.Pauses`: A step that begins a timed wait.
* `Move.Harmless`: A step that cannot set the clock back.
* `App.Ahead`: The clock has not passed the end of any wait.

## Theorems

* `Explicit.run_settingAlarm`: The end of a wait is computed exactly.
* `le_of_waitIsOver`: The clock has reached the end of a wait that is over.
* `Scheduler.ahead_of_passage`: A harmless step keeps the ends of waits ahead.
* `Session.clock_forward`: The clock never goes back in a course of harmless steps.
-/

namespace ActorCheck

namespace Explicit

/-- The end of a wait is computed from the clock and the seconds to wait. The seconds are evaluated
    after the clock was read. -/
theorem run_settingAlarm (s : Store) (scope : List String) (seconds : Expr) (ops : List Operation)
    (concern : Concern) (found : List Store)
    (hops : ops.map Operation.statement = settingAlarm (wakeUpVariable scope) seconds)
    (hids : ∀ op ∈ ops, op.id ≠ epsilonId)
    (h : DataAnalysis.explicit.run s ops concern = .ok found) :
    ∃ n r : Int64, eval (s.write (wakeUpVariable scope) (.int s.time)) seconds = .ok (.int n)
      ∧ r.toInt = s.time.toInt + n.toInt * 1000000
      ∧ found = [(s.write (wakeUpVariable scope) (.int s.time)).write (wakeUpVariable scope)
        (.int r)] := by
  let v := wakeUpVariable scope
  -- There are two operations, one for each assignment, and they are performed in this order.
  rcases List.map_eq_cons_iff.mp hops with ⟨first, others, rfl, hfirst, hothers⟩
  rcases List.map_eq_cons_iff.mp hothers with ⟨second, others, rfl, hsecond, hothers⟩
  rw [List.map_eq_nil_iff.mp hothers] at h
  unfold DataAnalysis.run at h
  -- The clock is read.
  rcases successors_of_runFrom s first _ concern found (hids first List.mem_cons_self) h with
    ⟨read, hread, h⟩
  rw [hfirst] at hread
  cases hread
  -- The sum is written.
  rcases successors_of_runFrom _ second _ concern found
    (hids second (List.mem_cons_of_mem _ List.mem_cons_self)) h with ⟨written, hwritten, h⟩
  rw [hsecond] at hwritten
  rcases (except_bind_ok _ _ _).mp hwritten with ⟨sum, hsum, hwritten⟩
  rw [← (except_pure_ok _ _).mp hwritten] at h
  cases h
  rcases exact_of_eval_arith _ _ _ _ _ hsum with ⟨t, p, r, ht, hp, rfl, hr⟩
  rcases exact_of_eval_arith _ _ _ _ _ hp with ⟨n, second, _, hn, hsecond, hproduct, hexact⟩
  cases hproduct
  cases hsecond
  have htime : t = s.time := by
    have hcell : (s.write v (.int s.time)).read v = .ok (.int s.time) := by
      unfold Store.read
      rw [Store.getElem?_write_self]
      rfl
    have ht' : (s.write v (.int s.time)).read v = .ok (.int t) := ht
    rw [hcell] at ht'
    cases ht'
    rfl
  refine ⟨n, r, hn, ?_, rfl⟩
  rw [hr, hexact, htime]
  rfl

end Explicit

/-- The clock has reached the end of a wait that is over. -/
theorem le_of_waitIsOver (s : Store) (scope : List String) (n : Int64)
    (hcell : s[(wakeUpVariable scope).cellName]? = some (.int n))
    (h : eval s (waitIsOver (wakeUpVariable scope)) = .ok (.bool true)) :
    n.toInt ≤ s.time.toInt := by
  rcases end_of_waitIsOver s scope true h with ⟨n', hend, _, hover⟩
  unfold Store.read at hend
  rw [hcell] at hend
  cases hend
  exact of_decide_eq_true hover.symm

/-- The step begins to wait in a scope, for the seconds that an expression evaluates to. -/
structure Move.Pauses {σ : Type} (app : App) (m : Move σ) (scope : List String) (seconds : Expr) :
    Prop where
  calls : ∃ result, m.edge.1.statement = .call Builtin.waitSeconds [seconds] result
  within : app.localScope m.edge.2 = .ok scope

/-- The step cannot set the clock back. Unless it begins a timed wait, it writes neither the clock
    nor the end of a wait. If it begins one, the time to wait is not negative. -/
structure Move.Harmless (app : App) (m : Move Store) : Prop where
  keeps : (∀ args result, m.edge.1.statement ≠ .call Builtin.waitSeconds args result) →
    ∀ op ∈ m.operations, ∀ v ∈ op.statement.written, v.cellName ≠ Builtin.clock.cellName
      ∧ ∀ scope, v.cellName ≠ (wakeUpVariable scope).cellName
  forward : ∀ (scope : List String) (seconds : Expr) (n : Int64), m.Pauses app scope seconds →
    eval (m.source.data.write (wakeUpVariable scope) (.int m.source.data.time)) seconds
      = .ok (.int n) → 0 ≤ n.toInt

/-- The clock has not passed the end of any wait. -/
def App.Ahead (app : App) (conditions : List Thread) (data : Store) : Prop :=
  ∀ q ∈ conditions, ∃ (scope : List String) (n : Int64), app.Alarm q scope
    ∧ data[(wakeUpVariable scope).cellName]? = some (.int n) ∧ data.time.toInt ≤ n.toInt

section Growth

variable (a b : App) (h : a.Extends b) (hdrawn : a.RelationsDrawn)

include h hdrawn

theorem localScope_of_extends (p : Place) (scope : List String) (hp : a.localScope p = .ok scope) :
    b.localScope p = .ok scope := by
  unfold App.localScope App.relationOf at hp ⊢
  rcases (except_bind_ok _ _ _).mp hp with ⟨r, hr, hp⟩
  rw [ofModel_ok] at hr
  exact (except_bind_ok _ _ _).mpr
    ⟨r, (ofModel_ok _ _).mpr (App.relation_of_extends a b h hdrawn _ r hr), hp⟩

theorem harmless_of_extends (m : Move Store) (hm : m.Harmless b) : m.Harmless a :=
  ⟨hm.keeps, fun scope seconds n hpauses => hm.forward scope seconds n
    ⟨hpauses.calls, localScope_of_extends a b h hdrawn _ _ hpauses.within⟩⟩

theorem ahead_of_extends (conditions : List Thread) (data : Store)
    (hs : a.Ahead conditions data) : b.Ahead conditions data := by
  intro q hq
  rcases hs q hq with ⟨scope, n, hscope, hn⟩
  exact ⟨scope, n, App.alarm_of_extends a b h hdrawn q scope hscope, hn⟩

end Growth

namespace Scheduler

/-- The data analysis changes the cells that its operations write and no others. -/
theorem frame_of_passage (c : Control Store) (hc : c.analysis = .explicit) (k k' : Scheduler)
    (m : Move Store) (w : Passage c k k' m) (cell : String)
    (hcell : ∀ op ∈ m.operations, ∀ v ∈ op.statement.written, v.cellName ≠ cell) :
    w.data[cell]? = m.source.data[cell]? := by
  rcases effect_of_passage c k k' m w with ⟨loops, heffect⟩
  have hdata : w.s₁.data = m.source.data := (fixed_of_effect _ _ _ _ _ _ _ heffect).1
  -- The analysis was not asked, and the data are as before, or it performed the operations.
  rcases data_of_passage c k k' m w with ⟨_, _, hsame⟩ | ⟨_, _, found, hfound, hmem⟩
  · rw [hsame, hdata]
  · rw [hdata, hc] at hfound
    exact Explicit.run_frame m.source.data w.data _ _ found hfound hmem cell hcell

/-- An assignment is performed by the operation on its edge. -/
theorem operations_of_store (c : Control Store) (k k' : Scheduler) (m : Move Store)
    (w : Passage c k k' m) (v : Variable) (e : Expr) (h : m.edge.1.statement = .store v e)
    (hclear : w.t.operations = []) : ∀ op ∈ m.operations, op = m.edge.1 := by
  have hout : (w.s₁, w.settled) ∈ w.outcomes ++ (w.s₁, w.settled) :: w.outcomes' :=
    List.mem_append_right _ List.mem_cons_self
  have hindex : m.index < m.source.threads.length := (List.getElem?_eq_some_iff.mp w.thread).1
  rcases interpreted_of_gives_follow _ _ _ _ w.t _ _ _ w.thread w.followed with
    ⟨loops, hfollowed⟩
  unfold interpret at hfollowed
  rw [gives_program_bind] at hfollowed
  rcases (gives_lookUp_bind _ _ _ _ _).mp hfollowed with ⟨actor, _, hfollowed⟩
  rw [h] at hfollowed
  dsimp only at hfollowed
  rw [w.operations]
  split at hfollowed
  -- Which actor a variable refers to is settled without the data analysis.
  · rcases (gives_lookUp_bind _ _ _ _ _).mp hfollowed with ⟨name, _, hfollowed⟩
    rw [← ((gives_pure _ _ _ _).mp hfollowed).1] at hout
    rw [(Prod.mk.inj (List.mem_singleton.mp hout)).2]
    exact nofun
  · rw [← ((gives_pure _ _ _ _).mp hfollowed).1] at hout
    rcases Prod.mk.inj (List.mem_singleton.mp hout) with ⟨hstate, hsettled⟩
    have hmoved := w.moved
    rw [hstate] at hmoved
    have hthread := Option.some.inj ((List.getElem?_set_self hindex).symm.trans hmoved)
    rw [hsettled, if_neg Bool.false_ne_true]
    unfold dataOperations
    rw [← hthread]
    dsimp only
    rw [hclear]
    exact fun op hop => List.mem_singleton.mp hop

/-- A step that begins a timed wait, with the thread that checks the clock for it, the seconds to
    wait and the end of the wait. -/
structure Pausing {c : Control Store} {k k' : Scheduler} {m : Move Store} (w : Passage c k k' m)
    (scope : List String) (seconds : Expr) (checker : Thread) (n r : Int64) : Prop where
  within : w.k₁.app.localScope m.edge.2 = .ok scope
  alarm : w.k₂.app.Alarm checker scope
  conditions : w.s₁.conditions = m.source.conditions ++ [checker]
  same : w.t.Same w.t₁
  place : w.t₁.place = m.edge.2
  status : w.t₁.status = .wait
  waitingFor : checker.id ∈ w.t₁.waitingFor
  value : eval (m.source.data.write (wakeUpVariable scope) (.int m.source.data.time)) seconds
    = .ok (.int n)
  exact : r.toInt = m.source.data.time.toInt + n.toInt * 1000000
  data : w.data = (m.source.data.write (wakeUpVariable scope) (.int m.source.data.time)).write
    (wakeUpVariable scope) (.int r)
  operations : m.operations.map Operation.statement
    = settingAlarm (wakeUpVariable scope) seconds

theorem pausing_of_passage (c : Control Store) (hc : c.analysis = .explicit) (k k' : Scheduler)
    (m : Move Store) (w : Passage c k k' m) (hw : Middle w) (args : List Expr)
    (result : Option Variable) (h : m.edge.1.statement = .call Builtin.waitSeconds args result) :
    ∃ scope seconds checker n r, args = [seconds] ∧ Pausing w scope seconds checker n r := by
  rcases paused_of_gives_follow m.source m.index m.edge.1 m.edge.2 w.t args result w.k₁ w.k₂ _
    hw.soundFirst w.thread h w.followed with
    ⟨loops, seconds, scope, ops, checker, hargs, hscope, hops, hids, halarm, houtcomes⟩
  have hout : (w.s₁, w.settled) ∈ w.outcomes ++ (w.s₁, w.settled) :: w.outcomes' :=
    List.mem_append_right _ List.mem_cons_self
  rw [houtcomes] at hout
  rcases Prod.mk.inj (List.mem_singleton.mp hout) with ⟨hstate, hsettled⟩
  have hindex : m.index < m.source.threads.length := (List.getElem?_eq_some_iff.mp w.thread).1
  have hmoved := w.moved
  rw [hstate] at hmoved
  have hthread := Option.some.inj ((List.getElem?_set_self hindex).symm.trans hmoved)
  -- The operations of the wait are performed on the store before the step.
  have hdata : w.s₁.data = m.source.data := by
    rw [hstate]
    rfl
  have hperformed : dataOperations w.t₁ m.edge.1 = ops := by
    unfold dataOperations
    rw [← hthread]
    cases ops with
    | nil => cases hops
    | cons op rest => rfl
  rcases data_of_passage c k k' m w with ⟨hnone, _, _⟩ | ⟨_, hoperations, found, hfound, hmem⟩
  · rw [hsettled] at hnone
    cases hnone
  have hsame : m.operations = ops := hoperations.trans hperformed
  rw [hsame, hdata, hc] at hfound
  rcases Explicit.run_settingAlarm m.source.data scope seconds ops _ found hops hids hfound with
    ⟨n, r, hvalue, hexact, rfl⟩
  refine ⟨scope, seconds, checker, n, r, hargs, ⟨hscope, halarm, ?_, ?_, ?_, ?_, ?_, hvalue, hexact,
    List.mem_singleton.mp hmem, hsame ▸ hops⟩⟩
  · rw [hstate]
  · rw [← hthread]
    exact ⟨rfl, rfl, rfl⟩
  · rw [← hthread]
  · rw [← hthread]
  · rw [← hthread]
    exact Std.ExtTreeSet.mem_insert_self

/-- The programs of a move grow until the move is over. -/
theorem grown_of_middle {c : Control Store} {k k' : Scheduler} {m : Move Store}
    (w : Passage c k k' m) (hw : Middle w) :
    k.app.Extends w.k₄.app ∧ w.k₁.app.Extends k'.app ∧ w.k₂.app.Extends w.k₄.app := by
  refine ⟨?_, ?_, hw.analysing⟩
  · exact App.extends_trans _ _ _ hw.beginning (App.extends_trans _ _ _ hw.following hw.analysing)
  · exact App.extends_trans _ _ _ hw.following (App.extends_trans _ _ _ hw.analysing
      (App.extends_trans _ _ _ hw.completing w.grown))

section Step

variable (c : Control Store) (hc : c.analysis = .explicit) (k k' : Scheduler) (m : Move Store)
  (w : Passage c k k' m) (hk : k.Sound) (hw : Middle w) (b : App) (hb : k'.app.Extends b)
  (hm : m.Harmless b) (hs : k.app.Ahead m.source.conditions m.source.data)

include hc hk hw hb hm hs

/-- The statement of a harmless step leaves the clock alone and all ends of waits ahead of it. -/
theorem ahead_of_statement : w.k₄.app.Ahead w.s₁.conditions w.data
    ∧ w.data.time = m.source.data.time := by
  rcases grown_of_middle w hw with ⟨hbefore, hafter, hlate⟩
  have hold := ahead_of_extends _ _ hbefore hk.wellMade.relations _ _ hs
  -- A timed wait writes its own end and nothing else, and the other statements write no end at all.
  by_cases hwait : ∃ args result, m.edge.1.statement = .call Builtin.waitSeconds args result
  · rcases hwait with ⟨args, result, hcall⟩
    rcases pausing_of_passage c hc k k' m w hw args result hcall with
      ⟨scope, seconds, checker, n, r, rfl, hp⟩
    have hforward : 0 ≤ n.toInt := by
      refine hm.forward scope seconds n ⟨⟨result, hcall⟩, ?_⟩ hp.value
      exact localScope_of_extends _ _ (App.extends_trans _ _ _ hafter hb)
        hw.soundFirst.wellMade.relations _ _ hp.within
    -- Only the variable of this wait was written.
    have hother : ∀ cell : String, (wakeUpVariable scope).cellName ≠ cell →
        w.data[cell]? = m.source.data[cell]? := by
      intro cell hcell
      rw [hp.data, Store.getElem?_write_ne _ _ _ _ hcell, Store.getElem?_write_ne _ _ _ _ hcell]
    have hend : w.data[(wakeUpVariable scope).cellName]? = some (.int r) := by
      rw [hp.data, Store.getElem?_write_self]
    have htime := Store.time_congr _ _ (hother _ (wakeUp_ne_clock scope))
    have hahead : w.data.time.toInt ≤ r.toInt := by
      rw [htime, hp.exact]
      omega
    refine ⟨fun q hq => ?_, htime⟩
    rw [hp.conditions] at hq
    rcases List.mem_append.mp hq with hq | hq
    · rcases hold q hq with ⟨scope', n', halarm, hcell, hle⟩
      -- A pending wait may keep its end in the same cell, and then the new end is its end.
      by_cases hsame : (wakeUpVariable scope).cellName = (wakeUpVariable scope').cellName
      · exact ⟨scope', r, halarm, hsame ▸ hend, hahead⟩
      · exact ⟨scope', n', halarm, (hother _ hsame).trans hcell, htime ▸ hle⟩
    · rw [List.mem_singleton.mp hq]
      exact ⟨scope, r, App.alarm_of_extends _ _ hlate
        (App.relationsDrawn_of_extends _ _ hw.following hw.soundFirst.wellMade.relations) _ _
        hp.alarm, hend, hahead⟩
  · have hplain : ∀ args result, m.edge.1.statement ≠ .call Builtin.waitSeconds args result :=
      fun args result hcall => hwait ⟨args, result, hcall⟩
    have hkeeps := hm.keeps hplain
    rcases effect_of_passage c k k' m w with ⟨loops, heffect⟩
    have hconditions : w.s₁.conditions = m.source.conditions :=
      (fixed_of_effect _ _ _ _ _ _ _ heffect).2 hplain
    have htime := Store.time_congr w.data m.source.data
      (frame_of_passage c hc k k' m w _ fun op hop v hv => (hkeeps op hop v hv).1)
    refine ⟨fun q hq => ?_, htime⟩
    rw [hconditions] at hq
    rcases hold q hq with ⟨scope, n, halarm, hcell, hle⟩
    refine ⟨scope, n, halarm, ?_, htime ▸ hle⟩
    rw [frame_of_passage c hc k k' m w _ fun op hop v hv => (hkeeps op hop v hv).2 scope]
    exact hcell

end Step

/-- Moving the clock for the only alarm takes it to the end of a wait that is ahead. -/
theorem ahead_of_moved (app : App) (happ : app.WellMade) (s : ControlState Store) (data : Store)
    (hs : app.Ahead s.conditions s.data) (h : ClockMoved app s data) :
    app.Ahead s.conditions data ∧ s.data.time.toInt ≤ data.time.toInt := by
  cases h with
  | still _ => exact ⟨hs, Int.le_refl _⟩
  | moved data q scope honly halarm hothers value hgoal hclock =>
      rcases hs q (by rw [honly]; exact List.mem_singleton_self q) with
        ⟨scope', n, halarm', hcell, hle⟩
      rw [app.wakeUp_of_alarm happ q scope' scope halarm' halarm] at hcell
      have hend : data[(wakeUpVariable scope).cellName]? = some (.int n) :=
        (hothers _ (wakeUp_ne_clock scope)).trans hcell
      -- The clock stands at the end of the wait.
      have htime : data.time = n := by
        unfold Store.read at hgoal
        rw [hcell] at hgoal
        cases hgoal
        exact data.time_of_cell n hclock
      rw [htime]
      refine ⟨fun p hp => ?_, hle⟩
      rw [honly] at hp
      rw [List.mem_singleton.mp hp]
      exact ⟨scope, n, halarm, hend, Int.le_of_eq (congrArg Int64.toInt htime)⟩

/-- At the end of a step the clock does not go back. -/
theorem ahead_of_ending (c : Control Store) (hc : c.analysis = .explicit) (before after : App)
    (concern : Concern) (s s' : ControlState Store) (index : Nat) (t : Thread) (data : Store)
    (hafter : after.WellMade) (hs : after.Ahead s.conditions data)
    (h : Ending c before after concern s index t data s') :
    after.Ahead s'.conditions s'.data ∧ data.time.toInt ≤ s'.data.time.toInt := by
  rcases h with ⟨threads, started, released, u, _, _, _, hlooked, hturn⟩
  rcases fixed_of_passTurn after u s' index hturn with ⟨hdata, hconditions⟩
  rw [hdata, hconditions]
  cases hlooked with
  | none _ hsame =>
      rw [hsame]
      exact ⟨hs, Int.le_refl _⟩
  | evaluated moved found hmoved heval hu =>
      rcases ahead_of_moved after hafter (afterStep s index released data) moved hs hmoved with
        ⟨hahead, hle⟩
      let looked := { afterStep s index released data with data := moved }
      have halarmed : after.Alarmed looked := fun q hq => by
        rcases hahead q hq with ⟨scope, _, halarm, _⟩
        exact ⟨scope, halarm⟩
      have htruth :=
        truthful_of_evaluateConditions c hc after hafter looked u halarmed found heval hu
      rw [htruth.data]
      refine ⟨fun q hq => ?_, hle⟩
      rcases htruth.conditions q hq with ⟨p, hp, rfl | ⟨rfl, _⟩⟩
      · exact hahead q hp
      · exact hahead p hp

/-- A harmless step keeps the ends of all waits ahead, and the clock does not go back. -/
theorem ahead_of_passage (c : Control Store) (hc : c.analysis = .explicit) (k k' : Scheduler)
    (m : Move Store) (w : Passage c k k' m) (hk : k.Sound) (hw : Middle w) (b : App)
    (hb : k'.app.Extends b) (hm : m.Harmless b)
    (hs : k.app.Ahead m.source.conditions m.source.data) :
    k'.app.Ahead m.target.conditions m.target.data
      ∧ m.source.data.time.toInt ≤ m.target.data.time.toInt := by
  rcases ahead_of_statement c hc k k' m w hk hw b hb hm hs with ⟨hahead, htime⟩
  rcases ahead_of_ending c hc _ _ _ _ _ _ _ _ hw.soundAfter.wellMade
    (ahead_of_extends _ _ hw.completing hw.soundLast.wellMade.relations _ _ hahead) hw.ending with
    ⟨hended, hle⟩
  exact ⟨ahead_of_extends _ _ w.grown hw.soundAfter.wellMade.relations _ _ hended, htime ▸ hle⟩

end Scheduler

namespace Session

section Courses

variable (c : Control Store) (hc : c.analysis = .explicit) (app : App) (happ : app.WellMade)

include hc happ

/-- What is known in the middle of a move of a course. -/
theorem middle_of_course (x : Session Store) (m : Move Store) (moves : List (Move Store))
    (k : Scheduler) (h : Course c app x m.source moves)
    (w : Scheduler.Passage c x.scheduler k m) : x.scheduler.Sound ∧ Scheduler.Middle w := by
  rcases explored_of_course c app x m.source moves h with ⟨hx, hfound⟩
  rcases sound_of_explored c hc app happ x hx with ⟨hsound, halarmed⟩
  exact ⟨hsound, Scheduler.middle_of_passage c hc _ _ m w hsound
    (steady_of_explored c app happ.relations x hx m.source hfound) (halarmed m.source hfound)⟩

/-- In a course of harmless steps the ends of all waits are ahead, and no step sets the clock
    back. -/
theorem clock_forward (x : Session Store) (s : ControlState Store) (moves : List (Move Store))
    (h : Course c app x s moves) (hmoves : ∀ m ∈ moves, m.Harmless x.scheduler.app) :
    x.scheduler.app.Ahead s.conditions s.data
      ∧ ∀ m ∈ moves, m.source.data.time.toInt ≤ m.target.data.time.toInt := by
  induction moves generalizing x s with
  | nil =>
      rcases course_nil c app x s h with ⟨data, k, k', hs, _⟩
      refine ⟨fun q hq => ?_, List.forall_mem_nil _⟩
      rw [Scheduler.conditions_of_gives_startState data k k' s hs] at hq
      cases hq
  | cons m moves ih =>
      rcases course_cons c app x s m moves h with ⟨rfl, y, k, hy, ⟨w⟩, hk⟩
      rcases middle_of_course c hc app happ y m moves k hy w with ⟨hsound, hw⟩
      have hext := App.extends_trans _ _ _ (Scheduler.extends_of_passage c _ k m w) hk
      have hbefore := ih y m.source hy fun m' hm' =>
        harmless_of_extends _ _ hext hsound.wellMade.relations m'
          (hmoves m' (List.mem_cons_of_mem m hm'))
      rcases Scheduler.ahead_of_passage c hc _ k m w hsound hw _ hk (hmoves m List.mem_cons_self)
        hbefore.1 with ⟨hahead, hle⟩
      have hdrawn := App.relationsDrawn_of_extends _ _ w.grown hw.soundAfter.wellMade.relations
      exact ⟨ahead_of_extends _ _ hk hdrawn _ _ hahead, List.forall_mem_cons.mpr ⟨hle, hbefore.2⟩⟩

end Courses

end Session

end ActorCheck

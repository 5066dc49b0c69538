import ActorCheck.Proofs.Control.Alarms
import ActorCheck.Proofs.Control.Courses
import ActorCheck.Proofs.Control.NoFaults
import ActorCheck.Proofs.Data.Along
import ActorCheck.Proofs.Data.Stores
import ActorCheck.Proofs.Program.Scoping

/-!
# What Waiting Does to Data

With concrete values, looking at conditions changes the data in one way only. To evaluate an
alarm is to run a relation that decides a comparison, and that leaves the store as it is. When
nobody can run, the clock is moved, to the end of the wait that the only alarm is about.

So the end of a step is known exactly, and `Ending` records it, with every store that comes about.
An alarm that was found to be over is over: the comparison holds in the store in which it was
evaluated.

## Main definitions

* `Control.concrete`: The analysis that runs programs on concrete values.
* `Scheduler.Ruling`: What the evaluation of one alarm leads to.
* `Scheduler.Truthful`: An alternative of a state in which decided alarms are over.
* `Scheduler.ClockMoved`: A store on which the clock was moved, or left alone.
* `Scheduler.Ending`: One way through the end of a step.

## Theorems

* `wakeUp_ne_clock`: The end of a wait is not kept in the clock.
* `Scheduler.truthful_of_evaluateConditions`: What the evaluation of all alarms leads to.
* `Scheduler.ending_of_gives_complete`: Every end of a step has a record.
* `Session.sound_of_explored`: The tables of a session are right, and its conditions are alarms.
-/

namespace ActorCheck

/-- The analysis that runs programs on concrete values. -/
def Control.concrete : Control Store := ⟨.explicit, .default⟩

/-- The name of a cell in which the end of a wait is kept is not short. -/
theorem length_wakeUp (scope : List String) : 21 ≤ (wakeUpVariable scope).cellName.length := by
  have hcell : (wakeUpVariable scope).cellName
      = "::".intercalate scope ++ "::" ++ Builtin.wakeUpName := rfl
  have hname : Builtin.wakeUpName.length = 19 := by decide
  have hcolons : "::".length = 2 := by decide
  rw [hcell, String.length_append, String.length_append, hname, hcolons]
  omega

/-- The end of a wait is not kept in the clock. -/
theorem wakeUp_ne_clock (scope : List String) :
    (wakeUpVariable scope).cellName ≠ Builtin.clock.cellName := by
  intro h
  -- The names differ in length already.
  have hlength := length_wakeUp scope
  have hclock : Builtin.clock.cellName.length = 20 := by decide
  rw [h, hclock] at hlength
  omega

/-- Whether a wait is over is found by comparing its end with the clock. -/
theorem end_of_waitIsOver (s : Store) (scope : List String) (b : Bool)
    (h : eval s (waitIsOver (wakeUpVariable scope)) = .ok (.bool b)) :
    ∃ n : Int64, s.read (wakeUpVariable scope) = .ok (.int n)
      ∧ s.read Builtin.clock = .ok (.int s.time) ∧ b = decide (n.toInt ≤ s.time.toInt) := by
  rcases (except_bind_ok _ _ _).mp h with ⟨left, hleft, h⟩
  rcases (except_bind_ok _ _ _).mp h with ⟨t, ht, h⟩
  rcases (except_bind_ok _ _ _).mp h with ⟨right, hright, h⟩
  rcases (except_bind_ok _ _ _).mp h with ⟨n, hn, h⟩
  -- Evaluation compares integers, so both variables have been read as such.
  rw [(asInt_ok _ _ _).mp ht] at hleft
  rw [(asInt_ok _ _ _).mp hn] at hright
  have htime : s.time = t := s.time_of_read t hleft
  rw [htime]
  exact ⟨n, hright, hleft, (Value.bool.inj ((except_pure_ok _ _).mp h)).symm⟩

/-- A wait is over once the clock shows what its variable holds. -/
theorem not_ahead_of_reached (s : Store) (scope : List String) (value : Value)
    (hend : s.read (wakeUpVariable scope) = .ok value)
    (hclock : s[Builtin.clock.cellName]? = some value) :
    eval s (waitIsOver (wakeUpVariable scope)) ≠ .ok (.bool false) := by
  intro h
  rcases end_of_waitIsOver s scope false h with ⟨n, hn, _, hahead⟩
  rw [hend] at hn
  cases hn
  rw [s.time_of_cell n hclock] at hahead
  exact of_decide_eq_false hahead.symm (Int.le_refl _)

namespace Scoping

variable (s : Scoping)

theorem expr_not (e e' : Expr) (h : s.expr e = .ok e') : s.expr (.not e) = .ok (.not e') := by
  unfold expr at h ⊢
  rw [Expr.replace, h]
  rfl

/-- The condition that a wait is over has all its variables in their places. -/
theorem expr_waitIsOver (scope : List String) :
    s.expr (waitIsOver (wakeUpVariable scope)) = .ok (waitIsOver (wakeUpVariable scope)) := by
  have hclock : (Expr.var Builtin.clock).replace s.replacement = .ok (.var Builtin.clock) := by
    rw [Expr.replace]
    rfl
  have hwakeUp : (Expr.var (wakeUpVariable scope)).replace s.replacement
      = .ok (.var (wakeUpVariable scope)) := by
    rw [Expr.replace]
    rfl
  rw [expr, waitIsOver, Expr.replace, hclock, hwakeUp]
  rfl

end Scoping

namespace Explicit

/-- A condition that lets a store pass holds in it and leaves it as it is. -/
theorem mem_successors_assume (s t : Store) (e : Expr) (found : List Store)
    (h : successors s (.assume e) = .ok found) (ht : t ∈ found) :
    t = s ∧ eval s e = .ok (.bool true) := by
  rcases (except_bind_ok _ _ _).mp h with ⟨value, hvalue, h⟩
  rcases (except_bind_ok _ _ _).mp h with ⟨holds, hholds, h⟩
  cases holds with
  | false =>
      rw [← (except_pure_ok _ _).mp h] at ht
      cases ht
  | true =>
      rw [← (except_pure_ok _ _).mp h] at ht
      rw [(asBool_ok _ _ _).mp hholds] at hvalue
      exact ⟨List.mem_singleton.mp ht, hvalue⟩

end Explicit

namespace Scheduler

/-- What requires a condition whose variables are in their places requires just that. -/
theorem required_of_after (app : App) (scoping : Scoping) (concern : Concern) (id : OperationId)
    (e : Expr) (hid : id ≠ epsilonId) (hop : app.operation id = .ok ⟨id, .assume e⟩)
    (he : scoping.expr e = .ok e) (t u : Store) (next : List Store)
    (hnext : (⟨.explicit, concern, app.operationOf, fun op => ofScope (scoping.operation op)⟩ :
      Runner Store).after t id = .ok next) (hu : u ∈ next) :
    u = t ∧ eval t e = .ok (.bool true) := by
  let runner : Runner Store :=
    ⟨.explicit, concern, app.operationOf, fun op => ofScope (scoping.operation op)⟩
  have hlook : runner.lookUp id = .ok ⟨id, .assume e⟩ := (ofModel_ok _ _).mpr hop
  have hplaced : runner.scope ⟨id, .assume e⟩ = .ok ⟨id, .assume e⟩ := by
    change ofScope (scoping.operation ⟨id, .assume e⟩) = _
    rw [scoping.operation_assume id e e he]
    rfl
  rcases runner.mem_after t u id _ _ hlook hplaced next hnext hu with
    ⟨hnothing, _⟩ | ⟨states, hstates, hmem⟩
  · exact absurd hnothing hid
  · exact Explicit.mem_successors_assume t u e states hstates hmem

/-- Running the relation of an alarm leaves the store as it is, and reaches an exit only if the
    wait is over. If the relation settles its condition, the run ends elsewhere only if the wait is
    not over. -/
theorem verdict_of_runAlong (app : App) (r : Relation) (scope : List String) (scoping : Scoping)
    (concern : Concern) (hr : app.Judges r (waitIsOver (wakeUpVariable scope))) (l : LocationId)
    (hentry : r.soleEntry = .ok l) (s : Store) (found : List (Store × Bool))
    (h : (⟨.explicit, concern, app.operationOf, fun op => ofScope (scoping.operation op)⟩ :
      Runner Store).runAlong r l s = .ok found) :
    ∀ p ∈ found, p.1 = s
      ∧ (p.2 = true → eval s (waitIsOver (wakeUpVariable scope)) = .ok (.bool true))
      ∧ (app.Settles r (waitIsOver (wakeUpVariable scope)) → p.2 = false →
        eval s (waitIsOver (wakeUpVariable scope)) = .ok (.bool false)) := by
  let condition := waitIsOver (wakeUpVariable scope)
  let runner : Runner Store :=
    ⟨.explicit, concern, app.operationOf, fun op => ofScope (scoping.operation op)⟩
  have hover := scoping.expr_waitIsOver scope
  rcases hr.entry with ⟨l', hl', hnoExit⟩
  rw [hentry] at hl'
  cases hl'
  -- An exit is only reached once the condition was found to hold, and the entry is only left for
  -- an exit or once the condition was found not to hold.
  have hall := Runner.invariant_of_runAlong runner r
    (fun m t => t = s ∧ (m ∈ r.exits → eval s condition = .ok (.bool true))
      ∧ (app.Settles r condition →
        m = l ∨ m ∈ r.exits ∨ eval s (.not condition) = .ok (.bool true))) ?_ l s
    ⟨rfl, fun hexit => absurd hexit hnoExit, fun _ => Or.inl rfl⟩ found h
  · intro p hp
    rcases hall p hp with ⟨m, ⟨hsame, hholds, hsettled⟩, hfinishes, hmark⟩
    rw [hmark]
    refine ⟨hsame, fun hexit => hholds hexit, fun hsettles hnone => ?_⟩
    rcases hsettled hsettles with rfl | hexit | hnot
    · rw [hsettles.entry m hentry] at hfinishes
      cases hfinishes
    · have hsome : r.exits.contains m = true := hexit
      rw [hnone] at hsome
      cases hsome
    · exact eval_of_not s condition hnot
  · rintro e he t ⟨rfl, _⟩ next hnext u hu
    have hholding : app.operation e.op = .ok ⟨e.op, .assume condition⟩ →
        u = t ∧ eval t condition = .ok (.bool true) := fun hop =>
      required_of_after app scoping concern e.op _ (hr.acts e he) hop hover t u next hnext hu
    have hfailing : app.operation e.op = .ok ⟨e.op, .assume (.not condition)⟩ →
        u = t ∧ eval t (.not condition) = .ok (.bool true) := fun hop =>
      required_of_after app scoping concern e.op _ (hr.acts e he) hop (scoping.expr_not _ _ hover)
        t u next hnext hu
    have hopen : app.Settles r condition →
        e.target = l ∨ e.target ∈ r.exits ∨ eval t (.not condition) = .ok (.bool true) := by
      intro hsettles
      rcases hsettles.edges e he with ⟨_, hexit⟩ | hfails
      · exact Or.inr (Or.inl hexit)
      · exact Or.inr (Or.inr (hfailing hfails).2)
    -- An edge of the relation requires the condition, or its negation and then leads to no exit.
    rcases hr.edges e he with hholds | ⟨hfails, hexit⟩
    · exact ⟨(hholding hholds).1, fun _ => (hholding hholds).2, hopen⟩
    · exact ⟨(hfailing hfails).1, fun h => absurd h hexit, hopen⟩

/-- What the evaluation of the alarm with a number leads to. There may be none. Otherwise the alarm
    was run, and it was found whether the wait is over. -/
inductive Ruling (app : App) (a : ControlState Store) (waiter : Nat) (checker : ThreadId) :
    ControlState Store → Prop where
  | absent (nobody : ∀ q ∈ a.conditions, q.id ≠ checker) : Ruling app a waiter checker a
  | fails (position : Nat) (q : Thread) (condition : a.conditions[position]? = some q)
      (id_eq : q.id = checker)
      (ahead : app.Exhaustive → ∀ scope, app.Alarm q scope →
        eval a.data (waitIsOver (wakeUpVariable scope)) = .ok (.bool false)) :
      Ruling app a waiter checker a
  | holds (position : Nat) (q : Thread) (b : ControlState Store)
      (condition : a.conditions[position]? = some q) (id_eq : q.id = checker)
      (isOver : ∀ scope, app.Alarm q scope →
        eval a.data (waitIsOver (wakeUpVariable scope)) = .ok (.bool true))
      (settle : settleCondition app a waiter position q = .ok b) : Ruling app a waiter checker b

/-- Settling a condition marks its condition thread as done and leaves the data alone. -/
theorem fixed_of_settleCondition {σ : Type} (app : App) (a b : ControlState σ)
    (waiter position : Nat) (q : Thread) (h : settleCondition app a waiter position q = .ok b) :
    b.data = a.data ∧ b.conditions = a.conditions.set position { q with status := .done } := by
  unfold settleCondition at h
  dsimp only at h
  split at h
  · rcases (except_bind_ok _ _ _).mp h with ⟨u, _, hb⟩
    cases (except_pure_ok _ _).mp hb
    exact ⟨rfl, rfl⟩
  · cases (except_pure_ok _ _).mp h
    exact ⟨rfl, rfl⟩

/-- An alternative of a state in which nothing was decided but what is over. -/
structure Truthful (app : App) (s a : ControlState Store) : Prop where
  data : a.data = s.data
  conditions : ∀ q ∈ a.conditions, ∃ p ∈ s.conditions, q = p ∨ (q = { p with status := .done }
    ∧ ∀ scope, app.Alarm p scope →
      eval s.data (waitIsOver (wakeUpVariable scope)) = .ok (.bool true))

theorem truthful_refl (app : App) (s : ControlState Store) : Truthful app s s :=
  ⟨rfl, fun q hq => ⟨q, hq, Or.inl rfl⟩⟩

/-- What alarms are about does not change when some are decided. -/
theorem alarmed_of_truthful (app : App) (s a : ControlState Store) (hs : app.Alarmed s)
    (h : Truthful app s a) : app.Alarmed a := by
  intro q hq
  rcases h.conditions q hq with ⟨p, hp, rfl | ⟨rfl, _⟩⟩
  · exact hs q hp
  · exact hs p hp

section Evaluate

variable (c : Control Store) (hc : c.analysis = .explicit) (app : App) (happ : app.WellMade)

include hc happ

theorem ruling_of_evaluateCondition (a b : ControlState Store) (waiter : Nat)
    (checker : ThreadId) (found : List (ControlState Store)) (ha : app.Alarmed a)
    (h : evaluateCondition c app a waiter checker = .ok found) (hb : b ∈ found) :
    Ruling app a waiter checker b := by
  unfold evaluateCondition at h
  split at h
  next hnobody =>
    cases h
    rw [List.mem_singleton.mp hb]
    refine .absent fun q hq hid => ?_
    rcases List.getElem?_of_mem hq with ⟨position, hposition⟩
    exact List.find?_eq_none.mp hnobody (q, position)
      (List.mem_zipIdx_iff_getElem?.mpr hposition) (beq_iff_eq.mpr hid)
  next q position hfind =>
    have hq : a.conditions[position]? = some q :=
      List.mem_zipIdx_iff_getElem?.mp (List.mem_of_find?_eq_some hfind)
    have hsame := List.find?_some hfind
    have hid : q.id = checker := beq_iff_eq.mp hsame
    -- The relation of the alarm is found by its own scope. The others it could be the alarm of have
    -- the same relation.
    rcases ha q (List.mem_of_getElem? hq) with ⟨scope₀, hscope₀⟩
    rcases app.judge_of_alarm happ q scope₀ hscope₀ with ⟨r, hr, hentry, _⟩
    rcases (except_bind_ok _ _ _).mp h with ⟨r', hr', h⟩
    rw [App.relationOf, ofModel_ok, hr] at hr'
    cases hr'
    rcases (except_bind_ok _ _ _).mp h with ⟨actor, _, h⟩
    rcases (except_bind_ok _ _ _).mp h with ⟨place, _, h⟩
    rcases (except_bind_ok _ _ _).mp h with ⟨results, hresults, h⟩
    rw [hc] at hresults
    have hjudges : ∀ scope, app.Alarm q scope →
        app.Judges r (waitIsOver (wakeUpVariable scope)) := by
      intro scope hscope
      rcases app.judge_of_alarm happ q scope hscope with ⟨r', hr', _, hjudges⟩
      rw [hr] at hr'
      cases hr'
      exact hjudges
    have hverdict := fun scope hscope => verdict_of_runAlong app r scope _ _ (hjudges scope hscope)
      _ hentry a.data results hresults
    rcases mem_of_forall₂_right _ results found ((except_mapM_ok _ _ _).mp h) b hb with
      ⟨⟨data, holds⟩, hmem, hone⟩
    have hdata : data = a.data := (hverdict scope₀ hscope₀ _ hmem).1
    subst hdata
    cases holds with
    | false =>
        cases hone
        exact .fails position q hq hid fun hall scope hscope =>
          (hverdict scope hscope _ hmem).2.2 (app.settles_of_alarm hall q scope hscope r hr) rfl
    | true =>
        exact .holds position q b hq hid
          (fun scope hscope => (hverdict scope hscope _ hmem).2.1 rfl) hone

theorem truthful_of_evaluateCondition (s a b : ControlState Store) (waiter : Nat)
    (checker : ThreadId) (found : List (ControlState Store)) (hs : app.Alarmed s)
    (ha : Truthful app s a) (h : evaluateCondition c app a waiter checker = .ok found)
    (hb : b ∈ found) : Truthful app s b := by
  cases ruling_of_evaluateCondition c hc app happ a b waiter checker found
    (alarmed_of_truthful app s a hs ha) h hb with
  | absent _ => exact ha
  | fails _ _ _ _ _ => exact ha
  | holds position q _ hq _ hover hsettle =>
      rcases fixed_of_settleCondition app a b waiter position q hsettle with ⟨hdata, hconditions⟩
      refine ⟨hdata.trans ha.data, fun r hr => ?_⟩
      rw [hconditions] at hr
      -- The condition thread is done, and all others are as they were.
      rcases List.mem_or_eq_of_mem_set hr with hr | rfl
      · exact ha.conditions r hr
      · rcases ha.conditions q (List.mem_of_getElem? hq) with ⟨p, hp, rfl | ⟨rfl, hover'⟩⟩
        · refine ⟨q, hp, Or.inr ⟨rfl, fun scope hscope => ?_⟩⟩
          rw [← ha.data]
          exact hover scope hscope
        · exact ⟨p, hp, Or.inr ⟨rfl, hover'⟩⟩

/-- What the evaluation of all alarms leads to, before those that are done are cleared away. -/
theorem truthful_of_evaluatePending (s : ControlState Store) (pending : List (Nat × ThreadId))
    (alternatives found : List (ControlState Store)) (hs : app.Alarmed s)
    (halternatives : ∀ a ∈ alternatives, Truthful app s a)
    (h : evaluatePending c app pending alternatives = .ok found) :
    ∀ b ∈ found, Truthful app s b :=
  invariant_of_evaluatePending c app (fun _ a => Truthful app s a)
    (fun waiter checker _ a b bs ha heval hb =>
      truthful_of_evaluateCondition c hc app happ s a b waiter checker bs hs ha heval hb)
    pending alternatives found halternatives h

theorem truthful_of_evaluateConditions (s u : ControlState Store) (hs : app.Alarmed s)
    (found : List (ControlState Store)) (h : evaluateConditions c app s = .ok found)
    (hu : u ∈ found) : Truthful app s u := by
  rcases pending_of_evaluateConditions c app s u found h hu with
    ⟨pending, alternatives, a, _, halternatives, ha, rfl⟩
  -- Clearing away those that are done leaves fewer conditions, so nothing has to be said about more
  -- of them.
  have htruth := truthful_of_evaluatePending c hc app happ s pending [s] alternatives hs
    (List.forall_mem_singleton.mpr (truthful_refl app s)) halternatives a ha
  exact ⟨htruth.data, fun q hq => htruth.conditions q (List.mem_of_mem_filter hq)⟩

end Evaluate

/-- A store on which the clock was moved to the end of the wait that the only alarm is about, or
    left alone because somebody can run. -/
inductive ClockMoved (app : App) (s : ControlState Store) : Store → Prop where
  | still (busy : progresses s = true) : ClockMoved app s s.data
  | moved (data : Store) (q : Thread) (scope : List String) (only : s.conditions = [q])
      (alarm : app.Alarm q scope)
      (others : ∀ cell : String, cell ≠ Builtin.clock.cellName → data[cell]? = s.data[cell]?)
      (value : Value) (goal : s.data.read (wakeUpVariable scope) = .ok value)
      (clock : data[Builtin.clock.cellName]? = some value) : ClockMoved app s data

/-- Moving the clock for an alarm. -/
theorem moved_of_gives_fastForward (c : Control Store) (hc : c.analysis = .explicit)
    (s u : ControlState Store) (q : Thread) (scope : List String) (a : Acceleration)
    (k k' : Scheduler) (moved : List (ControlState Store)) (hk : k.Sound)
    (honly : s.conditions = [q]) (hq : k.app.Alarm q scope)
    (ha : k.accelerations[q.script]? = some a)
    (h : Gives (fastForward c s q.script a) k moved k') (hu : u ∈ moved) :
    ∃ data, u = { s with data := data } ∧ ClockMoved k'.app s data := by
  let v := wakeUpVariable scope
  let Kept : Store → Prop := fun t =>
    ∀ cell : String, cell ≠ Builtin.clock.cellName → t[cell]? = s.data[cell]?
  let Moved : Store → Prop := fun t =>
    ∃ value, s.data.read v = .ok value ∧ t[Builtin.clock.cellName]? = some value
  rcases alarm_of_accelerations k hk q scope a hq ha with ⟨hvariant, hgoal⟩
  unfold fastForward at h
  rcases (gives_bind _ _ _ _ _).mp h with ⟨r, k₁, hr, h⟩
  rcases advances_of_gives_accelerator q.script a k k₁ r hk ha hr with ⟨hadvances, hactive⟩
  have hext : k.app.Extends k₁.app := by
    have hgrows := keeps_accelerator additive_extends.modest k q.script a ha
    rw [hr] at hgrows
    exact hgrows
  rw [gives_program_bind] at h
  rcases (gives_lookUp_bind _ _ _ _ _).mp h with ⟨actor, _, h⟩
  rcases (gives_lookUp_bind _ _ _ _ _).mp h with ⟨entry, hentry, h⟩
  rcases (gives_lookUp_bind _ _ _ _ _).mp h with ⟨found, hfound, h⟩
  rcases (gives_pure _ _ _ _).mp h with ⟨rfl, rfl⟩
  rw [ofModel_ok] at hentry
  rcases List.mem_map.mp hu with ⟨⟨data, atExit⟩, hmem, rfl⟩
  -- Of the ways along the accelerator only those are followed that have come to an exit.
  rcases List.mem_filter.mp hmem with ⟨hmem, hexit⟩
  have hmark : atExit = true := hexit
  rw [hc] at hfound
  -- Along every edge the clock gets the value of the variable, which the clock is not. No exit is
  -- reached before that.
  have hall := Runner.invariant_of_runAlong _ r (fun m t => Kept t ∧ (m ∈ r.exits → Moved t)) ?_
    entry s.data ⟨fun _ _ => rfl, fun hstart => absurd hstart (hactive.entry entry hentry)⟩ found
    hfound
  · rcases hall _ hmem with ⟨m, ⟨hothers, hmoved⟩, _, hcontains⟩
    have hin : r.exits.contains m = true := hcontains.symm.trans hmark
    rcases hmoved (Std.ExtTreeSet.contains_iff_mem.mp hin) with ⟨value, hvalue, hclock⟩
    exact ⟨data, rfl, .moved data q scope honly
      (App.alarm_of_extends _ _ hext hk.wellMade.relations q scope hq) hothers value hvalue hclock⟩
  · intro e he t ht next hnext w hw
    have hop := hadvances e he
    rw [hvariant, hgoal] at hop
    rcases Runner.mem_after _ t w e.op _ _ ((ofModel_ok _ _).mpr hop) rfl next hnext hw with
      ⟨hnothing, _⟩ | ⟨states, hstates, hmem⟩
    · exact absurd hnothing (hactive.acts e he)
    · rcases (except_bind_ok _ _ _).mp hstates with ⟨value, hvalue, hstates⟩
      rw [← (except_pure_ok _ _).mp hstates] at hmem
      rw [List.mem_singleton.mp hmem]
      have hread : s.data.read v = .ok value := by
        rw [← Store.read_congr t s.data v (ht.1 _ (wakeUp_ne_clock scope))]
        exact hvalue
      refine ⟨fun cell hcell => ?_, fun _ => ⟨value, hread, t.getElem?_write_self _ value⟩⟩
      rw [t.getElem?_write_ne _ value cell hcell.symm]
      exact ht.1 cell hcell

/-- What looking at the conditions leads to, with the store in which they were evaluated. -/
inductive Looked (c : Control Store) (app : App) (s u : ControlState Store) : Prop where
  | none (empty : s.conditions = []) (same : u = s)
  | evaluated (data : Store) (found : List (ControlState Store)) (moved : ClockMoved app s data)
      (evaluate : evaluateConditions c app { s with data := data } = .ok found) (result : u ∈ found)

theorem looked_of_gives_runConditions (c : Control Store) (hc : c.analysis = .explicit)
    (s u : ControlState Store) (k k' : Scheduler) (woken : List (ControlState Store))
    (hk : k.Sound) (hs : k.app.Alarmed s) (h : Gives (runConditions c s) k woken k')
    (hu : u ∈ woken) : Looked c k'.app s u := by
  unfold runConditions at h
  split at h
  next hempty =>
    rcases (gives_pure _ _ _ _).mp h with ⟨rfl, rfl⟩
    exact .none (List.isEmpty_iff.mp hempty) (List.mem_singleton.mp hu)
  next =>
    split at h
    next hbusy =>
      rw [gives_program_bind, gives_lookUp] at h
      rcases h with ⟨heval, rfl⟩
      exact .evaluated s.data woken (.still hbusy) heval hu
    next =>
      rcases (gives_bind _ _ _ _ _).mp h with ⟨_, _, hget, h⟩
      cases hget
      dsimp only at h
      split at h
      next script a hwait =>
        -- Nobody can run, and there is one condition, which is known to be a wait for the clock.
        rcases accelerations_of_clockWait? _ _ script a hwait with ⟨q, honly, rfl, ha, _⟩
        rcases hs q (by rw [honly]; exact List.mem_singleton_self q) with ⟨scope, hscope⟩
        rcases (gives_bind _ _ _ _ _).mp h with ⟨moved, k₁, hmoved, h⟩
        rw [gives_program_bind] at h
        rcases (gives_bind _ _ _ _ _).mp h with ⟨found, k₂, hfound, h⟩
        rcases (gives_pure _ _ _ _).mp h with ⟨rfl, rfl⟩
        rcases gives_mapM_lookUp _ _ _ _ _ hfound with ⟨heval, rfl⟩
        rcases List.mem_flatten.mp hu with ⟨results, hresults, hu⟩
        rcases mem_of_forall₂_right _ _ _ ((except_mapM_ok _ _ _).mp heval) results hresults with
          ⟨t, ht, hone⟩
        rcases moved_of_gives_fastForward c hc s t q scope a k k₁ moved hk honly hscope ha hmoved ht
          with ⟨data, rfl, hdata⟩
        exact .evaluated data results hdata hone hu
      next => exact absurd h (not_gives_throw _ _ _ _)

/-- One way through the end of a step, which begins when the data analysis has brought the store
    to `data`. -/
inductive Ending (c : Control Store) (before after : App) (concern : Concern)
    (s : ControlState Store) (index : Nat) (t : Thread) (data : Store) (s' : ControlState Store) :
    Prop where
  | intro (threads started released : List Thread) (u : ControlState Store)
      (finish : before.finishThreads (s.setThread index { t with operations := [] }).threads
        = .ok threads)
      (start : before.startMonitors concern threads = .ok started)
      (release : before.releaseWaiting started = .ok released)
      (looked : Looked c after (afterStep s index released data) u)
      (turn : after.passTurn u index = .ok s')

theorem ending_of_gives_complete (c : Control Store) (hc : c.analysis = .explicit)
    (s s' : ControlState Store) (index : Nat) (t : Thread) (concern : Concern) (data : Store)
    (k k' : Scheduler) (next : List (ControlState Store)) (hk : k.Sound) (hs : k.app.Alarmed s)
    (h : Gives (complete c s index t concern data) k next k') (hs' : s' ∈ next) :
    Ending c k.app k'.app concern s index t data s' := by
  unfold complete at h
  rw [gives_program_bind] at h
  rcases (gives_lookUp_bind _ _ _ _ _).mp h with ⟨threads, hfinish, h⟩
  rcases (gives_bind _ _ _ _ _).mp h with ⟨woken, k₁, hwoken, h⟩
  rw [gives_program_bind] at h
  rcases gives_mapM_lookUp _ _ _ _ _ h with ⟨hturns, rfl⟩
  rcases mem_of_forall₂_right _ _ _ ((except_mapM_ok _ _ _).mp hturns) s' hs' with ⟨u, hu, hturn⟩
  unfold wakeAll at hwoken
  rw [gives_program_bind] at hwoken
  rcases (gives_lookUp_bind _ _ _ _ _).mp hwoken with ⟨started, hstart, hwoken⟩
  rcases (gives_lookUp_bind _ _ _ _ _).mp hwoken with ⟨released, hrelease, hwoken⟩
  exact .intro threads started released u hfinish hstart hrelease
    (looked_of_gives_runConditions c hc _ u k k₁ woken hk hs hwoken hu) hturn

/-- Only threads take turns. -/
theorem fixed_of_passTurn {σ : Type} (app : App) (s s' : ControlState σ) (index : Nat)
    (h : app.passTurn s index = .ok s') : s'.data = s.data ∧ s'.conditions = s.conditions := by
  rcases app.turned_of_passTurn s s' index h with ⟨t, more, _, _, _, ⟨rfl, _⟩ | hgrant⟩
  · exact ⟨rfl, rfl⟩
  · rcases app.turned_of_grantTurn _ s' index hgrant with rfl | ⟨_, _, _, _, _, rfl⟩
    · exact ⟨rfl, rfl⟩
    · exact ⟨rfl, rfl⟩

/-- A step ends with alarms as conditions, and only the clock may have changed. -/
theorem alarmed_of_ending (c : Control Store) (hc : c.analysis = .explicit) (before after : App)
    (concern : Concern) (s s' : ControlState Store) (index : Nat) (t : Thread) (data : Store)
    (hafter : after.WellMade) (hs : after.Alarmed s)
    (h : Ending c before after concern s index t data s') : after.Alarmed s'
      ∧ ∀ cell : String, cell ≠ Builtin.clock.cellName → s'.data[cell]? = data[cell]? := by
  rcases h with ⟨threads, started, released, u, _, _, _, hlooked, hturn⟩
  rcases fixed_of_passTurn after u s' index hturn with ⟨hdata, hconditions⟩
  unfold App.Alarmed
  rw [hdata, hconditions]
  cases hlooked with
  | none _ hsame =>
      rw [hsame]
      exact ⟨hs, fun _ _ => rfl⟩
  -- Evaluating the alarms leaves the data alone, so what may have changed is the clock that was
  -- moved before.
  | evaluated moved found hmoved heval hu =>
      let looked := { afterStep s index released data with data := moved }
      have htruth := truthful_of_evaluateConditions c hc after hafter looked u hs found heval hu
      refine ⟨alarmed_of_truthful after looked u hs htruth, fun cell hcell => ?_⟩
      rw [htruth.data]
      cases hmoved with
      | still _ => rfl
      | moved _ _ _ _ _ hothers _ _ _ => exact hothers cell hcell

section Statements

variable {σ : Type}

/-- A statement other than a timed wait adds no condition thread. None changes data by itself. -/
theorem fixed_of_effect (before after : App) (s s' : ControlState σ) (index : Nat) (t : Thread)
    (statement : Statement) (h : Effect before after s index t statement s') :
    s'.data = s.data ∧ ((∀ args result, statement ≠ .call Builtin.waitSeconds args result) →
      s'.conditions = s.conditions) := by
  cases h with
  | paused args result => exact ⟨rfl, fun hno => absurd rfl (hno args result)⟩
  | _ => exact ⟨rfl, fun _ => rfl⟩

/-- How a timed wait begins, as the statement on an edge. -/
theorem paused_of_gives_follow (s : ControlState σ) (index : Nat) (op : Operation)
    (target : Place) (t : Thread) (args : List Expr) (result : Option Variable) (k k' : Scheduler)
    (outcomes : List (ControlState.Outcome σ)) (hk : k.Sound) (ht : s.threads[index]? = some t)
    (hop : op.statement = .call Builtin.waitSeconds args result)
    (h : Gives (follow s index op target) k outcomes k') :
    ∃ loops seconds scope ops checker, args = [seconds] ∧ k.app.localScope target = .ok scope
      ∧ ops.map Operation.statement = settingAlarm (wakeUpVariable scope) seconds
      ∧ (∀ op ∈ ops, op.id ≠ epsilonId) ∧ k'.app.Alarm checker scope
      ∧ outcomes = [({ s.setThread index
          { t with
            loops := loops
            place := target
            status := .wait
            waitingFor := t.waitingFor.insert checker.id
            operations := ops } with
          conditions := s.conditions ++ [checker] }, false)] := by
  rcases interpreted_of_gives_follow s index op target t k k' outcomes ht h with ⟨loops, h⟩
  rw [hop] at h
  rcases called_of_gives_interpret _ index _ _ args result t.place target k k' outcomes h with
    ⟨actor, _, h⟩
  unfold interpretCall at h
  rw [if_pos rfl] at h
  rcases paused_of_gives_beginWait _ index _ args k k' outcomes hk h with
    ⟨seconds, scope, ops, checker, hargs, hscope, hops, hids, halarm, rfl⟩
  refine ⟨loops, seconds, scope, ops, checker, hargs, hscope, hops, hids, halarm, ?_⟩
  unfold ControlState.setThread
  dsimp only
  rw [List.set_set]

theorem alarmed_of_gives_follow (s : ControlState σ) (index : Nat) (op : Operation)
    (target : Place) (t : Thread) (k k' : Scheduler) (outcomes : List (ControlState.Outcome σ))
    (hk : k.Sound) (hs : k.app.Alarmed s) (ht : s.threads[index]? = some t)
    (h : Gives (follow s index op target) k outcomes k') (o : ControlState.Outcome σ)
    (ho : o ∈ outcomes) : k'.app.Alarmed o.1 := by
  have hext := extends_of_gives _ (grows_follow s index op target) k k' outcomes h
  have hold := App.alarmed_of_extends _ _ hext hk.wellMade.relations s hs
  -- A timed wait adds its own alarm. No other statement adds a condition.
  by_cases hwait : ∃ args result, op.statement = .call Builtin.waitSeconds args result
  · rcases hwait with ⟨args, result, hop⟩
    rcases paused_of_gives_follow s index op target t args result k k' outcomes hk ht hop h with
      ⟨_, _, scope, _, checker, _, _, _, _, halarm, rfl⟩
    rw [List.mem_singleton.mp ho]
    intro q hq
    rcases List.mem_append.mp hq with hq | hq
    · exact hold q hq
    · rw [List.mem_singleton.mp hq]
      exact ⟨scope, halarm⟩
  · rcases effect_of_gives_follow s index op target t k k' outcomes ht h with ⟨loops, heffect⟩
    have hsame := (fixed_of_effect _ _ _ _ _ _ _ (heffect o ho)).2 fun args result hop =>
      hwait ⟨args, result, hop⟩
    unfold App.Alarmed
    rw [hsame]
    exact hold

end Statements

/-- What is known in the middle of a move: the programs grow from one phase to the next, the
    tables of the scheduler are right all along, and the step has a known end. -/
structure Middle {c : Control Store} {k k' : Scheduler} {m : Move Store} (w : Passage c k k' m) :
    Prop where
  beginning : k.app.Extends w.k₁.app
  following : w.k₁.app.Extends w.k₂.app
  analysing : w.k₂.app.Extends w.k₄.app
  completing : w.k₄.app.Extends w.k₅.app
  soundFirst : w.k₁.Sound
  soundLast : w.k₄.Sound
  soundAfter : w.k₅.Sound
  runs : w.t.status = .running
  inStep : w.s₁.InStep m.index
  coherent : w.k₄.app.Coherent w.s₁
  alarmed : w.k₄.app.Alarmed w.s₁
  ending : Ending c w.k₄.app w.k₅.app w.actor.concern w.s₁ m.index w.t₁ w.data m.target

theorem middle_of_passage (c : Control Store) (hc : c.analysis = .explicit) (k k' : Scheduler)
    (m : Move Store) (w : Passage c k k' m) (hk : k.Sound) (hsteady : k.app.Steady m.source)
    (hs : k.app.Alarmed m.source) : Middle w := by
  have hphases := fun {R : Scheduler → Scheduler → Prop} (hR : Additive R) =>
    related_of_passage hR c k k' m w
  rcases hphases additive_extends with ⟨hext₁, hext, hext₂, hext'⟩
  rcases hphases additive_sound with ⟨htried, hfollow, hsettle, hcomplete⟩
  have hk₁ := htried hk
  have hk₂ := hfollow hk₁
  have hk₄ := hsettle hk₂
  have hruns := m.source.isRunning_of_running m.index w.t w.running w.thread
  have hout : (w.s₁, w.settled) ∈ w.outcomes ++ (w.s₁, w.settled) :: w.outcomes' :=
    List.mem_append_right _ List.mem_cons_self
  -- Each fact is taken from the program of its phase to the one of the next phase.
  have hsource := k.app.coherent_of_extends w.k₁.app hext₁ hk.wellMade.relations m.source
    (coherent_of_awaiting k.app m.source hsteady.awaiting)
  have hcoherent := coherent_of_gives_follow m.source m.index m.edge.1 m.edge.2 w.t w.k₁ w.k₂ _
    hk₁.wellMade.relations hsource w.thread hruns w.followed (w.s₁, w.settled) hout
  have hinStep := inStep_of_gives_follow m.source m.index m.edge.1 m.edge.2 w.t w.k₁ w.k₂ _
    (m.source.inStep_of_running m.index hsteady.single w.running) hsource.linked w.thread hruns
    w.followed (w.s₁, w.settled) hout
  have halarmed := alarmed_of_gives_follow m.source m.index m.edge.1 m.edge.2 w.t w.k₁ w.k₂ _ hk₁
    (App.alarmed_of_extends _ _ hext₁ hk.wellMade.relations _ hs) w.thread w.followed
    (w.s₁, w.settled) hout
  have halarmed' := App.alarmed_of_extends _ _ hext₂ hk₂.wellMade.relations _ halarmed
  exact ⟨hext₁, hext, hext₂, hext', hk₁, hk₄, hcomplete hk₄, hruns, hinStep,
    w.k₂.app.coherent_of_extends w.k₄.app hext₂ hk₂.wellMade.relations w.s₁ hcoherent, halarmed',
    ending_of_gives_complete c hc w.s₁ m.target m.index w.t₁ w.actor.concern w.data w.k₄ w.k₅ w.next
      hk₄ halarmed' w.completed w.reached⟩

/-- The conditions are alarms after a move, and of the data only the clock has changed since the
    statement was performed. -/
theorem alarmed_of_middle (c : Control Store) (hc : c.analysis = .explicit) (k k' : Scheduler)
    (m : Move Store) (w : Passage c k k' m) (hw : Middle w) : k'.app.Alarmed m.target
      ∧ ∀ cell : String, cell ≠ Builtin.clock.cellName → m.target.data[cell]? = w.data[cell]? := by
  rcases alarmed_of_ending c hc _ _ _ _ _ _ _ _ hw.soundAfter.wellMade
    (App.alarmed_of_extends _ _ hw.completing hw.soundLast.wellMade.relations _ hw.alarmed)
    hw.ending with ⟨halarmed, hcells⟩
  exact ⟨App.alarmed_of_extends _ _ w.grown hw.soundAfter.wellMade.relations _ halarmed, hcells⟩

/-- A program starts without conditions. -/
theorem conditions_of_gives_startState {σ : Type} (data : σ) (k k' : Scheduler)
    (s : ControlState σ) (h : Gives (startState data) k s k') : s.conditions = [] := by
  unfold startState at h
  rcases (gives_bind _ _ _ _ _).mp h with ⟨threads, k₁, _, h⟩
  rw [gives_program_bind] at h
  rcases (gives_lookUp_bind _ _ _ _ _).mp h with ⟨next, hgrant, h⟩
  rcases (gives_lookUp_bind _ _ _ _ _).mp h with ⟨_, _, h⟩
  rcases (gives_pure _ _ _ _).mp h with ⟨rfl, rfl⟩
  rcases k₁.app.turned_of_grantTurn _ next _ hgrant with rfl | ⟨_, _, _, _, _, rfl⟩
  · rfl
  · rfl

end Scheduler

namespace Session

/-- The tables of a session are right, and the conditions of every state that was found are
    alarms. -/
theorem sound_of_explored (c : Control Store) (hc : c.analysis = .explicit) (app : App)
    (happ : app.WellMade) (x : Session Store) (h : Explored c app x) :
    x.scheduler.Sound ∧ ∀ s ∈ x.found, x.scheduler.app.Alarmed s := by
  refine invariant_of_moves c app Scheduler.Sound (fun app s => app.Alarmed s)
    (Scheduler.sound_new app happ) Scheduler.additive_sound ?_ ?_ ?_ x h
  · exact fun k b s hk hext hs => App.alarmed_of_extends _ _ hext hk.wellMade.relations s hs
  · intro data k k' s hgives q hq
    rw [Scheduler.conditions_of_gives_startState data k k' s hgives] at hq
    cases hq
  -- A move starts in a steady state, as this one was found.
  · intro y k m hy hfound hk hs w
    have hsteady := steady_of_explored c app happ.relations y hy m.source hfound
    exact (Scheduler.alarmed_of_middle c hc _ _ m w
      (Scheduler.middle_of_passage c hc _ _ m w hk hsteady hs)).1

end Session

end ActorCheck

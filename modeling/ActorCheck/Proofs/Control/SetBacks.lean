import ActorCheck.Proofs.Control.Ahead
import ActorCheck.Proofs.Control.Punctual

/-!
# How the Clock Is Set Back

The scheduler moves the clock to the end of a wait and does not ask whether that lies ahead. It
does lie ahead if the wait was pending before the step, for then the clock had not reached its end.
What is left are two kinds of steps. One begins a wait of a negative time, whose end lies behind
the clock from the start. The other writes the variable in which the end of a pending wait is kept.

`SetsBack` records what is known about such a step. Nobody else waits for the clock, and the clock
ends exactly where the step has put the end of the wait. Every other step of a program that does
not write the clock leaves it where it is or moves it ahead, whatever came before.

## Main definitions

* `Move.SetsBack`: The ways in which a step can set the clock back.

## Theorems

* `Scheduler.data_of_ending`: What the end of a step does to the data.
* `Scheduler.forward_of_unwritten`: A pending wait whose end was not written lies ahead.
* `Scheduler.forward_or_setsBack_of_middle`: A step does not set the clock back in other ways.
* `Session.forward_or_setsBack`: The clock goes back in no other way.
* `Session.set_back_by_negative`: A wait of a negative time sets the clock back.
-/

namespace ActorCheck

/-- The ways in which a step can set the clock back. It begins the only wait there is, of a negative
    time, and the clock is moved by that time. Or it writes the end of the only wait there is, and
    the clock is moved to what was written. -/
inductive Move.SetsBack (app : App) (m : Move Store) : Prop where
  | negative (scope : List String) (seconds : Expr) (n : Int64) (alone : m.source.conditions = [])
      (pauses : m.Pauses app scope seconds)
      (value : eval (m.source.data.write (wakeUpVariable scope) (.int m.source.data.time)) seconds
        = .ok (.int n))
      (negative : n.toInt < 0)
      (exact : m.target.data.time.toInt = m.source.data.time.toInt + n.toInt * 1000000)
  | rewritten (q : Thread) (scope : List String) (op : Operation) (v : Variable)
      (only : m.source.conditions = [q]) (alarm : app.Alarm q scope) (performed : op ∈ m.operations)
      (written : v ∈ op.statement.written) (place : v.cellName = (wakeUpVariable scope).cellName)
      (reached : m.target.data.read Builtin.clock = m.target.data.read (wakeUpVariable scope))

theorem setsBack_of_extends (a b : App) (h : a.Extends b) (hdrawn : a.RelationsDrawn)
    (m : Move Store) (hm : m.SetsBack a) : m.SetsBack b := by
  cases hm with
  | negative scope seconds n halone hpauses hvalue hnegative hexact =>
      exact .negative scope seconds n halone
        ⟨hpauses.calls, localScope_of_extends a b h hdrawn _ _ hpauses.within⟩ hvalue hnegative
        hexact
  | rewritten q scope op v honly halarm hperformed hwritten hplace hreached =>
      exact .rewritten q scope op v honly (App.alarm_of_extends a b h hdrawn q scope halarm)
        hperformed hwritten hplace hreached

namespace Scheduler

/-- At the end of a step the data are left alone, or the clock alone is moved, to the end of the
    only wait. -/
theorem data_of_ending (c : Control Store) (hc : c.analysis = .explicit) (before after : App)
    (concern : Concern) (s s' : ControlState Store) (index : Nat) (t : Thread) (data : Store)
    (hafter : after.WellMade) (hs : after.Alarmed s)
    (h : Ending c before after concern s index t data s') :
    s'.data = data ∨ ∃ q scope value, s.conditions = [q] ∧ after.Alarm q scope
      ∧ data.read (wakeUpVariable scope) = .ok value
      ∧ s'.data[Builtin.clock.cellName]? = some value
      ∧ ∀ cell : String, cell ≠ Builtin.clock.cellName → s'.data[cell]? = data[cell]? := by
  rcases h with ⟨threads, started, released, u, _, _, _, hlooked, hturn⟩
  rw [(fixed_of_passTurn after u s' index hturn).1]
  -- Only looking at condition threads can touch the data, and only if it moves the clock.
  cases hlooked with
  | none _ hsame =>
      rw [hsame]
      exact Or.inl rfl
  | evaluated moved found hmoved heval hu =>
      let looked := { afterStep s index released data with data := moved }
      rw [(truthful_of_evaluateConditions c hc after hafter looked u hs found heval hu).data]
      cases hmoved with
      | still _ => exact Or.inl rfl
      | moved _ q scope honly halarm hothers value hgoal hclock =>
          exact Or.inr ⟨q, scope, value, honly, halarm, hgoal, hclock, hothers⟩

section Step

variable (c : Control Store) (hc : c.analysis = .explicit) (k k' : Scheduler) (m : Move Store)
  (w : Passage c k k' m) (hk : k.Sound) (hw : Middle w)

include hw

include hc in
/-- A step that begins a timed wait does not write the clock. -/
theorem keeps_clock_of_call (args : List Expr) (result : Option Variable)
    (hcall : m.edge.1.statement = .call Builtin.waitSeconds args result) :
    ∀ op ∈ m.operations, ∀ v ∈ op.statement.written, v.cellName ≠ Builtin.clock.cellName := by
  rcases pausing_of_passage c hc k k' m w hw args result hcall with
    ⟨scope, seconds, checker, n, r, rfl, hp⟩
  intro op hop v hv
  have hstatement : op.statement ∈ settingAlarm (wakeUpVariable scope) seconds := by
    rw [← hp.operations]
    exact List.mem_map_of_mem hop
  -- Both assignments of an alarm are to the end of the wait.
  have hplace : v = wakeUpVariable scope := by
    rcases List.mem_cons.mp hstatement with heq | hrest
    · rw [heq] at hv
      exact List.mem_singleton.mp hv
    · rw [List.mem_singleton.mp hrest] at hv
      exact List.mem_singleton.mp hv
  rw [hplace]
  exact wakeUp_ne_clock scope

include hc in
/-- A step that begins a timed wait sets the clock back only if the time to wait is negative. -/
theorem forward_or_setsBack_of_call (args : List Expr) (result : Option Variable)
    (hcall : m.edge.1.statement = .call Builtin.waitSeconds args result) (q : Thread)
    (scope : List String) (value : Value) (honly : w.s₁.conditions = [q])
    (halarm : w.k₅.app.Alarm q scope) (hgoal : w.data.read (wakeUpVariable scope) = .ok value)
    (hclock : m.target.data[Builtin.clock.cellName]? = some value) :
    m.source.data.time.toInt ≤ m.target.data.time.toInt ∨ m.SetsBack k'.app := by
  rcases pausing_of_passage c hc k k' m w hw args result hcall with
    ⟨scope', seconds, checker, n, r, rfl, hp⟩
  -- The wait that begins is the only one there is.
  have halone : m.source.conditions = [] ∧ checker = q := by
    have hboth := hp.conditions.symm.trans honly
    rcases List.append_eq_singleton_iff.mp hboth with ⟨hnone, hone⟩ | ⟨_, hnil⟩
    · exact ⟨hnone, List.singleton_inj.mp hone⟩
    · cases hnil
  have hend : w.data.read (wakeUpVariable scope) = .ok (.int r) := by
    have hlate := App.extends_trans _ _ _ hw.analysing hw.completing
    have hdrawn := App.relationsDrawn_of_extends _ _ hw.following hw.soundFirst.wellMade.relations
    rw [w.k₅.app.wakeUp_of_alarm hw.soundAfter.wellMade q scope scope' halarm
      (halone.2 ▸ App.alarm_of_extends _ _ hlate hdrawn checker scope' hp.alarm), hp.data]
    unfold Store.read
    rw [Store.getElem?_write_self]
    rfl
  rw [hend] at hgoal
  cases hgoal
  have htime := Store.time_of_cell _ _ hclock
  by_cases hforward : 0 ≤ n.toInt
  · left
    rw [htime, hp.exact]
    omega
  · have hwithin := localScope_of_extends _ _ (grown_of_middle w hw).2.1
      hw.soundFirst.wellMade.relations _ _ hp.within
    exact Or.inr (.negative scope' seconds n halone.1 ⟨⟨result, hcall⟩, hwithin⟩ hp.value
      (Int.not_le.mp hforward) (htime ▸ hp.exact))

include hk

/-- A pending wait whose end was not written lies ahead. -/
theorem forward_of_unwritten (hs : k.app.Punctual m.source) (q : Thread) (scope : List String)
    (hq : q ∈ m.source.conditions) (halarm : w.k₅.app.Alarm q scope) (value : Value)
    (hgoal : w.data.read (wakeUpVariable scope) = .ok value)
    (hkept : w.data[(wakeUpVariable scope).cellName]?
      = m.source.data[(wakeUpVariable scope).cellName]?)
    (hclock : m.target.data[Builtin.clock.cellName]? = some value) :
    m.source.data.time.toInt < m.target.data.time.toInt := by
  rcases hs q hq with ⟨scope', halarm', hahead⟩
  have hgrows := App.extends_trans _ _ _ (grown_of_middle w hw).1 hw.completing
  rw [w.k₅.app.wakeUp_of_alarm hw.soundAfter.wellMade q scope' scope
    (App.alarm_of_extends _ _ hgrows hk.wellMade.relations q scope' halarm') halarm] at hahead
  -- The clock had not reached the end of the wait before the step.
  rcases end_of_waitIsOver m.source.data scope false hahead with ⟨n, hn, _, hlater⟩
  rw [Store.read_congr _ _ _ hkept, hn] at hgoal
  cases hgoal
  rw [Store.time_of_cell _ _ hclock]
  exact Int.not_le.mp (of_decide_eq_false hlater.symm)

include hc

/-- A step of a program that does not write the clock does not set it back, but in the known
    ways. -/
theorem forward_or_setsBack_of_middle (hs : k.app.Punctual m.source)
    (hm : ∀ op ∈ m.operations, ∀ v ∈ op.statement.written, v.cellName ≠ Builtin.clock.cellName) :
    m.source.data.time.toInt ≤ m.target.data.time.toInt ∨ m.SetsBack k'.app := by
  have halarmed := App.alarmed_of_extends _ _ hw.completing hw.soundLast.wellMade.relations _
    hw.alarmed
  rcases data_of_ending c hc _ _ _ _ _ _ _ _ hw.soundAfter.wellMade halarmed hw.ending with
    hsame | ⟨q, scope, value, honly, halarm, hgoal, hclock, hothers⟩
  · rw [hsame, Store.time_congr _ _ (frame_of_passage c hc k k' m w _ hm)]
    exact Or.inl (Int.le_refl _)
  -- The clock was moved. The wait it was moved for has just begun, or was pending before.
  by_cases hwait : ∃ args result, m.edge.1.statement = .call Builtin.waitSeconds args result
  · rcases hwait with ⟨args, result, hcall⟩
    exact forward_or_setsBack_of_call c hc k k' m w hw args result hcall q scope value honly
      halarm hgoal hclock
  · have hconditions : m.source.conditions = [q] := by
      rcases effect_of_passage c k k' m w with ⟨loops, heffect⟩
      rw [← honly, (fixed_of_effect _ _ _ _ _ _ _ heffect).2 fun args result hcall =>
        hwait ⟨args, result, hcall⟩]
      rfl
    -- If the end of this wait was written in the step, it may lie anywhere. If not, it is the end
    -- that was pending before.
    by_cases hwritten : ∃ op ∈ m.operations, ∃ v ∈ op.statement.written,
        v.cellName = (wakeUpVariable scope).cellName
    · rcases hwritten with ⟨op, hop, v, hv, hplace⟩
      refine Or.inr (.rewritten q scope op v hconditions ?_ hop hv hplace ?_)
      · exact App.alarm_of_extends _ _ w.grown hw.soundAfter.wellMade.relations q scope halarm
      · have hend := Store.read_congr m.target.data w.data _ (hothers _ (wakeUp_ne_clock scope))
        rw [hend, hgoal]
        unfold Store.read
        rw [hclock]
        rfl
    · left
      refine Int.le_of_lt (forward_of_unwritten c k k' m w hk hw hs q scope
        (hconditions ▸ List.mem_singleton_self q) halarm value hgoal ?_ hclock)
      exact frame_of_passage c hc k k' m w _ fun op hop v hv hplace =>
        hwritten ⟨op, hop, v, hv, hplace⟩

end Step

end Scheduler

/-- A program that waits for some seconds and is done. -/
def pacing (seconds : Int64) : App :=
  (AppDraft.build
    { name := "pacing"
      relations := [.sequence [pausing seconds, .epsilon]]
      actors := [⟨"a", .program, none, [], [], [], [(.bootstrap, 0)]⟩] }).run (App.new "pacing")
    |>.2

/-- The program after a number of steps. -/
def pacingSession (seconds : Int64) : Nat → Session Store
  | 0 => (Session.new (pacing seconds)).start ∅
  | n + 1 => (pacingSession seconds n).expandLast .concrete

namespace Session

/-- In a course in which the clock is not written, no step sets the clock back but in the known
    ways. -/
theorem forward_or_setsBack (c : Control Store) (hc : c.analysis = .explicit) (app : App)
    (happ : app.WellMade) (hall : app.Exhaustive) (x : Session Store) (s : ControlState Store)
    (moves : List (Move Store)) (h : Course c app x s moves)
    (hmoves : ∀ m ∈ moves, ∀ op ∈ m.operations, ∀ v ∈ op.statement.written,
      v.cellName ≠ Builtin.clock.cellName) :
    ∀ m ∈ moves, m.source.data.time.toInt ≤ m.target.data.time.toInt
      ∨ m.SetsBack x.scheduler.app := by
  -- The program grows along the course, so what is known of an earlier step is carried over to the
  -- program at the end.
  induction moves generalizing x s with
  | nil => exact List.forall_mem_nil _
  | cons m moves ih =>
      rcases course_cons c app x s m moves h with ⟨rfl, y, k, hy, ⟨w⟩, hk⟩
      rcases middle_of_course c hc app happ y m moves k hy w with ⟨hsound, hw⟩
      rcases explored_of_course c app y m.source moves hy with ⟨hexplored, hfound⟩
      have hpunctual := punctual_of_explored c hc app happ hall y hexplored m.source hfound
      have hdrawn := App.relationsDrawn_of_extends _ _ w.grown hw.soundAfter.wellMade.relations
      -- The last step starts from a punctual state, since that state was found as well.
      have hearlier := ih y m.source hy fun m' hm' => hmoves m' (List.mem_cons_of_mem m hm')
      refine List.forall_mem_cons.mpr ⟨?_, fun m' hm' => (hearlier m' hm').imp_right ?_⟩
      · exact (Scheduler.forward_or_setsBack_of_middle c hc _ _ m w hsound hw hpunctual
          (hmoves m List.mem_cons_self)).imp_right (setsBack_of_extends _ _ hk hdrawn m)
      · exact setsBack_of_extends _ _ (App.extends_trans _ _ _
          (Scheduler.extends_of_passage c _ k m w) hk) hsound.wellMade.relations m'

/-- A wait of a negative time begins at the start of time, and its end lies before it. The step does
    not write the clock. -/
theorem course_pacing : ∃ (m : Move Store) (s : ControlState Store),
    Course .concrete (pacing (-1)) (pacingSession (-1) 1) s [m]
      ∧ (∀ op ∈ m.operations, ∀ v ∈ op.statement.written, v.cellName ≠ Builtin.clock.cellName)
      ∧ m.target.data.time.toInt < m.source.data.time.toInt := by
  rcases course_of_expansions .concrete (pacing (-1)) (pacingSession (-1)) (fun _ => rfl)
    (course_of_start _ _ _ _ .new (by decide +kernel)) 1 (by decide +kernel) with
    ⟨s, moves, h, _, hone, hmoves⟩
  rcases List.length_eq_one_iff.mp hone with ⟨m, rfl⟩
  rcases hmoves 0 m rfl with ⟨hsource, htarget, k, ⟨w⟩⟩
  have hx : Explored .concrete (pacing (-1)) (pacingSession (-1) 0) := .start _ ∅ .new
  have hfound : m.source ∈ (pacingSession (-1) 0).found := List.mem_of_getLast? hsource
  rcases sound_of_explored .concrete rfl _ (App.wellMade_of_draft _ _) _ hx with
    ⟨hsound, halarmed⟩
  have hw := Scheduler.middle_of_passage .concrete rfl _ k m w hsound
    (steady_of_explored _ _ (App.wellMade_of_draft _ _).relations _ hx m.source hfound)
    (halarmed m.source hfound)
  have hfirst : ∀ s ∈ (pacingSession (-1) 0).found.getLast?, s.running = [0] ∧ s.data.time = 0
      ∧ ∃ t ∈ s.threads[0]?,
        ∃ edges ∈ ((pacingSession (-1) 0).scheduler.app.leaving s t).toOption,
          ∀ edge ∈ edges, edge.1.statement = pausing (-1) := by
    decide +kernel
  have hsecond : ∀ s ∈ (pacingSession (-1) 1).found.getLast?, s.data.time.toInt < 0 := by
    decide +kernel
  rcases hfirst m.source hsource with ⟨hrunning, htime, t, ht, edges, hedges, hall⟩
  have hedge := (Scheduler.edge_of_passage _ _ _ m w 0 t edges hrunning ht
    ((mem_toOption _ _).mp hedges)).2.2
  refine ⟨m, s, h, ?_, ?_⟩
  · exact Scheduler.keeps_clock_of_call _ rfl _ _ m w hw _ _ (hall m.edge hedge)
  · rw [htime]
    exact hsecond m.target htarget

/-- A wait of a negative time is one of the ways in which the clock is set back. -/
theorem forward_or_setsBack_pacing : ∃ m : Move Store,
    m.target.data.time.toInt < m.source.data.time.toInt
      ∧ m.SetsBack (pacingSession (-1) 1).scheduler.app := by
  rcases course_pacing with ⟨m, s, h, hkeeps, hback⟩
  have hways := forward_or_setsBack .concrete rfl (pacing (-1)) (App.wellMade_of_draft _ _)
    (App.exhaustive_of_draft _ _) _ s [m] h (List.forall_mem_singleton.mpr hkeeps) m
    (List.mem_singleton_self m)
  exact ⟨m, hback, hways.resolve_left (Int.not_le.mpr hback)⟩

/-- The clock does go back in a program that does not write it, if the program waits for a negative
    time. -/
theorem set_back_by_negative : ¬ ∀ (c : Control Store) (app : App) (x : Session Store)
    (s : ControlState Store) (moves : List (Move Store)),
    c.analysis = .explicit → app.WellMade → app.Exhaustive → Course c app x s moves →
      (∀ m ∈ moves, ∀ op ∈ m.operations, ∀ v ∈ op.statement.written,
        v.cellName ≠ Builtin.clock.cellName) →
      ∀ m ∈ moves, m.source.data.time.toInt ≤ m.target.data.time.toInt := by
  intro h
  rcases course_pacing with ⟨m, s, hcourse, hkeeps, hback⟩
  have hforward := h .concrete (pacing (-1)) _ s [m] rfl (App.wellMade_of_draft _ _)
    (App.exhaustive_of_draft _ _) hcourse (List.forall_mem_singleton.mpr hkeeps) m
    (List.mem_singleton_self m)
  exact absurd hforward (Int.not_le.mpr hback)

end Session

end ActorCheck

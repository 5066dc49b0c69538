import ActorCheck.Proofs.Control.Sleepers

/-!
# Timed Waits

A thread that waits for some seconds goes on when the clock has reached the end of its wait, and
not before. This needs more than one would like, because the end of a wait is kept in a variable
that all threads share which wait in the same relation of the same actor. Whoever begins to wait
there sets it anew, and the wait of another thread may be over before its time.

`waits_long_enough` says what is true. Something has to follow the wait in the relation, since a
thread at the end of its relation is done at once. The steps of the course have to be harmless, so
that the clock does not go back. And as long as the thread waits, nobody may start it again or
begin a wait on the same variable. Other waits, threads and statements may come in between in any
number and order.

## Main definitions

* `Move.Spares`: A step that leaves the wait of a thread alone.

## Theorems

* `Scheduler.sleeper_of_passage`: What a step does to a wait.
* `Session.waits_long_enough`: A thread leaves its wait when the time has come.
* `Session.woken_by_another`: A wait that is over early.
-/

namespace ActorCheck

/-- The step does not start the thread at an index again, and it begins no wait whose end is kept
    where the scope has its own. -/
structure Move.Spares {σ : Type} (app : App) (m : Move σ) (i : Nat) (scope : List String) :
    Prop where
  continues : ∀ t, m.source.threads[i]? = some t → ¬ m.Restarts app t
  apart : ∀ (other : List String) (seconds : Expr), m.Pauses app other seconds →
    (wakeUpVariable other).cellName ≠ (wakeUpVariable scope).cellName

/-- The thread at an index waits. -/
def ControlState.Waits {σ : Type} (s : ControlState σ) (i : Nat) : Prop :=
  ∃ t, s.threads[i]? = some t ∧ t.status = .wait

theorem ControlState.not_waits_of_running {σ : Type} (s : ControlState σ) (i : Nat)
    (h : ∃ t ∈ s.threads[i]?, t.status = .running) : ¬ s.Waits i := by
  rcases h with ⟨t, ht, hstatus⟩
  rintro ⟨u, hu, hwait⟩
  rw [Option.mem_def.mp ht] at hu
  rw [← Option.some.inj hu, hstatus] at hwait
  cases hwait

namespace Scheduler

section Passages

variable (c : Control Store) (hc : c.analysis = .explicit) (k k' : Scheduler) (m : Move Store)
  (w : Passage c k k' m) (hk : k.Sound) (hw : Middle w)

include hc hw

/-- A sleeper in the middle of a step, when the data analysis has been performed. -/
theorem sleeper_of_middle (i : Nat) (scope : List String) (t q : Thread)
    (ht : w.k₄.app.Sleeper (w.s₁.setThread m.index { w.t₁ with operations := [] }) i scope t q)
    (hleaves : w.k₄.app.hasLeaving t = .ok true)
    (hmonitor : w.actor.concern = .program → ¬ w.k₄.app.IsMonitor t) (n : Int64)
    (hend : w.data[(wakeUpVariable scope).cellName]? = some (.int n)) :
    ((∃ t' q', k'.app.Sleeper m.target i scope t' q')
        ∧ m.target.data[(wakeUpVariable scope).cellName]? = some (.int n))
      ∨ n.toInt ≤ m.target.data.time.toInt := by
  have hdrawn := hw.soundLast.wellMade.relations
  refine (sleeper_of_ending c hc w.k₄.app w.k₅.app hw.completing hdrawn hw.soundAfter.wellMade _
    w.s₁ m.target m.index w.t₁ w.data (coherent_of_cleared _ _ hw.coherent _ _ w.moved)
    (App.alarmed_of_extends _ _ hw.completing hdrawn _ hw.alarmed) i scope t q ht hleaves hmonitor n
    hend hw.ending).imp_left ?_
  rintro ⟨t', q', ht'⟩
  refine ⟨⟨t', q', App.sleeper_of_extends _ _ w.grown hw.soundAfter.wellMade.relations _ i scope t'
    q' ht'⟩, ?_⟩
  rw [(alarmed_of_middle c hc k k' m w hw).2 _ (wakeUp_ne_clock scope)]
  exact hend

variable (b : App) (hb : k'.app.Extends b)

include hb

omit hc in
/-- A step of the program starts monitors again. -/
theorem restarts_of_monitor (t : Thread) (hconcern : w.actor.concern = .program)
    (hmonitor : w.k₄.app.IsMonitor t) : m.Restarts b t := by
  have hfirst := (grown_of_middle w hw).1
  have hlast := App.extends_trans _ _ _ hw.completing (App.extends_trans _ _ _ w.grown hb)
  -- The script of the monitor and the concern of the one that moves are the same in the grown
  -- program.
  rcases hmonitor with ⟨script, hscript, hevent⟩
  refine ⟨script, App.scriptOf_of_extends _ _ hlast t script hscript, Or.inl ⟨hevent, w.t, w.actor,
    w.thread, ?_, hconcern⟩⟩
  rw [App.actorNamed_of_extends _ _ hlast, App.actorNamed_of_extends _ _ hfirst]
  exact w.acting

/-- A step that begins a timed wait. The thread sleeps, or the clock has reached the end of its wait
    at once. -/
theorem sleeper_of_pausing (scope : List String) (seconds : Expr) (checker : Thread) (n r : Int64)
    (hp : Pausing w scope seconds checker n r)
    (hmore : ∃ r, b.relation m.edge.2.relation = .ok r
      ∧ r.hasEdgesFrom m.edge.2.location = true)
    (hstays : ¬ m.Restarts b w.t) :
    ((∃ t' q', k'.app.Sleeper m.target m.index scope t' q')
        ∧ m.target.data[(wakeUpVariable scope).cellName]? = some (.int r))
      ∨ r.toInt ≤ m.target.data.time.toInt := by
  let t : Thread := { w.t₁ with operations := [] }
  rcases grown_of_middle w hw with ⟨_, hafter, hlate⟩
  have hdrawn := hw.soundFirst.wellMade.relations
  have hsame : w.t.Same t := ⟨hp.same.id, hp.same.actor, hp.same.script⟩
  have hindex : m.index < w.s₁.threads.length := (List.getElem?_eq_some_iff.mp w.moved).1
  -- The relation of the place was known when the step began.
  have hleaves : w.k₄.app.hasLeaving t = .ok true := by
    rcases hmore with ⟨relation, hrelation, hedges⟩
    have hwithin := hp.within
    unfold App.localScope App.relationOf at hwithin
    rcases (except_bind_ok _ _ _).mp hwithin with ⟨found, hfound, _⟩
    rw [ofModel_ok] at hfound
    have hsooner := App.relation_of_extends _ _
      (App.extends_trans _ _ _ hw.following hlate) hdrawn _ _ hfound
    have hlater := App.relation_of_extends _ _ (App.extends_trans _ _ _ hafter hb) hdrawn _ _ hfound
    rw [hrelation] at hlater
    cases hlater
    refine (except_bind_ok _ _ _).mpr ⟨relation, (ofModel_ok _ _).mpr ?_, ?_⟩
    · rw [show t.place = m.edge.2 from hp.place]
      exact hsooner
    · rw [show t.place = m.edge.2 from hp.place, hedges]
      rfl
  -- What the wait has set up is a sleeper in the middle of the step, and the end of the step is
  -- known for sleepers.
  refine sleeper_of_middle c hc k k' m w hw m.index scope t checker
    ⟨List.getElem?_set_self hindex, hp.status, ?_, hp.waitingFor, ?_⟩ hleaves ?_ r ?_
  · have hconditions : checker ∈ m.source.conditions ++ [checker] :=
      List.mem_append_right _ (List.mem_singleton_self checker)
    rw [← hp.conditions] at hconditions
    exact hconditions
  · exact App.alarm_of_extends _ _ hlate
      (App.relationsDrawn_of_extends _ _ hw.following hdrawn) _ _ hp.alarm
  · rintro hconcern ⟨script, hscript, hevent⟩
    rw [App.scriptOf_of_same _ w.t t hsame] at hscript
    exact hstays (restarts_of_monitor c k k' m w hw b hb w.t hconcern ⟨script, hscript, hevent⟩)
  · rw [hp.data, Store.getElem?_write_self]

/-- The statement of a step leaves the end of a wait where it is, unless it begins a wait of its own
    that has its end there. -/
theorem wakeUp_of_passage (hm : m.Harmless b) (scope : List String)
    (hapart : ∀ (other : List String) (seconds : Expr), m.Pauses b other seconds →
      (wakeUpVariable other).cellName ≠ (wakeUpVariable scope).cellName) :
    w.data[(wakeUpVariable scope).cellName]?
      = m.source.data[(wakeUpVariable scope).cellName]? := by
  -- A wait of its own writes the two cells of its alarm, which are other ones. Any other statement
  -- keeps all cells of this kind.
  by_cases hwait : ∃ args result, m.edge.1.statement = .call Builtin.waitSeconds args result
  · rcases hwait with ⟨args, result, hcall⟩
    rcases pausing_of_passage c hc k k' m w hw args result hcall with
      ⟨other, seconds, checker, n, r, rfl, hp⟩
    have hfirst := App.extends_trans _ _ _ (grown_of_middle w hw).2.1 hb
    have hother := hapart other seconds ⟨⟨result, hcall⟩,
      localScope_of_extends _ _ hfirst hw.soundFirst.wellMade.relations _ _ hp.within⟩
    rw [hp.data, Store.getElem?_write_ne _ _ _ _ hother, Store.getElem?_write_ne _ _ _ _ hother]
  · have hkeeps := hm.keeps fun args result hcall => hwait ⟨args, result, hcall⟩
    exact frame_of_passage c hc k k' m w _ fun op hop v hv => (hkeeps op hop v hv).2 scope

include hk

/-- A step that spares a sleeper. It sleeps on, or the clock has reached the end of its wait. -/
theorem sleeper_of_passage (hsteady : k.app.Steady m.source) (hm : m.Harmless b) (i : Nat)
    (scope : List String) (hspares : m.Spares b i scope) (t q : Thread)
    (ht : k.app.Sleeper m.source i scope t q) (n : Int64)
    (hend : m.source.data[(wakeUpVariable scope).cellName]? = some (.int n)) :
    ((∃ t' q', k'.app.Sleeper m.target i scope t' q')
        ∧ m.target.data[(wakeUpVariable scope).cellName]? = some (.int n))
      ∨ n.toInt ≤ m.target.data.time.toInt := by
  rcases grown_of_middle w hw with ⟨hbefore, hafter, _⟩
  have hfirst := App.extends_trans _ _ _ hafter hb
  -- The thread that moves runs, and a sleeper does not.
  have hne : m.index ≠ i := by
    intro heq
    have hthread := w.thread
    rw [heq, ht.thread] at hthread
    cases hthread
    have hruns := hw.runs
    rw [ht.status] at hruns
    cases hruns
  have hcontinues := hspares.continues t ht.thread
  -- The statement leaves the sleeper and its alarm alone.
  rcases effect_of_passage c k k' m w with ⟨loops, heffect⟩
  rcases untouched_of_effect _ _ _ _ _ _ _ heffect i hne t
    ((List.getElem?_set_ne hne).trans ht.thread) ht.status
    (fun message script name hsends hscript hname => by
      by_contra hmatches
      exact hcontinues ⟨script, App.scriptOf_of_extends _ _ hfirst t script hscript,
        Or.inr ⟨message, name, hsends, hname, Bool.not_eq_false _ ▸ hmatches⟩⟩)
    with ⟨hthread, hconditions⟩
  have hkept := (wakeUp_of_passage c hc k k' m w hw b hb hm scope hspares.apart).trans hend
  refine sleeper_of_middle c hc k k' m w hw i scope t q
    ⟨(List.getElem?_set_ne hne).trans hthread, ht.status, hconditions q ht.condition, ht.waitingFor,
      App.alarm_of_extends _ _ hbefore hk.wellMade.relations q scope ht.alarm⟩ ?_ ?_ n hkept
  · exact App.hasLeaving_of_extends _ _ hbefore hk.wellMade.relations t true
      (hsteady.awaiting.leaves t (List.mem_of_getElem? ht.thread) ht.status)
  · exact fun hconcern hmonitor =>
      hcontinues (restarts_of_monitor c k k' m w hw b hb t hconcern hmonitor)

end Passages

end Scheduler

/-- Scripts of one actor that wait for as many seconds as a variable says, and scripts that set the
    variable to zero. -/
def napping (scripts : List (Event × Nat)) : App :=
  (AppDraft.build
    { name := "napping"
      relations := [
        .sequence [.call Builtin.waitSeconds [.var ⟨"d", .number, .unqualified⟩] none, .epsilon],
        .sequence [.store ⟨"d", .number, .unqualified⟩ (.num 0), .epsilon, .epsilon]]
      actors := [⟨"a", .program, none, ["d"], [], [], scripts⟩] }).run (App.new "napping") |>.2

/-- The variable that says how long to wait. -/
def duration : Variable := .within "d" .number ["a"]

/-- The program after a number of steps. It starts with two seconds to wait. -/
def nappingSession (scripts : List (Event × Nat)) : Nat → Session Store
  | 0 => (Session.new (napping scripts)).start ((∅ : Store).write duration (.int 2))
  | n + 1 => (nappingSession scripts n).expandLast .concrete

/-- One script that waits. -/
def napper : List (Event × Nat) := [(.bootstrap, 0)]

/-- Two scripts that wait, and one between them that sets the time to wait to zero. -/
def nappers : List (Event × Nat) := [(.bootstrap, 0), (.bootstrap, 1), (.bootstrap, 0)]

theorem wakeUp_ne_duration (scope : List String) :
    (wakeUpVariable scope).cellName ≠ duration.cellName := by
  intro h
  have hlength := length_wakeUp scope
  have hduration : duration.cellName.length = 4 := by decide
  rw [h, hduration] at hlength
  omega

/-- A script that is started by the bootstrap is not started again. -/
theorem not_restarts_of_bootstrap {σ : Type} (app : App) (m : Move σ) (t : Thread)
    (h : ∃ script ∈ (app.scriptOf t).toOption, script.event = .bootstrap) :
    ¬ m.Restarts app t := by
  rcases h with ⟨script, hscript, hevent⟩
  rintro ⟨script', hscript', hwhy⟩
  rw [(mem_toOption _ _).mp hscript] at hscript'
  cases hscript'
  rw [hevent] at hwhy
  rcases hwhy with ⟨hmonitor, _⟩ | ⟨_, _, _, _, hmatches⟩
  · cases hmonitor
  · cases hmatches

/-- Waiting for as long as the variable says does not set the clock back. -/
theorem harmless_of_nap (app : App) (m : Move Store) (n : Int64) (hn : 0 ≤ n.toInt)
    (hcall : m.edge.1.statement = .call Builtin.waitSeconds [.var duration] none)
    (hdata : m.source.data[duration.cellName]? = some (.int n)) : m.Harmless app := by
  refine ⟨fun hno => absurd hcall (hno _ _), fun scope seconds n' hpauses hvalue => ?_⟩
  rcases hpauses.calls with ⟨result, hcalls⟩
  rw [hcall] at hcalls
  cases hcalls
  -- The clock is noted before the seconds are evaluated, but that is another cell.
  have hread : (m.source.data.write (wakeUpVariable scope) (.int m.source.data.time)).read duration
      = .ok (.int n) := by
    unfold Store.read
    rw [Store.getElem?_write_ne _ _ _ _ (wakeUp_ne_duration scope), hdata]
    rfl
  have hvalue' : (m.source.data.write (wakeUpVariable scope) (.int m.source.data.time)).read
      duration = .ok (.int n') := hvalue
  rw [hread] at hvalue'
  cases hvalue'
  exact hn

/-- Neither does it to change the variable. -/
theorem harmless_of_reset (app : App) (m : Move Store)
    (hstore : m.edge.1.statement = .store duration (.num 0))
    (hops : ∀ op ∈ m.operations, op = m.edge.1) : m.Harmless app := by
  refine ⟨fun _ op hop v hv => ?_, fun scope seconds n hpauses _ => ?_⟩
  · rw [hops op hop, hstore] at hv
    rw [List.mem_singleton.mp hv]
    exact ⟨by decide, fun scope heq => wakeUp_ne_duration scope heq.symm⟩
  · rcases hpauses.calls with ⟨result, hcall⟩
    rw [hstore] at hcall
    cases hcall

namespace Session

section Courses

variable (c : Control Store) (hc : c.analysis = .explicit) (app : App) (happ : app.WellMade)

include hc happ

/-- As long as a wait is spared, the thread sleeps in all states of the course, or the clock has
    reached the end of its wait. The induction is over the moves since the wait began. -/
theorem sleeper_of_course (first : Move Store) (before : List (Move Store)) (scope : List String)
    (seconds : Expr) (n : Int64) (after : List (Move Store)) (b : App)
    (hpauses : first.Pauses b scope seconds)
    (hvalue : eval first.source.data seconds = .ok (.int n))
    (hreads : (wakeUpVariable scope).cellName ∉ seconds.cells)
    (hmore : ∃ r, b.relation first.edge.2.relation = .ok r
      ∧ r.hasEdgesFrom first.edge.2.location = true)
    (hstays : ∀ t, first.source.threads[first.index]? = some t → ¬ first.Restarts b t)
    (x : Session Store) (s : ControlState Store) (h : Course c app x s (after ++ first :: before))
    (hext : x.scheduler.app.Extends b) (hharmless : ∀ m ∈ after, m.Harmless b)
    (hclock : ∀ m ∈ after, m.source.data.time.toInt ≤ m.target.data.time.toInt)
    (hspared : ∀ later m earlier, after = later ++ m :: earlier →
      (∀ m' ∈ earlier ++ [first], m'.target.Waits first.index) → m.Spares b first.index scope) :
    ∃ r : Int64, r.toInt = first.source.data.time.toInt + n.toInt * 1000000
      ∧ ((((∃ t q, x.scheduler.app.Sleeper s first.index scope t q)
            ∧ s.data[(wakeUpVariable scope).cellName]? = some (.int r))
          ∧ ∀ m ∈ after ++ [first], m.target.Waits first.index)
        ∨ r.toInt ≤ s.data.time.toInt) := by
  -- By induction on the moves since the wait began. Either the thread has slept all the time, or
  -- the clock has reached the end at some point and does not go back.
  induction after generalizing x s with
  | nil =>
      rcases course_cons c app x s first before h with ⟨rfl, y, k, hy, ⟨w⟩, hk⟩
      rcases middle_of_course c hc app happ y first before k hy w with ⟨_, hw⟩
      have hb := App.extends_trans _ _ _ hk hext
      rcases hpauses.calls with ⟨result, hcall⟩
      rcases Scheduler.pausing_of_passage c hc _ k first w hw _ result hcall with
        ⟨scope', _, checker, n', r, hargs, hp⟩
      rw [← (List.cons.inj hargs).1] at hp
      have hscope := localScope_of_extends _ _
        (App.extends_trans _ _ _ (Scheduler.grown_of_middle w hw).2.1 hb)
        hw.soundFirst.wellMade.relations _ _ hp.within
      rw [hpauses.within] at hscope
      cases hscope
      -- The seconds to wait do not depend on what was written in between.
      have hsame := eval_congr (first.source.data.write (wakeUpVariable scope)
        (.int first.source.data.time)) first.source.data seconds fun cell hcell =>
          Store.getElem?_write_ne _ _ _ _ fun heq => hreads (heq ▸ hcell)
      have hn := hp.value
      rw [hsame, hvalue] at hn
      cases hn
      refine ⟨r, hp.exact, (Scheduler.sleeper_of_pausing c hc _ k first w hw b hb scope seconds
        checker n r hp hmore (hstays w.t w.thread)).imp_left ?_⟩
      rintro ⟨⟨t, q, ht⟩, hend⟩
      refine ⟨⟨⟨t, q, App.sleeper_of_extends _ _ hk ?_ _ first.index scope t q ht⟩, hend⟩,
        List.forall_mem_singleton.mpr ⟨t, ht.thread, ht.status⟩⟩
      exact App.relationsDrawn_of_extends _ _ w.grown hw.soundAfter.wellMade.relations
  | cons m rest ih =>
      rcases course_cons c app x s m _ h with ⟨rfl, y, k, hy, ⟨w⟩, hk⟩
      rcases middle_of_course c hc app happ y m _ k hy w with ⟨hsound, hw⟩
      rcases explored_of_course c app y m.source _ hy with ⟨hexplored, hfound⟩
      have hb := App.extends_trans _ _ _ hk hext
      rcases ih y m.source hy
        (App.extends_trans _ _ _ (Scheduler.extends_of_passage c _ k m w) hb)
        (fun m' hm' => hharmless m' (List.mem_cons_of_mem m hm'))
        (fun m' hm' => hclock m' (List.mem_cons_of_mem m hm'))
        (fun later m' earlier heq => hspared (m :: later) m' earlier (congrArg (m :: ·) heq)) with
        ⟨r, hr, ⟨⟨⟨t, q, ht⟩, hend⟩, hwaits⟩ | hover⟩
      -- The thread has slept until now, so this move spares it.
      · refine ⟨r, hr, (Scheduler.sleeper_of_passage c hc _ k m w hsound hw b hb
          (steady_of_explored c app happ.relations y hexplored m.source hfound)
          (hharmless m List.mem_cons_self) first.index scope (hspared [] m rest rfl hwaits) t q ht r
          hend).imp_left ?_⟩
        rintro ⟨⟨t', q', ht'⟩, hend'⟩
        refine ⟨⟨⟨t', q', App.sleeper_of_extends _ _ hk ?_ _ first.index scope t' q' ht'⟩, hend'⟩,
          List.forall_mem_cons.mpr ⟨⟨t', ht'.thread, ht'.status⟩, hwaits⟩⟩
        exact App.relationsDrawn_of_extends _ _ w.grown hw.soundAfter.wellMade.relations
      · exact ⟨r, hr, Or.inr (Int.le_trans hover (hclock m List.mem_cons_self))⟩

/-- A thread that waits for some seconds leaves its wait when the clock has advanced by that time,
    if the course is harmless, something follows the wait in its relation, and the thread is neither
    started again nor has the variable of its wait taken away while it waits. In all states from
    then on the clock shows that much at least. -/
theorem waits_long_enough (x : Session Store) (s : ControlState Store)
    (after before : List (Move Store)) (first : Move Store)
    (h : Course c app x s (after ++ first :: before))
    (hharmless : ∀ m ∈ after ++ first :: before, m.Harmless x.scheduler.app)
    (scope : List String) (seconds : Expr) (n : Int64)
    (hpauses : first.Pauses x.scheduler.app scope seconds)
    (hvalue : eval first.source.data seconds = .ok (.int n))
    (hreads : (wakeUpVariable scope).cellName ∉ seconds.cells)
    (hmore : ∃ r, x.scheduler.app.relation first.edge.2.relation = .ok r
      ∧ r.hasEdgesFrom first.edge.2.location = true)
    (hstays : ∀ t, first.source.threads[first.index]? = some t →
      ¬ first.Restarts x.scheduler.app t)
    (hspared : ∀ later m earlier, after = later ++ m :: earlier →
      (∀ m' ∈ earlier ++ [first], m'.target.Waits first.index) →
        m.Spares x.scheduler.app first.index scope)
    (hleft : ∃ m ∈ after ++ [first], ¬ m.target.Waits first.index) :
    first.source.data.time.toInt + n.toInt * 1000000 ≤ s.data.time.toInt := by
  have hclock := (clock_forward c hc app happ x s _ h hharmless).2
  rcases sleeper_of_course c hc app happ first before scope seconds n after x.scheduler.app hpauses
    hvalue hreads hmore hstays x s h (App.extends_refl _)
    (fun m hm => hharmless m (List.mem_append_left _ hm))
    (fun m hm => hclock m (List.mem_append_left _ hm)) hspared with ⟨r, hr, ⟨_, hwaits⟩ | hover⟩
  -- The thread has left its wait, so it has not slept all the time.
  · rcases hleft with ⟨m, hm, hnot⟩
    exact absurd (hwaits m hm) hnot
  · rw [← hr]
    exact hover

end Courses

section Naps

/-- The first step of the nappers, which begins a wait of two seconds at the start of time. -/
theorem first_napping (scripts : List (Event × Nat)) (n : Nat) (m : Move Store) (k : Scheduler)
    (w : Scheduler.Passage .concrete (nappingSession scripts 0).scheduler k m)
    (hsource : m.source ∈ (nappingSession scripts 0).found.getLast?)
    (hnap : ∀ s ∈ (nappingSession scripts 0).found.getLast?, s.running = [0]
      ∧ s.data[duration.cellName]? = some (.int 2) ∧ s.data.time = 0
      ∧ ∃ t ∈ s.threads[0]?,
        (∃ script ∈ ((nappingSession scripts n).scheduler.app.scriptOf t).toOption,
          script.event = .bootstrap)
        ∧ ∃ edges ∈ ((nappingSession scripts 0).scheduler.app.leaving s t).toOption,
          ∀ edge ∈ edges, edge.1.statement = .call Builtin.waitSeconds [.var duration] none
            ∧ (nappingSession scripts n).scheduler.app.localScope edge.2 = .ok ["a", "R8"]
            ∧ ∃ r ∈ ((nappingSession scripts n).scheduler.app.relation edge.2.relation).toOption,
              r.hasEdgesFrom edge.2.location = true) :
    m.index = 0 ∧ m.Pauses (nappingSession scripts n).scheduler.app ["a", "R8"] (.var duration)
      ∧ eval m.source.data (.var duration) = .ok (.int 2) ∧ m.source.data.time = 0
      ∧ (∃ r, (nappingSession scripts n).scheduler.app.relation m.edge.2.relation = .ok r
        ∧ r.hasEdgesFrom m.edge.2.location = true)
      ∧ (∀ t, m.source.threads[m.index]? = some t →
        ¬ m.Restarts (nappingSession scripts n).scheduler.app t)
      ∧ m.Harmless (nappingSession scripts n).scheduler.app := by
  rcases hnap m.source hsource with ⟨hrunning, hdata, htime, t, ht, hscript, edges, hedges, hall⟩
  rcases Scheduler.edge_of_passage _ _ _ m w 0 t edges hrunning ht ((mem_toOption _ _).mp hedges)
    with ⟨hindex, rfl, hedge⟩
  rcases hall m.edge hedge with ⟨hcall, hscope, r, hr, hmore⟩
  refine ⟨hindex, ⟨⟨none, hcall⟩, hscope⟩, ?_, htime, ⟨r, (mem_toOption _ _).mp hr, hmore⟩, ?_,
    harmless_of_nap _ m 2 (by decide) hcall hdata⟩
  · change m.source.data.read duration = _
    unfold Store.read
    rw [hdata]
    rfl
  · intro u hu
    rw [w.thread] at hu
    cases hu
    exact not_restarts_of_bootstrap _ m w.t hscript

/-- A script that waits alone goes on after two seconds. -/
theorem waits_long_enough_napping : ∃ (first : Move Store) (s : ControlState Store),
    Course .concrete (napping napper) (nappingSession napper 1) s [first]
      ∧ ¬ first.target.Waits first.index ∧ 2000000 ≤ s.data.time.toInt := by
  rcases course_of_expansions .concrete (napping napper) (nappingSession napper) (fun _ => rfl)
    (course_of_start _ _ _ _ .new (by decide +kernel)) 1 (by decide +kernel) with
    ⟨s, moves, h, _, hone, hmoves⟩
  rcases List.length_eq_one_iff.mp hone with ⟨first, rfl⟩
  rcases hmoves 0 first rfl with ⟨hsource, htarget, k, ⟨w⟩⟩
  rcases first_napping napper 1 first k w hsource (by decide +kernel) with
    ⟨hindex, hpauses, hvalue, htime, hmore, hstays, hharmless⟩
  have hwoken : ∀ s ∈ (nappingSession napper 1).found.getLast?, ∃ t ∈ s.threads[0]?,
      t.status = .running := by
    decide +kernel
  have hleft : ¬ first.target.Waits first.index := by
    rw [hindex]
    exact ControlState.not_waits_of_running _ 0 (hwoken first.target htarget)
  have hlong := waits_long_enough .concrete rfl (napping napper) (App.wellMade_of_draft _ _)
    (nappingSession napper 1) s [] [] first h (List.forall_mem_singleton.mpr hharmless) ["a", "R8"]
    (.var duration) 2 hpauses hvalue (by decide) hmore hstays
    (fun later m earlier heq => by
      have hlength := congrArg List.length heq
      rw [List.length_append, List.length_cons, List.length_nil] at hlength
      omega)
    ⟨first, List.mem_singleton_self first, hleft⟩
  rw [htime] at hlong
  exact ⟨first, s, h, hleft, hlong⟩

/-- The second step of the nappers sets the time to wait. -/
theorem harmless_second (k : Scheduler) (m : Move Store)
    (w : Scheduler.Passage .concrete (nappingSession nappers 1).scheduler k m)
    (hsource : m.source ∈ (nappingSession nappers 1).found.getLast?) :
    m.Harmless (nappingSession nappers 3).scheduler.app := by
  have hreset : ∀ s ∈ (nappingSession nappers 1).found.getLast?, s.running = [1]
      ∧ ∃ t ∈ s.threads[1]?, t.operations = []
        ∧ ∃ edges ∈ ((nappingSession nappers 1).scheduler.app.leaving s t).toOption,
          ∀ edge ∈ edges, edge.1.statement = .store duration (.num 0) := by
    decide +kernel
  rcases hreset m.source hsource with ⟨hrunning, t, ht, hclear, edges, hedges, hall⟩
  rcases Scheduler.edge_of_passage _ _ _ m w 1 t edges hrunning ht ((mem_toOption _ _).mp hedges)
    with ⟨_, rfl, hedge⟩
  exact harmless_of_reset _ m (hall _ hedge)
    (Scheduler.operations_of_store _ _ _ m w _ _ (hall _ hedge) hclear)

/-- The third step of the nappers waits for that time. -/
theorem harmless_third (k : Scheduler) (m : Move Store)
    (w : Scheduler.Passage .concrete (nappingSession nappers 2).scheduler k m)
    (hsource : m.source ∈ (nappingSession nappers 2).found.getLast?) :
    m.Harmless (nappingSession nappers 3).scheduler.app := by
  have hnap : ∀ s ∈ (nappingSession nappers 2).found.getLast?, s.running = [2]
      ∧ s.data[duration.cellName]? = some (.int 0)
      ∧ ∃ t ∈ s.threads[2]?,
        ∃ edges ∈ ((nappingSession nappers 2).scheduler.app.leaving s t).toOption,
          ∀ edge ∈ edges, edge.1.statement = .call Builtin.waitSeconds [.var duration] none := by
    decide +kernel
  rcases hnap m.source hsource with ⟨hrunning, hdata, t, ht, edges, hedges, hall⟩
  rcases Scheduler.edge_of_passage _ _ _ m w 2 t edges hrunning ht ((mem_toOption _ _).mp hedges)
    with ⟨_, _, hedge⟩
  exact harmless_of_nap _ m 0 (by decide) (hall _ hedge) hdata

/-- Neither of these steps starts the first of the nappers again. -/
theorem first_continues (i : Nat) (hi : i ∈ [1, 2]) (m : Move Store)
    (hsource : m.source ∈ (nappingSession nappers i).found.getLast?) (t : Thread)
    (ht : m.source.threads[0]? = some t) :
    ¬ m.Restarts (nappingSession nappers 3).scheduler.app t := by
  have hbootstrap : ∀ i ∈ [1, 2], ∀ s ∈ (nappingSession nappers i).found.getLast?,
      ∃ t ∈ s.threads[0]?,
        ∃ script ∈ ((nappingSession nappers 3).scheduler.app.scriptOf t).toOption,
          script.event = .bootstrap := by
    decide +kernel
  rcases hbootstrap i hi m.source hsource with ⟨u, hu, hscript⟩
  rw [hu] at ht
  rw [Option.some.inj ht] at hscript
  exact not_restarts_of_bootstrap _ m t hscript

/-- The end of a wait is not safe from other waits. While the first of the nappers waits, the time
    to wait is set to zero, the last one begins a wait of its own, and the first one goes on at the
    start of time. -/
theorem woken_by_another : ¬ ∀ (c : Control Store) (app : App) (x : Session Store)
    (s : ControlState Store) (after before : List (Move Store)) (first : Move Store),
    c.analysis = .explicit → app.WellMade → Course c app x s (after ++ first :: before) →
      (∀ m ∈ after ++ first :: before, m.Harmless x.scheduler.app) →
      ∀ (scope : List String) (seconds : Expr) (n : Int64),
        first.Pauses x.scheduler.app scope seconds →
        eval first.source.data seconds = .ok (.int n) →
        (wakeUpVariable scope).cellName ∉ seconds.cells →
        (∃ r, x.scheduler.app.relation first.edge.2.relation = .ok r
          ∧ r.hasEdgesFrom first.edge.2.location = true) →
        (∀ m ∈ after ++ [first], ∀ t, m.source.threads[first.index]? = some t →
          ¬ m.Restarts x.scheduler.app t) →
        (∃ m ∈ after ++ [first], ¬ m.target.Waits first.index) →
          first.source.data.time.toInt + n.toInt * 1000000 ≤ s.data.time.toInt := by
  intro h
  rcases course_of_expansions .concrete (napping nappers) (nappingSession nappers) (fun _ => rfl)
    (course_of_start _ _ _ _ .new (by decide +kernel)) 3 (by decide +kernel) with
    ⟨s, moves, hcourse, hs, hthree, hmoves⟩
  rcases List.length_eq_three.mp hthree with ⟨last, m, first, rfl⟩
  rcases hmoves 0 first rfl with ⟨hfirst, _, k, ⟨w⟩⟩
  rcases hmoves 1 m rfl with ⟨hsource, _, k₁, ⟨w₁⟩⟩
  rcases hmoves 2 last rfl with ⟨hlast, htarget, k₂, ⟨w₂⟩⟩
  -- The first nap has all that the theorem asks for. What is missing is that nobody else writes to
  -- its cell.
  rcases first_napping nappers 3 first k w hfirst (by decide +kernel) with
    ⟨hindex, hpauses, hvalue, htime, hmore, hstays, hharmless⟩
  have hend : ∀ s ∈ (nappingSession nappers 3).found.getLast?,
      s.data.time = 0 ∧ ∃ t ∈ s.threads[0]?, t.status = .running := by
    decide +kernel
  have hleft : ¬ last.target.Waits first.index := by
    rw [hindex]
    exact ControlState.not_waits_of_running _ 0 (hend last.target htarget).2
  have hearly := h .concrete (napping nappers) (nappingSession nappers 3) s [last, m] [] first rfl
    (App.wellMade_of_draft _ _) hcourse
    (List.forall_mem_cons.mpr ⟨harmless_third _ last w₂ hlast,
      List.forall_mem_cons.mpr ⟨harmless_second _ m w₁ hsource,
        List.forall_mem_singleton.mpr hharmless⟩⟩)
    ["a", "R8"] (.var duration) 2 hpauses hvalue (by decide) hmore
    (List.forall_mem_cons.mpr ⟨hindex ▸ first_continues 2 (by decide) last hlast,
      List.forall_mem_cons.mpr ⟨hindex ▸ first_continues 1 (by decide) m hsource,
        List.forall_mem_singleton.mpr hstays⟩⟩)
    ⟨last, List.mem_cons_self, hleft⟩
  rw [htime, (hend s hs).1] at hearly
  exact absurd hearly (by decide)

end Naps

end Session

end ActorCheck

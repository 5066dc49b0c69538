import ActorCheck.Proofs.Control.Priority
import ActorCheck.Proofs.Control.Punctual

/-!
# Nobody Is Left Waiting for the Clock

When nobody can run, the scheduler moves the clock to the end of the only wait, so that a program
does not come to a standstill while a thread waits for some seconds. Whether somebody can run is
asked twice, and not in the same words. Before the conditions are looked at, a thread counts if it
waits for its turn or runs. When the turn is passed, something has to leave its place as well.

The two agree about every thread but one kind. A thread at the end of its relation is done by the
time the conditions are looked at, so whoever waits for its turn has somewhere to go. Only a
monitor that was just started again may stand at a place that nothing leaves, namely at the entry
of its script. `Stalls` names such monitors. Without them the clock is moved whenever nobody can
run, the only wait is over then, and its condition is cleared away.

## Main definitions

* `App.Stalls`: A monitor that has nowhere to go when it is started again.

## Theorems

* `App.stalls_of_idle`: Who counts as able to run, but does not run in the end, is a monitor that
  stalls.
* `Scheduler.cleared_of_moved`: When the clock was moved, no condition is left.
* `Session.waits_resumed`: If nobody runs in a state that was found, nobody waits for the clock,
  unless a monitor stalls.
* `Session.stranded_by_monitor`: A monitor that stalls leaves a thread waiting for ever.
-/

namespace ActorCheck

namespace App

/-- The thread is a monitor, and nothing leaves the entry of its script. -/
def Stalls (app : App) (t : Thread) : Prop :=
  app.IsMonitor t ∧ ∃ p, app.entryPlace t = .ok p ∧ app.hasLeaving { t with place := p } = .ok false

theorem stalls_of_same (app : App) (t u : Thread) (h : t.Same u) (ht : app.Stalls t) :
    app.Stalls u := by
  rcases ht with ⟨hmonitor, p, hp, hleaves⟩
  refine ⟨isMonitor_of_same app t u h hmonitor, p, ?_, ?_⟩
  · rw [entryPlace_of_same app t u h]
    exact hp
  · rw [← hleaves]
    exact app.hasLeaving_of_place _ _ rfl

theorem stalls_of_extends (a b : App) (h : a.Extends b) (hdrawn : a.RelationsDrawn) (t : Thread)
    (ht : a.Stalls t) : b.Stalls t := by
  rcases ht with ⟨⟨script, hscript, hevent⟩, p, hp, hleaves⟩
  exact ⟨⟨script, scriptOf_of_extends a b h t script hscript, hevent⟩, p,
    entryPlace_of_extends a b h hdrawn t p hp, hasLeaving_of_extends a b h hdrawn _ false hleaves⟩

/-- A thread that can run but has nowhere to go is a monitor that stalls. -/
theorem stalls_of_going (app : App) (t : Thread) (hgoing : app.Going t)
    (hactive : t.status = .yield ∨ t.status = .running) (hleaves : app.hasLeaving t = .ok false) :
    app.Stalls t := by
  -- A thread that is going has failed, is done, has somewhere to go, or is a monitor at its entry.
  -- Only the last of these is left.
  rcases hgoing with hfailed | hdone | hmore | ⟨_, hmonitor, hentry⟩
  · rw [hfailed] at hactive
    exact absurd hactive (not_or.mpr ⟨nofun, nofun⟩)
  · rw [hdone] at hactive
    exact absurd hactive (not_or.mpr ⟨nofun, nofun⟩)
  · rw [hleaves] at hmore
    cases hmore
  · exact ⟨hmonitor, t.place, hentry, hleaves⟩

section Turn

variable {σ : Type} (app : App)

/-- If nobody runs once the turn was passed, nobody was chosen. -/
theorem unchosen_of_passTurn (s s' : ControlState σ) (index : Nat) (hidle : s'.running = [])
    (h : app.passTurn s index = .ok s') : ∃ t more, s.threads[index]? = some t
      ∧ app.hasLeaving t = .ok more ∧ s' = s.setThread index (giveTurnAway more t) := by
  have hnobody : ∀ (i : Nat) (t : Thread), s'.threads[i]? = some t → t.status ≠ .running := by
    intro i t ht hrun
    have hmem := (s'.mem_running i).mpr ⟨t, ht, hrun⟩
    rw [hidle] at hmem
    cases hmem
  -- To keep the turn or to be chosen would mean to run.
  rcases app.turned_of_passTurn s s' index h with ⟨t, more, ht, hmore, _, ⟨rfl, hrun, _⟩ | hgrant⟩
  · exact absurd (beq_iff_eq.mp hrun) (hnobody index t ht)
  · rcases app.turned_of_grantTurn _ s' index hgrant with rfl | ⟨i, u, hu, _, _, rfl⟩
    · exact ⟨t, more, ht, hmore, rfl⟩
    · exact absurd rfl (hnobody i { u with status := .running }
        (List.getElem?_set_self (List.getElem?_eq_some_iff.mp hu).1))

/-- A thread that counts as able to run, but after which nobody runs, is a monitor that stalls. -/
theorem stalls_of_idle (s s' : ControlState σ) (index i : Nat) (t : Thread)
    (ht : s.threads[i]? = some t) (hactive : t.status = .yield ∨ t.status = .running)
    (hgoing : app.Going t) (hturned : app.WellTurned s') (hidle : s'.running = [])
    (h : app.passTurn s index = .ok s') : ∃ u ∈ s'.threads, app.Stalls u := by
  have hnobody : ∀ u ∈ s'.threads, u.status ≠ .running := by
    intro u hu hrun
    rcases List.getElem?_of_mem hu with ⟨j, hj⟩
    have hmem := (s'.mem_running j).mpr ⟨u, hj, hrun⟩
    rw [hidle] at hmem
    cases hmem
  -- A thread that waits for its turn in the end has nowhere to go.
  have hstuck : ∀ u ∈ s'.threads, u.status = .yield → app.hasLeaving u = .ok false :=
    hturned.busy hnobody
  rcases app.unchosen_of_passTurn s s' index hidle h with ⟨t₀, more, ht₀, hmore, rfl⟩
  -- The thread may be the one that gives its turn away, which is done by it if nothing leaves its
  -- place.
  by_cases hi : index = i
  · subst hi
    rw [ht] at ht₀
    cases ht₀
    have hmem : giveTurnAway more t ∈ (s.setThread index (giveTurnAway more t)).threads :=
      List.mem_set (List.getElem?_eq_some_iff.mp ht).1 _
    rcases giveTurnAway_cases more t with ⟨rfl, _, heq⟩ | ⟨rfl, _, heq⟩ | ⟨hnot, heq⟩
    · refine ⟨_, hmem, ?_⟩
      rw [heq]
      exact app.stalls_of_same t _ ⟨rfl, rfl, rfl⟩ (app.stalls_of_going t hgoing hactive hmore)
    · have hleaves := hstuck _ hmem (by rw [heq])
      rw [heq] at hleaves
      rw [app.hasLeaving_of_place t { t with status := .yield } rfl, hmore] at hleaves
      cases hleaves
    · rw [heq] at hmem hstuck ⊢
      exact ⟨t, hmem, app.stalls_of_going t hgoing hactive
        (hstuck t hmem (hactive.resolve_right hnot))⟩
  · have hmem : t ∈ (s.setThread index (giveTurnAway more t₀)).threads :=
      List.mem_of_getElem? ((List.getElem?_set_ne hi).trans ht)
    exact ⟨t, hmem, app.stalls_of_going t hgoing hactive
      (hstuck t hmem (hactive.resolve_right (hnobody t hmem)))⟩

end Turn

end App

namespace Scheduler

variable (c : Control Store) (hc : c.analysis = .explicit)

include hc

/-- When the clock was moved, the only wait is over, and no condition is left. -/
theorem cleared_of_moved (app : App) (happ : app.WellMade) (hall : app.Exhaustive)
    (s u : ControlState Store) (data : Store) (found : List (ControlState Store)) (q : Thread)
    (scope : List String) (hq : app.Alarm q scope) (honly : s.conditions = [q]) (value : Value)
    (hend : data.read (wakeUpVariable scope) = .ok value)
    (hclock : data[Builtin.clock.cellName]? = some value)
    (h : evaluateConditions c app { s with data := data } = .ok found) (hu : u ∈ found) :
    u.conditions = [] := by
  let moved : ControlState Store := { s with data := data }
  have hconditions : moved.conditions = [q] := honly
  have halarmed : app.Alarmed moved := by
    intro p hp
    rw [hconditions] at hp
    rw [List.mem_singleton.mp hp]
    exact ⟨scope, hq⟩
  have hids : (moved.conditions.map Thread.id).Nodup := by
    rw [hconditions]
    exact List.nodup_singleton _
  have htruth := truthful_of_evaluateConditions c hc app happ moved u halarmed found h hu
  have hpunctual :=
    punctual_of_evaluateConditions c hc app happ hall moved halarmed hids u found h hu
  refine List.eq_nil_iff_forall_not_mem.mpr fun r hr => ?_
  -- What is left would be the only alarm, and its wait would not be over.
  rcases hpunctual r hr with ⟨scope', halarm, hahead⟩
  have hsame : app.Alarm q scope' := by
    rcases htruth.conditions r hr with ⟨p, hp, hpr⟩
    rw [hconditions] at hp
    rw [List.mem_singleton.mp hp] at hpr
    rcases hpr with rfl | ⟨rfl, _⟩
    · exact halarm
    · exact halarm
  rw [htruth.data, app.wakeUp_of_alarm happ q scope' scope hsame hq] at hahead
  exact not_ahead_of_reached data scope value hend hclock hahead

/-- If nobody runs at the end of a step, no condition is left, unless a monitor stalls. -/
theorem served_of_ending (before after : App) (concern : Concern) (s s' : ControlState Store)
    (index : Nat) (t : Thread) (data : Store) (hext : before.Extends after)
    (hdrawn : before.RelationsDrawn) (hafter : after.WellMade) (hall : after.Exhaustive)
    (hs : before.Coherent (s.setThread index { t with operations := [] }))
    (hturned : after.WellTurned s') (hidle : s'.running = [])
    (h : Ending c before after concern s index t data s') :
    s'.conditions = [] ∨ ∃ u ∈ s'.threads, after.Stalls u := by
  rcases h with ⟨threads, started, released, u, hfinish, hstart, hrelease, hlooked, hturn⟩
  have hconditions := (fixed_of_passTurn after u s' index hturn).2
  have hreleased := before.released_of_extends after hext hdrawn released s.conditions
    (before.released_of_phases concern _ threads started released s.conditions hs.linked hfinish
      hstart hrelease)
  rw [hconditions]
  -- Without conditions there is nothing to show. Otherwise somebody could run when they were
  -- evaluated, or the clock was moved.
  cases hlooked with
  | none hempty hsame =>
      rw [hsame]
      exact Or.inl hempty
  | evaluated moved found hmoved heval hu =>
      cases hmoved with
      | still hbusy =>
          -- Somebody counted as able to run, and conditions leave that thread alone.
          rcases List.any_eq_true.mp hbusy with ⟨v, hv, hactive⟩
          rw [Bool.or_eq_true, beq_iff_eq, beq_iff_eq] at hactive
          rcases List.getElem?_of_mem hv with ⟨i, hi⟩
          rcases alternative_of_evaluateConditions c after (afterStep s index released data) u found
            hreleased hs.checking heval hu with ⟨pending, _, b, _, _, _, halternative, rfl⟩
          have hawake : v.status ≠ .wait := by
            rintro hwait
            rw [hwait] at hactive
            exact absurd hactive (not_or.mpr ⟨nofun, nofun⟩)
          exact Or.inr (after.stalls_of_idle (dropConditions (pending.map Prod.snd) b) s' index i v
            (halternative.awake i v hi hawake) hactive (hreleased.going v hv) hturned hidle hturn)
      | moved data' q scope honly halarm hothers value hgoal hclock =>
          refine Or.inl (cleared_of_moved c hc after hafter hall _ u moved found q scope halarm
            honly value ?_ hclock heval hu)
          rw [← hgoal]
          exact Store.read_congr _ _ _ (hothers _ (wakeUp_ne_clock scope))

omit hc in
/-- The promise about turns holds at the end of a step. -/
theorem wellTurned_of_ending (before after : App) (concern : Concern) (s s' : ControlState Store)
    (index : Nat) (t : Thread) (data : Store) (hs : s.InStep index)
    (ht : s.threads[index]? = some t) (h : Ending c before after concern s index t data s') :
    after.WellTurned s' := by
  rcases h with ⟨threads, started, released, u, hfinish, hstart, hrelease, hlooked, hturn⟩
  have hchecked : Checked c after (afterStep s index released data) u := by
    cases hlooked with
    | none hempty hsame => exact .none (List.isEmpty_iff.mpr hempty) hsame
    | evaluated moved found _ heval hu => exact .evaluated moved found heval hu
  have hcalmer := s.calmer_trans _ u (calmer_afterStep before s index t threads data ht hfinish)
    (calmer_of_woken c before after concern _ u ⟨started, released, hstart, hrelease, hchecked⟩)
  exact after.wellTurned_of_passTurn u s' index (s.inStep_of_calmer u index hcalmer hs) hturn

/-- If nobody runs after a move, no condition is left, unless a monitor stalls. -/
theorem served_of_middle (k k' : Scheduler) (m : Move Store) (w : Passage c k k' m) (hw : Middle w)
    (hall : w.k₅.app.Exhaustive) (hidle : m.target.running = []) :
    m.target.conditions = [] ∨ ∃ u ∈ m.target.threads, k'.app.Stalls u := by
  have hturned := wellTurned_of_ending c _ _ _ _ _ _ _ _ hw.inStep w.moved hw.ending
  refine (served_of_ending c hc _ _ _ _ _ _ _ _ hw.completing hw.soundLast.wellMade.relations
    hw.soundAfter.wellMade hall (coherent_of_cleared _ _ hw.coherent _ _ w.moved) hturned hidle
    hw.ending).imp_right ?_
  rintro ⟨u, hu, hstalls⟩
  exact ⟨u, hu, App.stalls_of_extends _ _ w.grown hw.soundAfter.wellMade.relations u hstalls⟩

end Scheduler

/-- A program that waits for a second while a monitor watches its statements. -/
def guarded (watching : List Statement) : AppDraft where
  name := "guarded"
  relations := [.sequence [pausing 1, .epsilon], .sequence watching]
  actors := [
    ⟨"waiter", .program, none, [], [], [], [(.bootstrap, 0)]⟩,
    ⟨"guard", .specification, none, [], [], [], [(.afterStatement, 1)]⟩]

/-- The guarded program after a number of steps. -/
def guardedSession (watching : List Statement) : Nat → Session Store
  | 0 => (Session.new ((guarded watching).build.run (App.new "guarded")).2).start ∅
  | n + 1 => (guardedSession watching n).expandLast .concrete

theorem explored_guardedSession (watching : List Statement) (n : Nat) :
    Session.Explored .concrete ((guarded watching).build.run (App.new "guarded")).2
      (guardedSession watching n) := by
  induction n with
  | zero => exact .start _ ∅ .new
  | succ n ih => exact Session.explored_of_expandLast _ _ _ ih

namespace Session

/-- If nobody runs in a state that was found, nobody waits for the clock, unless there is a monitor
    that stalls. -/
theorem waits_resumed (c : Control Store) (hc : c.analysis = .explicit) (app : App)
    (happ : app.WellMade) (hall : app.Exhaustive) (x : Session Store) (h : Explored c app x)
    (s : ControlState Store) (hs : s ∈ x.found) (hidle : s.running = []) :
    s.conditions = [] ∨ ∃ t ∈ s.threads, x.scheduler.app.Stalls t := by
  refine (invariant_of_moves c app (fun k => k.Sound ∧ k.app.Exhaustive)
    (fun app s => s.running = [] → s.conditions = [] ∨ ∃ t ∈ s.threads, app.Stalls t)
    ⟨Scheduler.sound_new app happ, hall⟩ Scheduler.additive_exhaustive ?_ ?_ ?_ x h).2 s hs hidle
  -- To stall is to stall in any program that has grown out of this one.
  · intro k b s hk hext hs hidle
    refine (hs hidle).imp_right ?_
    rintro ⟨t, ht, hstalls⟩
    exact ⟨t, ht, App.stalls_of_extends _ _ hext hk.1.wellMade.relations t hstalls⟩
  · exact fun data k k' s hgives _ =>
      Or.inl (Scheduler.conditions_of_gives_startState data k k' s hgives)
  · intro y k m hy hfound hk _ w hidle
    have hsteady := steady_of_explored c app happ.relations y hy m.source hfound
    have halarmed := (sound_of_explored c hc app happ y hy).2 m.source hfound
    exact Scheduler.served_of_middle c hc _ _ m w
      (Scheduler.middle_of_passage c hc _ _ m w hk.1 hsteady halarmed)
      (Scheduler.exhaustive_of_passage c _ _ m w hk.1 hk.2) hidle

/-- A monitor that has something to do does not keep the clock from being moved. -/
theorem waits_resumed_guarded : ∃ s ∈ (guardedSession [.epsilon] 2).found, s.running = []
    ∧ 1000000 ≤ s.data.time.toInt ∧ s.conditions = [] := by
  have hfound : ∃ s ∈ (guardedSession [.epsilon] 2).found, s.running = []
      ∧ 1000000 ≤ s.data.time.toInt
      ∧ ∀ t ∈ s.threads,
        (∃ script ∈ ((guardedSession [.epsilon] 2).scheduler.app.scriptOf t).toOption,
          script.event ≠ .afterStatement)
        ∨ ∃ p ∈ ((guardedSession [.epsilon] 2).scheduler.app.entryPlace t).toOption,
          true ∈ ((guardedSession [.epsilon] 2).scheduler.app.hasLeaving
            { t with place := p }).toOption := by
    decide +kernel
  rcases hfound with ⟨s, hs, hidle, htime, hall⟩
  refine ⟨s, hs, hidle, htime, ?_⟩
  refine (waits_resumed .concrete rfl _ (App.wellMade_of_draft _ _) (App.exhaustive_of_draft _ _) _
    (explored_guardedSession _ _) s hs hidle).resolve_right ?_
  rintro ⟨t, ht, hmonitor, p, hp, hleaves⟩
  -- Neither thread of the state stalls: one is no monitor, and something leaves the entry of the
  -- other.
  rcases hall t ht with ⟨script, hscript, hevent⟩ | ⟨p', hp', hmore⟩
  · exact App.not_isMonitor_of_noMonitor _ t ⟨script, (mem_toOption _ _).mp hscript, hevent⟩
      hmonitor
  · rw [(mem_toOption _ _).mp hp'] at hp
    cases hp
    rw [(mem_toOption _ _).mp hmore] at hleaves
    cases hleaves

/-- A monitor that stalls counts as able to run, so the clock is not moved, and the program comes to
    a standstill while a thread waits for it. -/
theorem stranded_by_monitor : ¬ ∀ (c : Control Store) (app : App) (x : Session Store),
    c.analysis = .explicit → app.WellMade → app.Exhaustive → Explored c app x →
      ∀ s ∈ x.found, s.isTarget = false → s.running = [] → s.conditions = [] := by
  intro h
  have hfound : ∃ s ∈ (guardedSession [] 1).found, s.isTarget = false ∧ s.running = []
      ∧ s.conditions ≠ [] := by
    decide +kernel
  rcases hfound with ⟨s, hs, htarget, hidle, hwaits⟩
  exact hwaits (h .concrete _ _ rfl (App.wellMade_of_draft _ _) (App.exhaustive_of_draft _ _)
    (explored_guardedSession _ _) s hs htarget hidle)

end Session

end ActorCheck

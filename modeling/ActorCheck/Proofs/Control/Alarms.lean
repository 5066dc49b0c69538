import ActorCheck.Proofs.Control.Links
import ActorCheck.Proofs.Control.Session
import ActorCheck.Proofs.Program.Settling

/-!
# What the Scheduler Knows about Alarms

A thread that waits for some seconds waits for a condition thread, and the condition is always of
one kind: the clock has reached the variable that holds the end of the wait. The scheduler keeps
what it needs to hurry such a condition along in two tables. One says for a script which variable
to move and where to, the other keeps the relation that does so once it was made.

`Sound` says that the tables are right about the program. A script in the first table is the
script of a condition of this kind, and the entry moves the clock to the variable that the
condition compares it with. A relation in the second table does nothing but that.

A condition thread is an alarm of a scope if its script is that of the condition that the clock
has reached the variable of the scope, and if it stands at the entry of the relation that decides
this condition. All condition threads are alarms, which is shown together with `Sound` by one
induction over a session.

## Main definitions

* `Scheduler.Sound`: The tables of the scheduler are right.
* `App.Alarm`: A condition thread that waits for the clock.
* `App.Alarmed`: All condition threads of a state are alarms.

## Theorems

* `Scheduler.additive_sound`: Whatever the scheduler adds, its tables stay right.
* `Scheduler.advances_of_gives_accelerator`: The relation that moves the clock.
* `Scheduler.alarm_of_accelerations`: What the tables know about an alarm.
* `Scheduler.paused_of_gives_beginWait`: How a timed wait begins.
-/

namespace ActorCheck

theorem wakeUpVariable_inj (scope scope' : List String)
    (h : waitIsOver (wakeUpVariable scope) = waitIsOver (wakeUpVariable scope')) :
    wakeUpVariable scope = wakeUpVariable scope' := by
  unfold waitIsOver at h
  exact Expr.var.inj (Expr.cmp.inj h).2.2

namespace Scheduler

/-- Only the program has grown, and no script of a condition was made. -/
structure Grown (k k' : Scheduler) : Prop where
  app : k.app.Extends k'.app
  scripts : k'.app.conditionScripts = k.app.conditionScripts
  accelerations : k'.accelerations = k.accelerations
  accelerators : k'.accelerators = k.accelerators

theorem grown_trans (a b c : Scheduler) (h : a.Grown b) (h' : b.Grown c) : a.Grown c :=
  ⟨App.extends_trans _ _ _ h.app h'.app, h'.scripts.trans h.scripts,
    h'.accelerations.trans h.accelerations, h'.accelerators.trans h.accelerators⟩

theorem grown_newOperation (s : Statement) : Keeps Grown (adding (App.newOperation s)) :=
  fun k => ⟨App.extends_newOperation s k.app k.app (App.extends_refl k.app), rfl, rfl, rfl⟩

theorem grown_building {α : Type} (x : Drawing α) (hx : Draws x) :
    Keeps Grown (modelling (App.building x)) := fun k =>
  ends_modelling k.Grown _ k
    ⟨App.extends_building x hx k.app k.app (App.extends_refl k.app), rfl, rfl, rfl⟩

/-- The tables of the scheduler are right about the program. -/
structure Sound (k : Scheduler) : Prop where
  wellMade : k.app.WellMade
  /-- A script that the scheduler has learned about waits for the clock. -/
  accelerated : ∀ (id : ScriptId) (a : Acceleration), k.accelerations[id]? = some a →
    ∃ c ∈ k.app.conditionScripts, c.script.id = id ∧ ∃ scope,
      c.condition = waitIsOver (wakeUpVariable scope) ∧ a.variant = Builtin.clock
        ∧ a.accelerateTo = .var (wakeUpVariable scope)
  /-- The relation that was made for a script does what was learned about it. -/
  accelerators : ∀ (id : ScriptId) (r : Relation), k.accelerators[id]? = some r →
    ∃ a : Acceleration, k.accelerations[id]? = some a ∧ k.app.Advances r a.variant a.accelerateTo
      ∧ r.Active

theorem sound_new (app : App) (h : app.WellMade) : (new app).Sound := by
  refine ⟨h, fun id a ha => ?_, fun id r hr => ?_⟩
  · rw [show (new app).accelerations[id]? = none from Std.ExtTreeMap.getElem?_empty] at ha
    cases ha
  · rw [show (new app).accelerators[id]? = none from Std.ExtTreeMap.getElem?_empty] at hr
    cases hr

/-- Scripts of conditions may have been made, but the tables are the same. -/
theorem sound_of_sameTables (k k' : Scheduler) (happ : k.app.Extends k'.app)
    (hmade : k'.app.WellMade) (haccelerations : k'.accelerations = k.accelerations)
    (haccelerators : k'.accelerators = k.accelerators) (h : k.Sound) : k'.Sound := by
  refine ⟨hmade, fun id a ha => ?_, fun id r hr => ?_⟩
  · rw [haccelerations] at ha
    rcases h.accelerated id a ha with ⟨c, hc, hrest⟩
    exact ⟨c, happ.conditionScripts.subset hc, hrest⟩
  · rw [haccelerators] at hr
    rcases h.accelerators id r hr with ⟨a, ha, hr, hactive⟩
    rw [haccelerations]
    exact ⟨a, ha, App.advances_of_extends _ _ happ h.wellMade.operations r _ _ hr, hactive⟩

theorem sound_of_grown (k k' : Scheduler) (hk : k.Grown k') (h : k.Sound) : k'.Sound :=
  sound_of_sameTables k k' hk.app (App.wellMade_of_extends _ _ hk.app h.wellMade hk.scripts)
    hk.accelerations hk.accelerators h

/-- The scheduler after asking for the script of a condition. -/
theorem sound_of_conditionScript (owner : ActorName) (condition : Expr) (k : Scheduler)
    (h : k.Sound) : ((modelling (App.conditionScript owner condition)).run k).2.Sound :=
  ends_modelling Sound _ k
    (sound_of_sameTables k _ (App.extends_conditionScript owner condition k.app)
      (App.wellMade_of_conditionScript owner condition k.app h.wellMade) rfl rfl h)

/-- What is learned is right if it is about the script of a condition of the right kind. -/
theorem sound_of_learnAcceleration (k : Scheduler) (c : ConditionScript) (scope : List String)
    (a : Acceleration) (hc : c ∈ k.app.conditionScripts)
    (hcondition : c.condition = waitIsOver (wakeUpVariable scope))
    (hvariant : a.variant = Builtin.clock) (hgoal : a.accelerateTo = .var (wakeUpVariable scope))
    (h : k.Sound) : ((learnAcceleration c.script.id a).run k).2.Sound := by
  have hknown : ∀ (id : ScriptId) (b : Acceleration), k.accelerations[id]? = some b →
      (k.accelerations.insertIfNew c.script.id a)[id]? = some b := by
    intro id b hb
    rw [Std.ExtTreeMap.getElem?_insertIfNew, hb]
    have hmem : id ∈ k.accelerations :=
      Std.ExtTreeMap.mem_iff_isSome_getElem?.mpr (by rw [hb]; rfl)
    refine if_neg ?_
    rintro ⟨heq, hnot⟩
    rw [Std.LawfulEqCmp.eq_of_compare heq] at hnot
    exact hnot hmem
  refine ⟨h.wellMade, fun id b hb => ?_, fun id r hr => ?_⟩
  -- The note is the new one, or it was there before. A note that was there is not replaced.
  · have hb' : (k.accelerations.insertIfNew c.script.id a)[id]? = some b := hb
    rw [Std.ExtTreeMap.getElem?_insertIfNew] at hb'
    split at hb'
    next hnew =>
      cases hb'
      exact ⟨c, hc, Std.LawfulEqCmp.eq_of_compare hnew.1, scope, hcondition, hvariant, hgoal⟩
    next => exact h.accelerated id b hb'
  · rcases h.accelerators id r hr with ⟨b, hb, hadvances⟩
    exact ⟨b, hknown id b hb, hadvances⟩

/-- The relation that moves the clock for a script assigns what was learned about the script, and
    does nothing before it has done so. -/
theorem made_of_gives_makeAccelerator (script : ScriptId) (a : Acceleration) (k k' : Scheduler)
    (r : Relation) (hk : k.Sound) (h : Gives (makeAccelerator script a) k r k') :
    k'.app.Advances r a.variant a.accelerateTo ∧ r.Active
      ∧ ∃ k₀, k.Grown k₀ ∧ k' = { k₀ with accelerators := k.accelerators.insert script r } := by
  unfold makeAccelerator at h
  rcases (gives_bind _ _ _ _ _).mp h with ⟨step, k₁, hstep, h⟩
  rcases (gives_bind _ _ _ _ _).mp h with ⟨line, k₂, hline, h⟩
  rcases (gives_bind _ _ _ _ _).mp h with ⟨plain, k₃, hplain, h⟩
  rcases (gives_bind _ _ _ _ _).mp h with ⟨_, k₄, hadd, h⟩
  rcases (gives_bind _ _ _ _ _).mp h with ⟨_, k₅, hinsert, h⟩
  rcases (gives_pure _ _ _ _).mp h with ⟨rfl, rfl⟩
  have h₁ := related_of_gives Grown _ (grown_newOperation _) k k₁ step hstep
  have h₂ :=
    related_of_gives Grown _ (grown_building _ (Relation.draws_sequence _)) k₁ k₂ line hline
  have h₃ :=
    related_of_gives Grown _ (grown_building _ (Relation.draws_make _ _)) k₂ k₃ plain hplain
  -- The relation that is added has drawn its number just now.
  have hid := App.id_of_gives_building_make _ _ _ _ plain (gives_modelling _ k₂ k₃ plain hplain)
  have hadded := App.extends_addRelation (plain.rename ("accelerate_" ++ scriptText script))
    k₂.app k₃.app h₃.app hid.1 hid.2
  cases hadd
  cases hinsert
  let known : Scheduler := { k₃ with app := ((App.addRelation
    (plain.rename ("accelerate_" ++ scriptText script))).run k₃.app).2 }
  have h₄ : k.Grown known := grown_trans k k₁ _ h₁ (grown_trans k₁ k₂ _ h₂
    ⟨hadded, h₃.scripts, h₃.accelerations, h₃.accelerators⟩)
  refine ⟨?_, ?_, known, h₄, ?_⟩
  · -- Every edge carries the one operation that was made for it.
    have hop : k₁.app.operation step.id = .ok ⟨step.id, .store a.variant a.accelerateTo⟩ := by
      cases hstep
      exact App.operation_insert_self _ _ _ _ rfl
    have hdrawn₁ := (sound_of_grown k k₁ h₁ hk).wellMade.operations
    have hlast := App.operation_of_extends _ _
      (App.extends_trans _ _ _ h₂.app hadded) hdrawn₁ _ _ hop
    intro e he
    have hedges : (plain.rename ("accelerate_" ++ scriptText script)).edges = plain.toFlow.edges :=
      rfl
    rw [hedges,
      Relation.flow_of_gives_make _ _ _ _ plain
        (App.gives_building _ _ _ plain (gives_modelling _ k₂ k₃ plain hplain))] at he
    rcases Flow.ops_of_removeEpsilons _ e he with ⟨e', he', heq⟩
    have hmem := Relation.ops_of_gives_sequence _ line _ _
      (App.gives_building _ _ _ line (gives_modelling _ k₁ k₂ line hline)) e' he'
    rw [List.mem_singleton.mp hmem] at heq
    rw [← heq]
    exact hlast
  -- The number of the operation was drawn, and the number of the one that does nothing never is.
  · have hop : step.id ≠ epsilonId := by
      cases hstep
      exact Nat.ne_of_gt hk.wellMade.started
    exact Relation.active_of_line step.id hop line plain _ _ _ _ _ _
      (App.gives_building _ _ _ line (gives_modelling _ k₁ k₂ line hline))
      (App.gives_building _ _ _ plain (gives_modelling _ k₂ k₃ plain hplain))
  · rw [← h₄.accelerators]
    rfl

/-- If the relation that moves the clock cannot be made, no table has changed. -/
theorem grown_of_error_makeAccelerator (script : ScriptId) (a : Acceleration) (k k' : Scheduler)
    (e : AnalysisError) (h : (makeAccelerator script a).run k = (.error e, k')) : k.Grown k' := by
  rcases cases_of_makeAccelerator script a k with ⟨_, k₀, h₀, hrun⟩ | ⟨_, _, _, _, _, hrun⟩
  · cases h.symm.trans hrun
    exact ⟨h₀.grown, h₀.scripts, h₀.accelerations, h₀.accelerators⟩
  · cases h.symm.trans hrun

/-- Whatever the scheduler adds, its tables stay right. -/
theorem additive_sound : Additive fun k k' => k.Sound → k'.Sound where
  refl _ h := h
  trans _ _ _ h h' hk := h' (h hk)
  drawn k h := sound_of_grown k _
    ⟨App.extends_fresh k.app k.app (App.extends_refl k.app), rfl, rfl, rfl⟩ h
  asked owner condition k h := sound_of_conditionScript owner condition k h
  learned k k' owner scope script hscript hk' := by
    rcases App.known_of_gives_conditionScript owner _ _ _ script
      (gives_modelling _ k k' script hscript) with ⟨c, hc, rfl, hcondition⟩
    exact sound_of_learnAcceleration k' c scope _ hc hcondition rfl rfl hk'
  made k script a ha hk := by
    -- A failure leaves the tables alone. Otherwise the relation stands under its script, about
    -- which something is known.
    rcases hrun : (makeAccelerator script a).run k with ⟨e | r, k'⟩
    · exact sound_of_grown k k' (grown_of_error_makeAccelerator script a k k' e hrun) hk
    · rcases made_of_gives_makeAccelerator script a k k' r hk hrun with
        ⟨hadvances, hactive, k₀, h₀, rfl⟩
      have hsound := sound_of_grown k k₀ h₀ hk
      refine ⟨hsound.wellMade, hsound.accelerated, fun id r' hr' => ?_⟩
      have hr'' : (k.accelerators.insert script r)[id]? = some r' := hr'
      rw [Std.ExtTreeMap.getElem?_insert] at hr''
      split at hr''
      next heq =>
        cases hr''
        rw [← Std.LawfulEqCmp.eq_of_compare heq]
        exact ⟨a, (congrArg (·[script]?) h₀.accelerations).trans ha, hadvances, hactive⟩
      next => exact hsound.accelerators id r' (by rw [h₀.accelerators]; exact hr'')

/-- Whatever the scheduler adds, the conditions of all scripts are settled. -/
theorem additive_exhaustive :
    Additive fun k k' => k.Sound ∧ k.app.Exhaustive → k'.Sound ∧ k'.app.Exhaustive where
  refl _ h := h
  trans _ _ _ h h' hk := h' (h hk)
  drawn k h := ⟨additive_sound.drawn k h.1, App.exhaustive_of_extends k.app _
    (App.extends_fresh k.app k.app (App.extends_refl k.app)) h.1.wellMade rfl h.2⟩
  asked owner condition k h := ⟨additive_sound.asked owner condition k h.1,
    ends_modelling (fun k' => k'.app.Exhaustive) _ k
      (App.exhaustive_of_conditionScript owner condition k.app h.1.wellMade h.2)⟩
  learned k k' owner scope script hscript h :=
    ⟨additive_sound.learned k k' owner scope script hscript h.1, h.2⟩
  made k script a ha h := by
    refine ⟨additive_sound.made k script a ha h.1, ?_⟩
    rcases hrun : (makeAccelerator script a).run k with ⟨e | r, k'⟩
    · have hgrown := grown_of_error_makeAccelerator script a k k' e hrun
      exact App.exhaustive_of_extends _ _ hgrown.app h.1.wellMade hgrown.scripts h.2
    · rcases made_of_gives_makeAccelerator script a k k' r h.1 hrun with ⟨_, _, k₀, h₀, rfl⟩
      exact App.exhaustive_of_extends _ _ h₀.app h.1.wellMade h₀.scripts h.2

/-- The tables are right after a step that succeeded. -/
theorem sound_of_gives {α : Type} (x : Scheduling α)
    (hx : Keeps (fun k k' => k.Sound → k'.Sound) x) (k k' : Scheduler) (a : α)
    (h : Gives x k a k') (hk : k.Sound) : k'.Sound :=
  related_of_gives _ x hx k k' a h hk

/-- The relation that moves the clock for a script that the scheduler has learned about. -/
theorem advances_of_gives_accelerator (script : ScriptId) (a : Acceleration) (k k' : Scheduler)
    (r : Relation) (hk : k.Sound) (ha : k.accelerations[script]? = some a)
    (h : Gives (accelerator script a) k r k') :
    k'.app.Advances r a.variant a.accelerateTo ∧ r.Active := by
  unfold Gives accelerator at h
  rw [run_get_bind] at h
  -- The relation is made when it is asked for the first time. Later the one on record is given out.
  cases hmade : k.accelerators[script]? with
  | none =>
      rw [hmade] at h
      rcases made_of_gives_makeAccelerator script a k k' r hk h with ⟨hadvances, hactive, _⟩
      exact ⟨hadvances, hactive⟩
  | some r' =>
      rw [hmade] at h
      rcases (gives_pure _ _ _ _).mp h with ⟨rfl, rfl⟩
      rcases hk.accelerators script r' hmade with ⟨a', ha', hadvances⟩
      rw [ha] at ha'
      cases ha'
      exact hadvances

end Scheduler

/-- The condition thread waits for the clock to reach the variable that holds the end of a wait
    in a scope. It stands at the entry of the relation that decides this. -/
def App.Alarm (app : App) (q : Thread) (scope : List String) : Prop :=
  ∃ c ∈ app.conditionScripts, c.script.id = q.script ∧ c.script.relation = q.place.relation
    ∧ c.condition = waitIsOver (wakeUpVariable scope)
    ∧ ∃ r, app.relation q.place.relation = .ok r ∧ r.soleEntry = .ok q.place.location

/-- All condition threads of a state are alarms. -/
def App.Alarmed {σ : Type} (app : App) (s : ControlState σ) : Prop :=
  ∀ q ∈ s.conditions, ∃ scope, app.Alarm q scope

namespace App

theorem alarm_of_extends (a b : App) (h : a.Extends b) (hdrawn : a.RelationsDrawn) (q : Thread)
    (scope : List String) (hq : a.Alarm q scope) : b.Alarm q scope := by
  rcases hq with ⟨c, hc, hid, hrelation, hcondition, r, hr, hentry⟩
  exact ⟨c, h.conditionScripts.subset hc, hid, hrelation, hcondition, r,
    relation_of_extends a b h hdrawn _ r hr, hentry⟩

theorem alarmed_of_extends {σ : Type} (a b : App) (h : a.Extends b) (hdrawn : a.RelationsDrawn)
    (s : ControlState σ) (hs : a.Alarmed s) : b.Alarmed s := by
  intro q hq
  rcases hs q hq with ⟨scope, hscope⟩
  exact ⟨scope, alarm_of_extends a b h hdrawn q scope hscope⟩

/-- The relation of an alarm decides that the wait of its scope is over. -/
theorem judge_of_alarm (app : App) (happ : app.WellMade) (q : Thread) (scope : List String)
    (hq : app.Alarm q scope) : ∃ r, app.relation q.place.relation = .ok r
      ∧ r.soleEntry = .ok q.place.location ∧ app.Judges r (waitIsOver (wakeUpVariable scope)) := by
  rcases hq with ⟨c, hc, _, hrelation, hcondition, r, hr, hentry⟩
  -- There is one relation under the number, so the one that decides the condition is that of the
  -- alarm.
  rcases (happ.scripts c hc).judge with ⟨r', hr', _, hjudges⟩
  rw [hrelation, hr] at hr'
  cases hr'
  rw [hcondition] at hjudges
  exact ⟨r, hr, hentry, hjudges⟩

/-- The relation of an alarm settles whether the wait of its scope is over. -/
theorem settles_of_alarm (app : App) (hall : app.Exhaustive) (q : Thread) (scope : List String)
    (hq : app.Alarm q scope) (r : Relation) (hr : app.relation q.place.relation = .ok r) :
    app.Settles r (waitIsOver (wakeUpVariable scope)) := by
  rcases hq with ⟨c, hc, _, hrelation, hcondition, _⟩
  rcases hall c hc with ⟨r', hr', hsettles⟩
  rw [hrelation, hr] at hr'
  cases hr'
  rw [hcondition] at hsettles
  exact hsettles

/-- A condition thread waits for the end of one wait. -/
theorem wakeUp_of_alarm (app : App) (happ : app.WellMade) (q : Thread) (scope scope' : List String)
    (h : app.Alarm q scope) (h' : app.Alarm q scope') :
    wakeUpVariable scope = wakeUpVariable scope' := by
  rcases h with ⟨c, hc, hid, _, hcondition, _⟩
  rcases h' with ⟨d, hd, hid', _, hcondition', _⟩
  -- Scripts of conditions are told apart by their numbers.
  rw [happ.unique c hc d hd (hid.trans hid'.symm), hcondition'] at hcondition
  exact (wakeUpVariable_inj _ _ hcondition).symm

end App

namespace Scheduler

/-- What the scheduler has learned about an alarm is about the clock and about the variable of its
    scope. -/
theorem alarm_of_accelerations (k : Scheduler) (hk : k.Sound) (q : Thread) (scope : List String)
    (a : Acceleration) (hq : k.app.Alarm q scope) (ha : k.accelerations[q.script]? = some a) :
    a.variant = Builtin.clock ∧ a.accelerateTo = .var (wakeUpVariable scope) := by
  rcases hq with ⟨c, hc, hid, _, hcondition, _⟩
  rcases hk.accelerated q.script a ha with ⟨d, hd, hid', scope', hcondition', hvariant, hgoal⟩
  -- Scripts of conditions are told apart by their numbers.
  have hsame := hk.wellMade.unique c hc d hd (hid.trans hid'.symm)
  rw [← hsame, hcondition] at hcondition'
  rw [wakeUpVariable_inj scope scope' hcondition']
  exact ⟨hvariant, hgoal⟩

/-- Operations with identities of their own do something. -/
theorem operations_of_gives_freshOperations (statements : List Statement) (k k' : Scheduler)
    (ops : List Operation) (hk : k.Sound)
    (h : Gives (statements.mapM fun s => (liftM (freshOperation s) : Scheduling Operation))
      k ops k') :
    ops.map Operation.statement = statements ∧ ∀ op ∈ ops, op.id ≠ epsilonId := by
  induction statements generalizing k ops with
  | nil =>
      rw [List.mapM_nil, gives_pure] at h
      rw [← h.1]
      exact ⟨rfl, nofun⟩
  | cons s statements ih =>
      rw [List.mapM_cons, gives_bind] at h
      rcases h with ⟨op, k₁, hop, h⟩
      rcases (gives_bind _ _ _ _ _).mp h with ⟨rest, k₂, hrest, h⟩
      rcases (gives_pure _ _ _ _).mp h with ⟨rfl, rfl⟩
      have hk₁ := sound_of_gives _ (keeps_freshOperation additive_sound.modest s) k k₁ op hop hk
      rcases ih k₁ rest hk₁ hrest with ⟨hsame, hids⟩
      cases hop
      refine ⟨congrArg (s :: ·) hsame, List.forall_mem_cons.mpr ⟨?_, hids⟩⟩
      exact Nat.ne_of_gt hk.wellMade.started

/-- A condition thread stands at the entry of the relation of its script, under a new number. -/
theorem new_of_gives_conditionThread (actor : ActorName) (script : Script) (k k' : Scheduler)
    (q : Thread) (h : Gives (conditionThread actor script) k q k') :
    ∃ r entry, k.app.relation script.relation = .ok r ∧ r.soleEntry = .ok entry
      ∧ q = Thread.new k.app.supply.next actor script.id ⟨actor, r.id, entry⟩ .yield := by
  unfold conditionThread at h
  rw [gives_program_bind] at h
  rcases (gives_lookUp_bind _ _ _ _ _).mp h with ⟨r, hr, h⟩
  rcases (gives_lookUp_bind _ _ _ _ _).mp h with ⟨entry, hentry, h⟩
  rcases (gives_bind _ _ _ _ _).mp h with ⟨id, k₁, hid, h⟩
  rcases (gives_pure _ _ _ _).mp h with ⟨rfl, rfl⟩
  cases hid
  exact ⟨r, entry, (ofModel_ok _ _).mp hr, (ofModel_ok _ _).mp hentry, rfl⟩

/-- How a timed wait begins. The end of the wait is computed, and the thread waits for a new
    alarm. -/
theorem paused_of_gives_beginWait {σ : Type} (s : ControlState σ) (index : Nat) (t : Thread)
    (args : List Expr) (k k' : Scheduler) (outcomes : List (ControlState.Outcome σ)) (hk : k.Sound)
    (h : Gives (beginWait s index t args) k outcomes k') :
    ∃ seconds scope ops checker, args = [seconds] ∧ k.app.localScope t.place = .ok scope
      ∧ ops.map Operation.statement = settingAlarm (wakeUpVariable scope) seconds
      ∧ (∀ op ∈ ops, op.id ≠ epsilonId) ∧ k'.app.Alarm checker scope
      ∧ outcomes = [({ s.setThread index
          { t with
            status := .wait
            waitingFor := t.waitingFor.insert checker.id
            operations := ops } with
          conditions := s.conditions ++ [checker] }, false)] := by
  unfold beginWait at h
  split at h
  next seconds =>
    rw [gives_program_bind] at h
    rcases (gives_lookUp_bind _ _ _ _ _).mp h with ⟨scope, hscope, h⟩
    rcases (gives_bind _ _ _ _ _).mp h with ⟨ops, k₁, hops, h⟩
    rcases (gives_bind _ _ _ _ _).mp h with ⟨script, k₂, hscript, h⟩
    rcases (gives_bind _ _ _ _ _).mp h with ⟨_, k₃, hlearn, h⟩
    rcases (gives_bind _ _ _ _ _).mp h with ⟨checker, k₄, hchecker, h⟩
    rcases (gives_pure _ _ _ _).mp h with ⟨rfl, rfl⟩
    rcases operations_of_gives_freshOperations _ k k₁ ops hk hops with ⟨hstatements, hids⟩
    rcases App.known_of_gives_conditionScript _ _ _ _ script
      (gives_modelling _ k₁ k₂ script hscript)
      with ⟨c, hc, rfl, hcondition⟩
    rcases new_of_gives_conditionThread _ c.script k₃ k₄ checker hchecker with
      ⟨r, entry, hr, hentry, hnew⟩
    -- From the moment the script is known, the program only grows.
    have hk₁ := sound_of_gives _ (keeps_freshOperations additive_sound.modest _) k k₁ ops hops hk
    have hk₂ := sound_of_gives _ (sound_of_conditionScript _ _) k₁ k₂ c.script hscript hk₁
    have hlast : k₂.app.Extends k₄.app := App.extends_trans _ _ _
      (extends_of_gives _ (grows_learnAcceleration _ _) k₂ k₃ _ hlearn)
      (extends_of_gives _ (keeps_conditionThread additive_extends.modest _ _) k₃ k₄ checker
        hchecker)
    cases hlearn
    rcases (hk₂.wellMade.scripts c hc).judge with ⟨r', hr', hid, _⟩
    rw [show k₂.app.relation c.script.relation = .ok r from hr] at hr'
    cases hr'
    refine ⟨seconds, scope, ops, checker, rfl, hscope, hstatements, hids, ?_, rfl⟩
    rw [hnew]
    refine App.alarm_of_extends _ _ hlast hk₂.wellMade.relations _ scope
      ⟨c, hc, rfl, hid.symm, hcondition, r, ?_, hentry⟩
    exact (congrArg k₂.app.relation hid).trans hr
  next => exact absurd h (not_gives_throw _ _ _ _)

end Scheduler

end ActorCheck

import ActorCheck.Proofs.Control.Growth

/-!
# Where Faults Come From

The scheduler checks its own bookkeeping: that one thread runs at most, that this
thread has somewhere to go, that an index belongs to a thread, and that a thread waits
for one condition at most. What it reports when a check fails is a fault. A fault says
nothing about the program that is explored; it says that the scheduler is wrong.

Hardly any part of a step makes such a check. All others fail for reasons of the
program, of the model or of the data analysis, whatever the state is that they are given.
They are dealt with here, so that only the few parts that check something are left to be
looked at together with the states they are given.

The rules for sequences and maps are tagged for simplification, and so is what is found
about each part. A part is then faultless because it consists of such parts.

## Main definitions

* `AnalysisError.isFault`: The scheduler reports that it is wrong itself.
* `Faultless`: A look-up does not end in a fault.
* `Scheduler.Safe`: A step does not end in a fault.
* `DataAnalysis.IsFaultless`: A data analysis does not report faults of the scheduler.

## Theorems

* `faultless_bind`, `faultless_mapM`: The rules for look-ups.
* `Scheduler.safe_bind`, `Scheduler.safe_lookUp_bind`, `Scheduler.safe_mapM`: The rules for
  steps.
* `Runner.faultless_runAlong`: A run along a relation makes no check.
* `App.faultless_grantTurn`: Neither does the choice of the next thread.
* `Scheduler.safe_interpretCall`: Neither do calls.
-/

namespace ActorCheck

/-- The violated contract is one that the scheduler has with itself. -/
@[simp]
def ContractViolation.isFault : ContractViolation → Bool
  | .severalRunningThreads _ => true
  | .stuckRunningThread _ => true
  | .unknownThread _ => true
  | .severalConditionChecks _ _ => true
  | _ => false

/-- The scheduler reports that it is wrong itself. -/
@[simp]
def AnalysisError.isFault : AnalysisError → Bool
  | .contract violation => violation.isFault
  | _ => false

section LookUps

variable {α β : Type}

/-- The look-up does not end in a fault. -/
def Faultless (x : Except AnalysisError α) : Prop := ∀ e, x = .error e → e.isFault = false

@[simp]
theorem faultless_ok (a : α) : Faultless (.ok a) := nofun

@[simp]
theorem faultless_pure (a : α) : Faultless (pure a) := nofun

@[simp]
theorem faultless_error (e : AnalysisError) :
    Faultless (.error e : Except AnalysisError α) ↔ e.isFault = false := by
  constructor
  · intro h
    exact h e rfl
  · intro h e' heq
    cases heq
    exact h

@[simp]
theorem faultless_throw (e : AnalysisError) :
    Faultless (throw e : Except AnalysisError α) ↔ e.isFault = false :=
  faultless_error e

@[simp]
theorem faultless_ofModel (x : Except ModelError α) : Faultless (ofModel x) := by
  cases x with
  | error e => exact (faultless_error _).mpr rfl
  | ok a => exact faultless_ok a

@[simp]
theorem faultless_ofScope (x : Except ScopeError α) : Faultless (ofScope x) := by
  cases x with
  | error e => exact (faultless_error _).mpr rfl
  | ok a => exact faultless_ok a

/-- A sequence does not end in a fault exactly if its parts do not, the second one on
    what the first one found. -/
@[simp]
theorem faultless_bind (x : Except AnalysisError α) (f : α → Except AnalysisError β) :
    Faultless (x >>= f) ↔ Faultless x ∧ ∀ a, x = .ok a → Faultless (f a) := by
  cases x with
  | error e =>
      constructor
      · intro h
        exact ⟨(faultless_error e).mpr (h e rfl), nofun⟩
      · rintro ⟨h, _⟩
        exact (faultless_error e).mpr (h e rfl)
  | ok a =>
      constructor
      · intro h
        refine ⟨faultless_ok a, ?_⟩
        intro a' ha
        cases ha
        exact h
      · rintro ⟨_, h⟩
        exact h a rfl

@[simp]
theorem faultless_map (f : α → β) (x : Except AnalysisError α) :
    Faultless (f <$> x) ↔ Faultless x := by
  rw [← bind_pure_comp, faultless_bind]
  exact and_iff_left fun a _ => faultless_pure (f a)

/-- A map of look-ups does not end in a fault if no member does. -/
@[simp]
theorem faultless_mapM (f : α → Except AnalysisError β) (xs : List α)
    (h : ∀ x ∈ xs, Faultless (f x)) : Faultless (xs.mapM f) := by
  -- On the list: what a member finds is not used by the next one, so no state has to be carried.
  induction xs with
  | nil =>
      rw [List.mapM_nil]
      exact faultless_pure _
  | cons x xs ih =>
      rw [List.mapM_cons, faultless_bind]
      refine ⟨h x List.mem_cons_self, fun y _ => ?_⟩
      rw [faultless_bind]
      exact ⟨ih fun z hz => h z (List.mem_cons_of_mem _ hz), fun ys _ => faultless_pure _⟩

end LookUps

section Data

variable {σ : Type}

/-- The data analysis does not report faults of the scheduler. -/
def DataAnalysis.IsFaultless (d : DataAnalysis σ) : Prop :=
  ∀ s op concern, Faultless (d.successors s op concern)

theorem DataAnalysis.faultless_run (d : DataAnalysis σ) (hd : d.IsFaultless) (s : σ)
    (ops : List Operation) (concern : Concern) : Faultless (d.run s ops concern) := by
  -- The states are what changes from one operation to the next, so they are quantified inside the
  -- induction over the operations.
  have hall : ∀ states, Faultless (d.runFrom concern states ops) := by
    induction ops with
    | nil => exact fun states => faultless_ok states
    | cons op ops ih =>
        intro states
        unfold runFrom
        split
        · exact ih states
        · rw [faultless_bind]
          refine ⟨?_, fun next _ => ih next⟩
          simp [runAll, hd _ _ _]
  exact hall [s]

namespace Runner

variable (r : Runner σ) (hanalysis : r.analysis.IsFaultless)
  (hlookUp : ∀ id, Faultless (r.lookUp id)) (hscope : ∀ op, Faultless (r.scope op))

include hanalysis hlookUp hscope

theorem faultless_alternatives (g : Flow) (l : LocationId) (s : σ) :
    Faultless (r.alternatives g l s) := by
  -- An operation is looked up. Doing nothing keeps the state, and any other is scoped and handed to
  -- the analysis. None of the three looks at the scheduler.
  have hafter : ∀ id, Faultless (r.after s id) := by
    intro id
    rw [after, faultless_bind]
    refine ⟨hlookUp id, fun op _ => ?_⟩
    split
    · exact faultless_pure _
    · simp [hscope _, hanalysis _ _ _]
  simp [alternatives, hafter]

theorem faultless_runFrom (g : Relation) (depth : Nat) (l : LocationId) (s : σ) :
    Faultless (r.runFrom g depth l s) := by
  -- The bound on the depth is the fuel of the search. That it runs out is an error of the model,
  -- not a fault.
  induction depth generalizing l s with
  | zero => exact (faultless_error _).mpr rfl
  | succ depth ih =>
      simp [runFrom, faultless_alternatives r hanalysis hlookUp hscope, ih]

/-- A run along a relation makes no check of the scheduler. -/
theorem faultless_runAlong (g : Relation) (start : LocationId) (s : σ) :
    Faultless (r.runAlong g start s) := by
  unfold runAlong
  split
  · exact (faultless_error _).mpr rfl
  · exact faultless_runFrom r hanalysis hlookUp hscope g _ start s

end Runner

end Data

namespace App

variable {σ : Type} (app : App)

@[simp]
theorem faultless_actorNamed (name : ActorName) : Faultless (app.actorNamed name) :=
  faultless_ofModel _

@[simp]
theorem faultless_relationOf (id : RelationId) : Faultless (app.relationOf id) :=
  faultless_ofModel _

@[simp]
theorem faultless_operationOf (id : OperationId) : Faultless (app.operationOf id) :=
  faultless_ofModel _

@[simp]
theorem faultless_scriptOf (t : Thread) : Faultless (app.scriptOf t) := faultless_ofModel _

@[simp]
theorem faultless_localScope (p : Place) : Faultless (app.localScope p) := by
  simp [localScope]

@[simp]
theorem faultless_hasLeaving (t : Thread) : Faultless (app.hasLeaving t) := by
  simp [hasLeaving]

@[simp]
theorem faultless_leaving (s : ControlState σ) (t : Thread) : Faultless (app.leaving s t) := by
  simp [leaving]

@[simp]
theorem faultless_restart (t : Thread) : Faultless (app.restart t) := by
  simp [restart, entryPlace]

@[simp]
theorem faultless_loopMove (source target : Place) : Faultless (app.loopMove source target) := by
  unfold loopMove
  split
  · exact faultless_ok _
  · rw [faultless_bind]
    refine ⟨faultless_relationOf app _, fun r _ => ?_⟩
    split
    · exact faultless_pure _
    · exact faultless_pure _

section Broadcasts

@[simp]
theorem faultless_enableMonitor (t : Thread) : Faultless (app.enableMonitor t) := by
  unfold enableMonitor
  split
  · simp
  · exact faultless_ok t

@[simp]
theorem faultless_deliver (name : String) (t : Thread) : Faultless (app.deliver name t) := by
  unfold deliver
  split
  · exact faultless_ok _
  · rw [faultless_bind]
    refine ⟨faultless_scriptOf app t, fun script _ => ?_⟩
    split
    · simp
    · exact faultless_pure _

@[simp]
theorem faultless_broadcast (m : Message) (threads : List Thread) :
    Faultless (app.broadcast m threads) := by
  -- A message has a name or is refused because of the program, and either way nothing is checked.
  have hname : Faultless (messageName m) := by
    unfold messageName
    split
    · exact faultless_ok _
    · exact (faultless_error _).mpr rfl
  rw [broadcast, faultless_bind]
  refine ⟨hname, fun name _ => ?_⟩
  dsimp only
  split
  · simp [enableMonitors]
  · simp

end Broadcasts

section Wakes

@[simp]
theorem faultless_finishThreads (threads : List Thread) :
    Faultless (app.finishThreads threads) := by
  refine faultless_mapM _ threads fun t _ => ?_
  unfold finishThread
  split
  · exact faultless_ok t
  · simp

@[simp]
theorem faultless_startMonitors (concern : Concern) (threads : List Thread) :
    Faultless (app.startMonitors concern threads) := by
  unfold startMonitors
  split
  · refine faultless_mapM _ threads fun t _ => ?_
    unfold startMonitor
    split
    · exact faultless_ok t
    · rw [faultless_bind]
      refine ⟨faultless_scriptOf app t, fun script _ => ?_⟩
      split
      · exact faultless_restart app t
      · exact faultless_pure t
  · exact faultless_ok threads

@[simp]
theorem faultless_wake (t : Thread) : Faultless (app.wake t) := by
  simp [wake]

@[simp]
theorem faultless_releaseWaiting (threads : List Thread) :
    Faultless (app.releaseWaiting threads) := by
  refine faultless_mapM _ threads fun t _ => ?_
  unfold releaseThread
  split
  · exact faultless_ok t
  · dsimp only
    split
    · exact faultless_wake app _
    · exact faultless_ok _

end Wakes

section Turns

variable (s : ControlState σ)

@[simp]
theorem faultless_firstRunnable (order : List Nat) (first : Option Nat) :
    Faultless (app.firstRunnable s first order) := by
  -- Looking for a thread asks of each one whether it can run and who owns it. Both are look-ups.
  have hcan : ∀ t, Faultless (app.canRun t) := by
    intro t
    unfold canRun
    split
    · exact faultless_hasLeaving app t
    · exact faultless_ok false
  induction order generalizing first with
  | nil => exact faultless_ok first
  | cons index rest ih =>
      unfold firstRunnable
      split
      · exact ih first
      · rw [faultless_bind]
        refine ⟨hcan _, fun more _ => ?_⟩
        split
        · rw [faultless_bind]
          refine ⟨faultless_actorNamed app _, fun actor _ => ?_⟩
          split
          · exact faultless_pure _
          · exact ih _
        · exact ih first

/-- The choice of the next thread makes no check. -/
@[simp]
theorem faultless_grantTurn (stepped : Nat) : Faultless (app.grantTurn s stepped) := by
  -- Whether the thread may go on, and who is next otherwise. The checks of the scheduler come
  -- before and after, not here.
  have hgo : Faultless (app.canGoOn s stepped) := by
    unfold canGoOn
    split
    · split
      · exact faultless_hasLeaving app _
      · exact faultless_ok _
    · exact faultless_ok _
  have hnext : Faultless (app.nextThread s stepped) := by
    rw [nextThread, faultless_bind]
    refine ⟨faultless_firstRunnable app s _ none, fun found _ => ?_⟩
    split
    · exact faultless_pure _
    · simp [hgo]
  rw [grantTurn, faultless_bind]
  refine ⟨hnext, fun found _ => ?_⟩
  split
  · exact faultless_pure _
  · exact faultless_pure _

end Turns

end App

namespace Scheduler

section Rules

variable {α β : Type} (k : Scheduler)

/-- The step started with a scheduler does not end in a fault. -/
def Safe (x : Scheduling α) (k : Scheduler) : Prop := Faultless (x.run k).1

@[simp]
theorem safe_pure (a : α) : Safe (pure a) k := faultless_ok a

@[simp]
theorem safe_throw (e : AnalysisError) :
    Safe (throw e : Scheduling α) k ↔ e.isFault = false :=
  faultless_error e

@[simp]
theorem safe_lookUp (x : Except AnalysisError α) : Safe (liftM x) k ↔ Faultless x := by
  cases x with
  | error e => exact Iff.rfl
  | ok a => exact Iff.rfl

/-- What cannot fail does not end in a fault. -/
@[simp]
theorem safe_lift (x : StateM Scheduler α) : Safe (liftM x) k := faultless_ok (x.run k).1

@[simp]
theorem safe_bind (x : Scheduling α) (f : α → Scheduling β) :
    Safe (x >>= f) k ↔ Safe x k ∧ ∀ a k', Gives x k a k' → Safe (f a) k' := by
  unfold Safe Gives
  rw [run_bind]
  -- A step that failed ends the sequence with its own error. Otherwise the second part starts from
  -- the scheduler that the first one left.
  rcases hx : x.run k with ⟨e | a, k'⟩
  · constructor
    · intro h
      exact ⟨(faultless_error e).mpr (h e rfl), nofun⟩
    · rintro ⟨h, _⟩
      exact (faultless_error e).mpr (h e rfl)
  · constructor
    · intro h
      refine ⟨faultless_ok a, ?_⟩
      intro a' k₁ heq
      cases heq
      exact h
    · rintro ⟨_, h⟩
      exact h a k' rfl

/-- A look-up leaves the scheduler as it was for what follows. -/
theorem safe_lookUp_bind (x : Except AnalysisError α) (f : α → Scheduling β) :
    Safe (liftM x >>= f) k ↔ Faultless x ∧ ∀ a, x = .ok a → Safe (f a) k := by
  rw [safe_bind, safe_lookUp]
  refine and_congr_right fun _ => ⟨fun h a ha => ?_, fun h a k' hgives => ?_⟩
  · exact h a k ((gives_lookUp x a k k).mpr ⟨ha, rfl⟩)
  · rcases (gives_lookUp x a k k').mp hgives with ⟨ha, rfl⟩
    exact h a ha

/-- A step that begins by looking at the program. -/
theorem safe_program_bind (f : App → Scheduling β) :
    Safe (liftM program >>= f) k ↔ Safe (f k.app) k := Iff.rfl

@[simp]
theorem safe_map (f : α → β) (x : Scheduling α) : Safe (f <$> x) k ↔ Safe x k := by
  rw [← bind_pure_comp, safe_bind]
  exact and_iff_left fun a k' _ => safe_pure k' (f a)

@[simp]
theorem safe_adding (x : StateM App α) : Safe (adding x) k := safe_lift k _

@[simp]
theorem safe_modify (f : Scheduler → Scheduler) : Safe (modify f) k := safe_lift k (modify f)

/-- A map of steps does not end in a fault if no member does, from any scheduler whose
    program extends the one at the beginning. -/
theorem safe_mapM (f : α → Scheduling β) (xs : List α) (hgrows : ∀ x ∈ xs, Grows (f x))
    (h : ∀ x ∈ xs, ∀ k', k.app.Extends k'.app → Safe (f x) k') : Safe (xs.mapM f) k := by
  induction xs generalizing k with
  | nil =>
      rw [List.mapM_nil]
      exact safe_pure k _
  | cons x xs ih =>
      rw [List.mapM_cons, safe_bind]
      -- The other members start from a scheduler whose program has grown by what the first one
      -- added.
      refine ⟨h x List.mem_cons_self k (App.extends_refl _), fun y k₁ hy => ?_⟩
      have hfirst := extends_of_gives _ (hgrows x List.mem_cons_self) k k₁ y hy
      rw [safe_bind]
      refine ⟨ih k₁ (fun z hz => hgrows z (List.mem_cons_of_mem _ hz)) fun z hz k' hk' => ?_,
        fun ys k₂ _ => safe_pure _ _⟩
      exact h z (List.mem_cons_of_mem _ hz) k' (App.extends_trans _ _ _ hfirst hk')

@[simp]
theorem safe_modelling (x : Modelling α) : Safe (modelling x) k := by
  simp [modelling]

@[simp]
theorem safe_freshOperations (statements : List Statement) :
    Safe (statements.mapM fun s => (liftM (freshOperation s) : Scheduling Operation)) k :=
  safe_mapM k _ statements (fun s _ => grows_freshOperation s) fun _ _ k' _ => safe_lift k' _

end Rules

variable {σ : Type} (k : Scheduler)

@[simp]
theorem safe_conditionThread (actor : ActorName) (script : Script) :
    Safe (conditionThread actor script) k := by
  simp [conditionThread]

@[simp]
theorem safe_beginWait (s : ControlState σ) (index : Nat) (t : Thread) (args : List Expr) :
    Safe (beginWait s index t args) k := by
  unfold beginWait
  split
  · simp
  · simp

theorem safe_fastForward (c : Control σ) (hanalysis : c.analysis.IsFaultless)
    (s : ControlState σ) (script : ScriptId) (a : Acceleration) :
    Safe (fastForward c s script a) k := by
  -- The script that sets the clock is found or made, and then run. Making it only adds to the
  -- program, and a run makes no check of the scheduler.
  have haccelerator : Safe (accelerator script a) k := by
    rw [accelerator, safe_bind]
    refine ⟨safe_lift k _, fun known k₁ _ => ?_⟩
    split
    · exact safe_pure k₁ _
    · simp [makeAccelerator]
  have hrun : ∀ (app : App) (actor : Actor) (r : Relation) (entry : LocationId),
      Faultless ((⟨c.analysis, actor.concern, app.operationOf, .ok⟩ : Runner σ).runAlong r entry
        s.data) := fun app actor r entry =>
    Runner.faultless_runAlong _ hanalysis (App.faultless_operationOf app) faultless_ok r entry _
  simp [fastForward, haccelerator, hrun]

@[simp]
theorem safe_enterMethod (s : ControlState σ) (index : Nat) (t : Thread) (actor : Actor)
    (name : String) (args : List Expr) (source target : Place) :
    Safe (enterMethod s index t actor name args source target) k := by
  rw [enterMethod, safe_program_bind, safe_lookUp_bind]
  refine ⟨faultless_ofModel _, fun method _ => ?_⟩
  split
  · simp
  · simp

@[simp]
theorem safe_leaveMethod (s : ControlState σ) (index : Nat) (t : Thread) (actor : Actor)
    (result : Option Variable) : Safe (leaveMethod s index t actor result) k := by
  -- Where the call goes on is a question to the relation of the caller alone.
  have htargets : ∀ (app : App) (r : Relation) (source target : LocationId),
      Faultless (callTargets app r source target) := by
    intro app r source target
    simp [callTargets]
  rw [leaveMethod, safe_program_bind]
  split
  · simp
  · rw [safe_lookUp_bind]
    refine ⟨k.app.faultless_relationOf _, fun caller _ => ?_⟩
    rw [safe_lookUp_bind]
    refine ⟨htargets k.app caller _ _, fun targets _ => ?_⟩
    split
    · simp
    · simp

/-- A call makes no check, whatever the state is. -/
@[simp]
theorem safe_interpretCall (s : ControlState σ) (index : Nat) (t : Thread) (actor : Actor)
    (method : String) (args : List Expr) (result : Option Variable) (source target : Place) :
    Safe (interpretCall s index t actor method args result source target) k := by
  -- A call is a wait, or it is refused, or it leaves the state alone, or a method is entered.
  unfold interpretCall
  split
  · exact safe_beginWait k s index t args
  · split
    · simp
    · split
      · exact safe_pure k _
      · exact safe_enterMethod k s index t actor method args source target

end Scheduler

end ActorCheck

import ActorCheck.Control.Step
import ActorCheck.Proofs.Program.Growth

/-!
# Steps Only Add

Whatever the scheduler does, the program it leaves behind is the one it started
with, plus additions. This holds of steps that fail as well, and it is what
lets an exploration expand the states it has found in any order: a state that
was found early is expanded with a program that has grown since, and everything
the state refers to is still there.

What the scheduler does to itself comes down to four things. It draws numbers, it
asks for the script of a condition, it learns how the condition of such a script
can be hurried along, and it makes the relation that moves the clock for a script
it has learned about. A relation between schedulers that composes and covers these
four is `Additive`, and it covers every step: the rules for sequences and maps
reduce a step to its parts. That the program only grows is one such relation.

Scripts are asked for and learned about only when a timed wait begins. A relation
that covers the other two is `Modest`, and it covers every phase of a step except
the beginning of such a wait.

## Main definitions

* `Scheduler.Keeps`: Whatever comes of a step, the scheduler afterwards is related
  to the one before.
* `Scheduler.Modest`: A relation that covers all additions but those of timed waits.
* `Scheduler.Additive`: A relation that covers all additions.
* `Scheduler.Grows`: A step only adds to the program.
* `Scheduler.Prepared`: The program has grown without relations or scripts.

## Theorems

* `Scheduler.keeps_bind`, `Scheduler.keeps_mapM`: The rules.
* `Scheduler.keeps_follow`, `Scheduler.keeps_complete`: The phases of a step.
* `Scheduler.keeps_startState`, `Scheduler.keeps_successors`: The start and the
  steps of a program.
* `Scheduler.cases_of_makeAccelerator`: How the relation that moves the clock is made.
* `Scheduler.additive_extends`: Additions make the program grow.
* `Scheduler.extends_of_gives`: What a successful step leaves behind.
* `Scheduler.gives_mapM_extends`: The members of a map of steps.
-/

namespace ActorCheck

namespace Scheduler

/-- A step that begins by looking at the program. -/
theorem gives_program_bind {α : Type} (f : App → Scheduling α) (k k' : Scheduler) (a : α) :
    Gives (liftM program >>= f) k a k' ↔ Gives (f k.app) k a k' := Iff.rfl

theorem run_program_bind {α : Type} (f : App → Scheduling α) (k : Scheduler) :
    (liftM program >>= f).run k = (f k.app).run k := rfl

/-- A computation on the program that succeeded as a step. -/
theorem gives_modelling {α : Type} (x : Modelling α) (k k' : Scheduler) (a : α)
    (h : Gives (modelling x) k a k') : Gives x k.app a k'.app := by
  unfold modelling at h
  rcases (gives_bind _ _ _ _ _).mp h with ⟨r, k₁, hr, h⟩
  rw [gives_lookUp] at h
  rcases h with ⟨hok, rfl⟩
  -- A failure would be one of the whole step, so the computation has succeeded too.
  cases r with
  | error e => cases hok
  | ok b =>
      cases hok
      rcases Prod.mk.inj hr with ⟨hvalue, rfl⟩
      exact Prod.ext (Except.ok.inj hvalue) rfl

/-- A computation on the program that succeeds, as a step. -/
theorem gives_modelling_of {α : Type} (x : Modelling α) (k : Scheduler) (a : α) (after : App)
    (h : Gives x k.app a after) : Gives (modelling x) k a { k with app := after } := by
  unfold modelling
  refine (gives_bind _ _ _ _ _).mpr ⟨.ok a, { k with app := after }, ?_, rfl⟩
  change ((Except.ok (x.run k.app).1, { k with app := (x.run k.app).2 }) :
    Except AnalysisError (Except ModelError α) × Scheduler) = _
  -- By the definition of success as one particular result.
  rw [show x.run k.app = (.ok a, after) from h]

/-- Whatever comes of the step, the scheduler it leaves behind is related to the one
    it began with. -/
def Keeps {α : Type} (R : Scheduler → Scheduler → Prop) (x : Scheduling α) : Prop :=
  ∀ k : Scheduler, R k (x.run k).2

/-- A step that succeeded leaves a scheduler that is related to the one before. -/
theorem related_of_gives {α : Type} (R : Scheduler → Scheduler → Prop) (x : Scheduling α)
    (hx : Keeps R x) (k k' : Scheduler) (a : α) (h : Gives x k a k') : R k k' := by
  have hk := hx k
  rw [h] at hk
  exact hk

/-- A relation between schedulers that composes and covers what the scheduler adds
    apart from what the beginning of a timed wait makes it add. The relation that moves
    the clock is made for a script that it was not made for before. -/
structure Modest (R : Scheduler → Scheduler → Prop) : Prop where
  refl : ∀ k, R k k
  trans : ∀ a b c, R a b → R b c → R a c
  drawn : Keeps R (liftM fresh)
  made : ∀ k script a, k.accelerations[script]? = some a → k.accelerators[script]? = none →
    R k ((makeAccelerator script a).run k).2

/-- A relation between schedulers that composes and covers everything the scheduler
    ever adds. -/
structure Additive (R : Scheduler → Scheduler → Prop) : Prop where
  refl : ∀ k, R k k
  trans : ∀ a b c, R a b → R b c → R a c
  drawn : Keeps R (liftM fresh)
  asked : ∀ owner condition, Keeps R (modelling (App.conditionScript owner condition))
  /-- The condition of a script that was asked for is that a wait is over. -/
  learned : ∀ k k' owner scope script,
    Gives (modelling (App.conditionScript owner (waitIsOver (wakeUpVariable scope)))) k script k' →
    R k' (((learnAcceleration script.id
      ⟨owner, waitIsOver (wakeUpVariable scope), Builtin.clock, .var (wakeUpVariable scope)⟩ :
        StateM Scheduler Unit).run k').2)
  made : ∀ k script a, k.accelerations[script]? = some a →
    R k ((makeAccelerator script a).run k).2

theorem Additive.modest {R : Scheduler → Scheduler → Prop} (hR : Additive R) : Modest R :=
  ⟨hR.refl, hR.trans, hR.drawn, fun k script a h _ => hR.made k script a h⟩

section Keeping

variable {R : Scheduler → Scheduler → Prop} (hR : Modest R)

include hR

section Rules

variable {α β : Type}

theorem keeps_pure (a : α) : Keeps R (pure a) := hR.refl

theorem keeps_throw (e : AnalysisError) : Keeps R (throw e : Scheduling α) := hR.refl

theorem keeps_lookUp (x : Except AnalysisError α) : Keeps R (liftM x) := by
  intro k
  cases x with
  | error e => exact hR.refl k
  | ok a => exact hR.refl k

theorem keeps_program : Keeps R (liftM program) := hR.refl

theorem keeps_bind (x : Scheduling α) (f : α → Scheduling β) (hx : Keeps R x)
    (hf : ∀ a, Keeps R (f a)) : Keeps R (x >>= f) := by
  intro k
  -- Both parts keep the relation, which composes. If the first one fails the second one is not
  -- reached.
  exact ends_bind (R k) x f k (hx k) (fun a k' _ h => hR.trans _ _ _ h (hf a k'))

theorem keeps_mapM (f : α → Scheduling β) (xs : List α) (hf : ∀ x ∈ xs, Keeps R (f x)) :
    Keeps R (xs.mapM f) := by
  intro k
  exact ends_mapM (R k) f xs (fun x hx k' h => hR.trans _ _ _ h (hf x hx k')) k (hR.refl k)

end Rules

theorem keeps_freshOperation (s : Statement) : Keeps R (liftM (freshOperation s)) := hR.drawn

theorem keeps_freshOperations (statements : List Statement) :
    Keeps R (statements.mapM fun s => (liftM (freshOperation s) : Scheduling Operation)) :=
  keeps_mapM hR _ statements (fun s _ => keeps_freshOperation hR s)

section Clock

theorem keeps_conditionThread (actor : ActorName) (script : Script) :
    Keeps R (conditionThread actor script) := by
  unfold conditionThread
  refine keeps_bind hR _ _ (keeps_program hR) (fun app => ?_)
  refine keeps_bind hR _ _ (keeps_lookUp hR _) (fun r => ?_)
  refine keeps_bind hR _ _ (keeps_lookUp hR _) (fun entry => ?_)
  exact keeps_bind hR _ _ hR.drawn (fun id => keeps_pure hR _)

/-- The relation that moves the clock is made for a script that is known to wait for
    it. -/
theorem keeps_accelerator (k : Scheduler) (script : ScriptId) (a : Acceleration)
    (h : k.accelerations[script]? = some a) : R k ((accelerator script a).run k).2 := by
  unfold accelerator
  rw [run_get_bind]
  -- The relation that moves the clock is kept once it was made. Only for the first time something
  -- is added.
  cases hmade : k.accelerators[script]? with
  | some r => exact hR.refl k
  | none => exact hR.made k script a h hmade

variable {σ : Type}

theorem keeps_fastForward (c : Control σ) (s : ControlState σ) (k : Scheduler) (script : ScriptId)
    (a : Acceleration) (h : k.accelerations[script]? = some a) :
    R k ((fastForward c s script a).run k).2 := by
  unfold fastForward
  refine ends_bind (R k) _ _ k (keeps_accelerator hR k script a h) (fun r k' _ h' => ?_)
  refine hR.trans _ _ _ h' (keeps_bind hR _ _ (keeps_program hR) (fun app => ?_) k')
  refine keeps_bind hR _ _ (keeps_lookUp hR _) (fun actor => ?_)
  refine keeps_bind hR _ _ (keeps_lookUp hR _) (fun entry => ?_)
  exact keeps_bind hR _ _ (keeps_lookUp hR _) (fun found => keeps_pure hR _)

end Clock

section Statements

variable {σ : Type}

theorem keeps_enterMethod (s : ControlState σ) (index : Nat) (t : Thread) (actor : Actor)
    (name : String) (args : List Expr) (source target : Place) :
    Keeps R (enterMethod s index t actor name args source target) := by
  unfold enterMethod
  refine keeps_bind hR _ _ (keeps_program hR) (fun app => ?_)
  refine keeps_bind hR _ _ (keeps_lookUp hR _) (fun method => ?_)
  -- The number of arguments is looked at first. With a wrong one the rest is not reached, but it is
  -- checked all the same.
  split
  · refine keeps_bind hR _ _ (keeps_throw hR _) (fun _ => ?_)
    dsimp only
    refine keeps_bind hR _ _ (keeps_lookUp hR _) (fun callee => ?_)
    refine keeps_bind hR _ _ (keeps_lookUp hR _) (fun scope => ?_)
    exact keeps_bind hR _ _ (keeps_freshOperations hR _) (fun ops => keeps_pure hR _)
  · refine keeps_bind hR _ _ (keeps_lookUp hR _) (fun callee => ?_)
    refine keeps_bind hR _ _ (keeps_lookUp hR _) (fun scope => ?_)
    exact keeps_bind hR _ _ (keeps_freshOperations hR _) (fun ops => keeps_pure hR _)

theorem keeps_leaveMethod (s : ControlState σ) (index : Nat) (t : Thread) (actor : Actor)
    (result : Option Variable) : Keeps R (leaveMethod s index t actor result) := by
  unfold leaveMethod
  refine keeps_bind hR _ _ (keeps_program hR) (fun app => ?_)
  split
  · exact keeps_throw hR _
  · refine keeps_bind hR _ _ (keeps_lookUp hR _) (fun caller => ?_)
    refine keeps_bind hR _ _ (keeps_lookUp hR _) (fun targets => ?_)
    split
    · refine keeps_bind hR _ _ (keeps_lookUp hR _) (fun scope => ?_)
      exact keeps_bind hR _ _ (keeps_freshOperations hR _) (fun ops => keeps_pure hR _)
    · exact keeps_throw hR _

theorem keeps_interpretCall (s : ControlState σ) (index : Nat) (t : Thread) (actor : Actor)
    (method : String) (args : List Expr) (result : Option Variable) (source target : Place)
    (hwait : method = Builtin.waitSeconds → Keeps R (beginWait s index t args)) :
    Keeps R (interpretCall s index t actor method args result source target) := by
  unfold interpretCall
  split
  next hmethod => exact hwait hmethod
  · split
    · exact keeps_throw hR _
    · split
      · exact keeps_pure hR _
      · exact keeps_enterMethod hR s index t actor method args source target

/-- The interpretation of a statement, if the beginning of a timed wait is covered. -/
theorem keeps_interpret (s : ControlState σ) (index : Nat) (t : Thread) (statement : Statement)
    (source target : Place)
    (hwait : ∀ args result, statement = .call Builtin.waitSeconds args result →
      Keeps R (beginWait s index t args)) :
    Keeps R (interpret s index t statement source target) := by
  unfold interpret
  refine keeps_bind hR _ _ (keeps_program hR) (fun app => ?_)
  refine keeps_bind hR _ _ (keeps_lookUp hR _) (fun actor => ?_)
  -- Only a call may begin a timed wait. All others draw numbers at most.
  cases statement with
  | call method args result =>
      refine keeps_interpretCall hR _ _ _ _ _ _ _ _ _ ?_
      rintro rfl
      exact hwait args result rfl
  | ret result => exact keeps_leaveMethod hR _ _ _ _ _
  | broadcast m => exact keeps_bind hR _ _ (keeps_lookUp hR _) (fun _ => keeps_pure hR _)
  | broadcastAndWait m => exact keeps_bind hR _ _ (keeps_lookUp hR _) (fun _ => keeps_pure hR _)
  | endAtomic =>
      dsimp only
      split
      · exact keeps_throw hR _
      · exact keeps_pure hR _
  | store v e =>
      dsimp only
      split
      · exact keeps_bind hR _ _ (keeps_lookUp hR _) (fun _ => keeps_pure hR _)
      · exact keeps_pure hR _
  | waitUntil e => exact keeps_throw hR _
  | waitSecs e => exact keeps_throw hR _
  | _ => exact keeps_pure hR _

/-- Taking an edge, if the beginning of a timed wait is covered. -/
theorem keeps_follow_of_waits (s : ControlState σ) (index : Nat) (op : Operation) (target : Place)
    (hwait : ∀ (s' : ControlState σ) t args result,
      op.statement = .call Builtin.waitSeconds args result →
        Keeps R (beginWait s' index t args)) : Keeps R (follow s index op target) := by
  unfold follow
  refine keeps_bind hR _ _ (keeps_lookUp hR _) (fun t => ?_)
  refine keeps_bind hR _ _ (keeps_program hR) (fun app => ?_)
  refine keeps_bind hR _ _ (keeps_lookUp hR _) (fun action => ?_)
  exact keeps_interpret hR _ _ _ _ _ _ (hwait _ _)

end Statements

theorem keeps_initialThread (actor : Actor) (script : Script) :
    Keeps R (initialThread actor script) := by
  unfold initialThread
  refine keeps_bind hR _ _ (keeps_program hR) (fun app => ?_)
  refine keeps_bind hR _ _ (keeps_lookUp hR _) (fun r => ?_)
  refine keeps_bind hR _ _ (keeps_lookUp hR _) (fun entry => ?_)
  exact keeps_bind hR _ _ hR.drawn (fun id => keeps_pure hR _)

theorem keeps_initialThreads : Keeps R initialThreads := by
  unfold initialThreads
  refine keeps_bind hR _ _ (keeps_program hR) (fun app => ?_)
  refine keeps_bind hR _ _ (keeps_mapM hR _ _ fun actor _ => ?_) (fun found => keeps_pure hR _)
  exact keeps_mapM hR _ _ (fun script _ => keeps_initialThread hR actor script)

/-- The start of a program. -/
theorem keeps_startState {σ : Type} (data : σ) : Keeps R (startState data) := by
  unfold startState
  refine keeps_bind hR _ _ (keeps_initialThreads hR) (fun threads => ?_)
  refine keeps_bind hR _ _ (keeps_program hR) (fun app => ?_)
  refine keeps_bind hR _ _ (keeps_lookUp hR _) (fun s => ?_)
  exact keeps_bind hR _ _ (keeps_lookUp hR _) (fun _ => keeps_pure hR _)

section Steps

variable {σ : Type} [DecidableEq σ]

omit hR in
/-- The only condition thread, if it waits for the clock, is one that the scheduler
    has learned about. -/
theorem accelerations_of_clockWait? (accelerations : Std.ExtTreeMap ScriptId Acceleration)
    (conditions : List Thread) (script : ScriptId) (a : Acceleration)
    (h : clockWait? accelerations conditions = some (script, a)) :
    ∃ q, conditions = [q] ∧ q.script = script ∧ accelerations[script]? = some a
      ∧ a.variant = Builtin.clock := by
  -- It is looked at only if there is just one condition thread, and found only if the scheduler
  -- knows what it waits for.
  unfold clockWait? at h
  split at h
  next q =>
    rcases Option.map_eq_some_iff.mp h with ⟨b, hb, heq⟩
    rcases Option.filter_eq_some_iff.mp hb with ⟨hknown, hclock⟩
    cases heq
    exact ⟨q, rfl, rfl, hknown, beq_iff_eq.mp hclock⟩
  next => cases h

theorem keeps_runConditions (c : Control σ) (s : ControlState σ) : Keeps R (runConditions c s) := by
  unfold runConditions
  split
  · exact keeps_pure hR _
  · split
    · exact keeps_bind hR _ _ (keeps_program hR) (fun app => keeps_lookUp hR _)
    · intro k
      refine ends_bind (R k) _ _ k (hR.refl k) (fun k' k'' hget _ => ?_)
      cases hget
      dsimp only
      split
      next script a hwait =>
        rcases accelerations_of_clockWait? _ _ script a hwait with ⟨_, _, _, hknown, _⟩
        refine ends_bind (R k) _ _ k (keeps_fastForward hR c s k script a hknown) ?_
        intro moved k₁ _ h₁
        refine hR.trans _ _ _ h₁ (keeps_bind hR _ _ (keeps_program hR) (fun app => ?_) k₁)
        exact keeps_bind hR _ _ (keeps_mapM hR _ _ (fun t _ => keeps_lookUp hR _))
          (fun found => keeps_pure hR _)
      next => exact keeps_throw hR _ k

/-- Waking up. -/
theorem keeps_wakeAll (c : Control σ) (s : ControlState σ) (concern : Concern) :
    Keeps R (wakeAll c s concern) := by
  unfold wakeAll
  refine keeps_bind hR _ _ (keeps_program hR) (fun app => ?_)
  refine keeps_bind hR _ _ (keeps_lookUp hR _) (fun started => ?_)
  exact keeps_bind hR _ _ (keeps_lookUp hR _) (fun released => keeps_runConditions hR c _)

theorem keeps_complete (c : Control σ) (s : ControlState σ) (index : Nat) (t : Thread)
    (concern : Concern) (data : σ) : Keeps R (complete c s index t concern data) := by
  unfold complete
  refine keeps_bind hR _ _ (keeps_program hR) (fun app => ?_)
  refine keeps_bind hR _ _ (keeps_lookUp hR _) (fun threads => ?_)
  refine keeps_bind hR _ _ (keeps_wakeAll hR c _ concern) (fun woken => ?_)
  refine keeps_bind hR _ _ (keeps_program hR) (fun app => ?_)
  exact keeps_mapM hR _ _ (fun u _ => keeps_lookUp hR _)

theorem keeps_settle (c : Control σ) (index : Nat) (concern : Concern) (op : Operation)
    (outcome : ControlState.Outcome σ) : Keeps R (settle c index concern op outcome) := by
  unfold settle
  refine keeps_bind hR _ _ (keeps_lookUp hR _) (fun t => ?_)
  refine keeps_bind hR _ _ (keeps_lookUp hR _) (fun data => ?_)
  exact keeps_bind hR _ _ (keeps_mapM hR _ _ (fun d _ => keeps_complete hR c _ _ _ _ d))
    (fun _ => keeps_pure hR _)

end Steps

end Keeping

section Covering

variable {R : Scheduler → Scheduler → Prop} (hR : Additive R) {σ : Type}

include hR

theorem keeps_beginWait (s : ControlState σ) (index : Nat) (t : Thread) (args : List Expr) :
    Keeps R (beginWait s index t args) := by
  have hmodest := hR.modest
  unfold beginWait
  split
  · refine keeps_bind hmodest _ _ (keeps_program hmodest) (fun app => ?_)
    refine keeps_bind hmodest _ _ (keeps_lookUp hmodest _) (fun scope => ?_)
    refine keeps_bind hmodest _ _ (keeps_freshOperations hmodest _) (fun ops k => ?_)
    -- What is learned is about the script that was asked for just before.
    refine ends_bind (R k) _ _ k (hR.asked _ _ k) (fun script k₁ hscript h₁ => ?_)
    refine ends_bind (R k) _ _ k₁ (hR.trans _ _ _ h₁ (hR.learned k k₁ _ _ _ hscript)) ?_
    intro _ k₂ _ h₂
    refine hR.trans _ _ _ h₂ (keeps_bind hmodest _ _ (keeps_conditionThread hmodest _ _) ?_ k₂)
    exact fun checker => keeps_pure hmodest _
  · exact keeps_throw hmodest _

theorem keeps_follow (s : ControlState σ) (index : Nat) (op : Operation) (target : Place) :
    Keeps R (follow s index op target) :=
  keeps_follow_of_waits hR.modest s index op target
    (fun s' t args _ _ => keeps_beginWait hR s' index t args)

variable [DecidableEq σ]

theorem keeps_takeEdge (c : Control σ) (s : ControlState σ) (index : Nat) (concern : Concern)
    (edge : Operation × Place) : Keeps R (takeEdge c s index concern edge) := by
  have hmodest := hR.modest
  unfold takeEdge
  refine keeps_bind hmodest _ _ (keeps_follow hR _ _ _ _) (fun outcomes => ?_)
  exact keeps_bind hmodest _ _ (keeps_mapM hmodest _ _ fun o _ => keeps_settle hmodest c _ _ _ o)
    (fun _ => keeps_pure hmodest _)

theorem keeps_stepThread (c : Control σ) (s : ControlState σ) (index : Nat) :
    Keeps R (stepThread c s index) := by
  have hmodest := hR.modest
  unfold stepThread
  refine keeps_bind hmodest _ _ (keeps_program hmodest) (fun app => ?_)
  refine keeps_bind hmodest _ _ (keeps_lookUp hmodest _) (fun t => ?_)
  refine keeps_bind hmodest _ _ (keeps_lookUp hmodest _) (fun actor => ?_)
  refine keeps_bind hmodest _ _ (keeps_lookUp hmodest _) (fun edges => ?_)
  have hedges : Keeps R (edges.mapM (takeEdge c s index actor.concern) >>= fun found =>
      (pure found.flatten : Scheduling (List (ControlState σ)))) :=
    keeps_bind hmodest _ _ (keeps_mapM hmodest _ _ fun e _ => keeps_takeEdge hR c s index _ e)
      (fun _ => keeps_pure hmodest _)
  -- More than one edge may be an error, and then the edges are not taken.
  split
  · exact keeps_bind hmodest _ _ (keeps_throw hmodest _) (fun _ => hedges)
  · exact hedges

/-- A step of a program. -/
theorem keeps_successors (c : Control σ) (s : ControlState σ) : Keeps R (successors c s) := by
  have hmodest := hR.modest
  unfold successors
  split
  · exact keeps_pure hmodest _
  · split
    · exact keeps_throw hmodest _
    · split
      · exact keeps_pure hmodest _
      · exact keeps_stepThread hR c s _
      · exact keeps_throw hmodest _

end Covering

section Growing

variable {α β : Type}

/-- The step only adds to the program, whether it succeeds or not. -/
def Grows (x : Scheduling α) : Prop :=
  ∀ k : Scheduler, k.app.Extends (x.run k).2.app

/-- A computation on the program changes nothing but the program. -/
theorem ends_modelling (P : Scheduler → Prop) (x : Modelling α) (k : Scheduler)
    (h : P { k with app := (x.run k.app).2 }) : P ((modelling x).run k).2 := by
  unfold modelling
  -- Success and failure of the computation are unpacked afterwards, which does not change the
  -- scheduler.
  refine ends_bind P _ _ k h (fun r k' _ hk' => ?_)
  cases r with
  | error e => exact hk'
  | ok a => exact hk'

theorem grows_modelling (x : Modelling α) (hx : ∀ app : App, app.Extends (x.run app).2) :
    Grows (modelling x) := fun k =>
  ends_modelling (fun k' => k.app.Extends k'.app) x k (hx k.app)

section Preparing

/-- The tables of relations and of scripts of conditions are the same, and so is what is known about
    the conditions. -/
structure SameTables (k k' : Scheduler) : Prop where
  scripts : k'.app.conditionScripts = k.app.conditionScripts
  relations : k'.app.relations = k.app.relations
  accelerations : k'.accelerations = k.accelerations
  accelerators : k'.accelerators = k.accelerators

/-- The program has grown, but in none of these tables. -/
structure Prepared (k k' : Scheduler) : Prop extends SameTables k k' where
  grown : k.app.Extends k'.app

theorem prepared_trans (a b c : Scheduler) (h : a.Prepared b) (h' : b.Prepared c) : a.Prepared c :=
  ⟨⟨h'.scripts.trans h.scripts, h'.relations.trans h.relations,
    h'.accelerations.trans h.accelerations, h'.accelerators.trans h.accelerators⟩,
    App.extends_trans _ _ _ h.grown h'.grown⟩

theorem prepared_newOperation (s : Statement) : Keeps Prepared (adding (App.newOperation s)) :=
  fun k => ⟨⟨rfl, rfl, rfl, rfl⟩, App.extends_newOperation s k.app k.app (App.extends_refl k.app)⟩

theorem prepared_building (x : Drawing α) (hx : Draws x) :
    Keeps Prepared (modelling (App.building x)) := fun k =>
  ends_modelling k.Prepared _ k
    ⟨⟨rfl, rfl, rfl, rfl⟩, App.extends_building x hx k.app k.app (App.extends_refl k.app)⟩

/-- The relation that moves the clock is prepared, and then it is added under a number that was
    drawn for it. If it cannot be prepared, nothing is added. -/
theorem cases_of_makeAccelerator (script : ScriptId) (a : Acceleration) (k : Scheduler) :
    (∃ e k₀, k.Prepared k₀ ∧ (makeAccelerator script a).run k = (.error e, k₀))
      ∨ ∃ k₀ r, k.Prepared k₀ ∧ k.app.supply.next ≤ r.id ∧ r.id < k₀.app.supply.next
        ∧ (makeAccelerator script a).run k = (.ok r, { k₀ with
            app := ((App.addRelation r).run k₀.app).2
            accelerators := k₀.accelerators.insert script r }) := by
  -- A step keeps what is prepared whether it succeeds or fails, so the three steps are gone through
  -- with both outcomes.
  have hkept {β : Type} (x : Scheduling β) (hx : Keeps Prepared x) (k₁ k₂ : Scheduler)
      (e : Except AnalysisError β) (h : x.run k₁ = (e, k₂)) : k₁.Prepared k₂ := by
    have hk := hx k₁
    rwa [h] at hk
  unfold makeAccelerator
  have hop := prepared_newOperation (.store a.variant a.accelerateTo)
  rw [run_bind]
  rcases hstep : (adding (App.newOperation (.store a.variant a.accelerateTo))).run k with
    ⟨e | step, k₁⟩
  · exact Or.inl ⟨e, k₁, hkept _ hop k k₁ _ hstep, rfl⟩
  have h₁ := hkept _ hop k k₁ _ hstep
  have hline := prepared_building _ (Relation.draws_sequence [step.id])
  dsimp only
  rw [run_bind]
  rcases hgives : (modelling (App.building (Relation.sequence [step.id]))).run k₁ with
    ⟨e | line, k₂⟩
  · exact Or.inl ⟨e, k₂, prepared_trans k k₁ k₂ h₁ (hkept _ hline k₁ k₂ _ hgives), rfl⟩
  have h₂ := prepared_trans k k₁ k₂ h₁ (hkept _ hline k₁ k₂ _ hgives)
  have hplain := prepared_building _
    (Relation.draws_make (some line.name) line.toFlow.removeEpsilons)
  dsimp only
  rw [run_bind]
  rcases hmade : (modelling (App.building line.removeEpsilons)).run k₂ with ⟨e | plain, k₃⟩
  · exact Or.inl ⟨e, k₃, prepared_trans k k₂ k₃ h₂ (hkept _ hplain k₂ k₃ _ hmade), rfl⟩
  -- What is left cannot fail.
  have hid := App.id_of_gives_building_make _ _ _ _ plain (gives_modelling _ k₂ k₃ plain hmade)
  exact Or.inr ⟨k₃, plain.rename ("accelerate_" ++ scriptText script),
    prepared_trans k k₂ k₃ h₂ (hkept _ hplain k₂ k₃ _ hmade),
    Nat.le_trans h₂.grown.supply hid.1, hid.2, rfl⟩

theorem grows_makeAccelerator (script : ScriptId) (a : Acceleration) :
    Grows (makeAccelerator script a) := by
  intro k
  -- If something was added, its number was drawn in between, so it is new to the program and no
  -- more than was drawn.
  rcases cases_of_makeAccelerator script a k with ⟨e, k₀, h, hrun⟩ | ⟨k₀, r, h, hle, hlt, hrun⟩
  · rw [hrun]
    exact h.grown
  · rw [hrun]
    exact App.extends_addRelation r k.app k₀.app h.grown hle hlt

end Preparing

/-- Whatever the scheduler adds, the program only grows. -/
theorem additive_extends : Additive fun k k' => k.app.Extends k'.app where
  refl k := App.extends_refl k.app
  trans a b c := App.extends_trans a.app b.app c.app
  drawn k := App.extends_fresh k.app k.app (App.extends_refl k.app)
  asked owner condition := grows_modelling _ (App.extends_conditionScript owner condition)
  learned _ k' _ _ _ _ := App.extends_refl k'.app
  made k script a _ := grows_makeAccelerator script a k

/-- What survives additions to the program survives whatever the scheduler adds. -/
theorem additive_of_extends (P : App → Prop) (hP : ∀ a b : App, a.Extends b → P a → P b) :
    Additive fun k k' => P k.app → P k'.app where
  refl _ h := h
  trans _ _ _ h h' hP := h' (h hP)
  drawn k := hP _ _ (additive_extends.drawn k)
  asked owner condition k := hP _ _ (additive_extends.asked owner condition k)
  learned k k' owner scope script h := hP _ _ (additive_extends.learned k k' owner scope script h)
  made k script a h := hP _ _ (additive_extends.made k script a h)

theorem grows_lookUp (x : Except AnalysisError α) : Grows (liftM x) :=
  keeps_lookUp additive_extends.modest x

theorem grows_mapM (f : α → Scheduling β) (xs : List α) (hf : ∀ x ∈ xs, Grows (f x)) :
    Grows (xs.mapM f) :=
  keeps_mapM additive_extends.modest f xs hf

theorem grows_freshOperation (s : Statement) : Grows (liftM (freshOperation s)) :=
  keeps_freshOperation additive_extends.modest s

theorem grows_freshOperations (statements : List Statement) :
    Grows (statements.mapM fun s => (liftM (freshOperation s) : Scheduling Operation)) :=
  keeps_freshOperations additive_extends.modest statements

theorem grows_learnAcceleration (script : ScriptId) (a : Acceleration) :
    Grows (liftM (learnAcceleration script a)) := fun k => App.extends_refl k.app

theorem grows_initialThread (actor : Actor) (script : Script) :
    Grows (initialThread actor script) :=
  keeps_initialThread additive_extends.modest actor script

variable {σ : Type}

theorem grows_follow (s : ControlState σ) (index : Nat) (op : Operation) (target : Place) :
    Grows (follow s index op target) :=
  keeps_follow additive_extends s index op target

/-- The start of a program only adds to it. -/
theorem grows_startState (data : σ) : Grows (startState data) :=
  keeps_startState additive_extends.modest data

variable [DecidableEq σ]

theorem grows_complete (c : Control σ) (s : ControlState σ) (index : Nat) (t : Thread)
    (concern : Concern) (data : σ) : Grows (complete c s index t concern data) :=
  keeps_complete additive_extends.modest c s index t concern data

theorem grows_settle (c : Control σ) (index : Nat) (concern : Concern) (op : Operation)
    (outcome : ControlState.Outcome σ) : Grows (settle c index concern op outcome) :=
  keeps_settle additive_extends.modest c index concern op outcome

theorem grows_takeEdge (c : Control σ) (s : ControlState σ) (index : Nat) (concern : Concern)
    (edge : Operation × Place) : Grows (takeEdge c s index concern edge) :=
  keeps_takeEdge additive_extends c s index concern edge

/-- A step of a program only adds to it. -/
theorem grows_successors (c : Control σ) (s : ControlState σ) : Grows (successors c s) :=
  keeps_successors additive_extends c s

/-- The program after a step that succeeded. -/
theorem extends_of_gives (x : Scheduling α) (hx : Grows x) (k k' : Scheduler) (a : α)
    (h : Gives x k a k') : k.app.Extends k'.app :=
  related_of_gives (fun k k' => k.app.Extends k'.app) x hx k k' a h

/-- Every result of a map comes from a member, which starts with a program that
    extends the first one and stops with one that the last one extends. -/
theorem gives_mapM_extends (f : α → Scheduling β) (xs : List α) (hf : ∀ x ∈ xs, Grows (f x))
    (k k' : Scheduler) (ys : List β) (h : Gives (xs.mapM f) k ys k') (y : β) (hy : y ∈ ys) :
    ∃ x ∈ xs, ∃ k₁ k₂, k.app.Extends k₁.app ∧ Gives (f x) k₁ y k₂ ∧ k₂.app.Extends k'.app :=
  gives_mapM_mem (fun k k' : Scheduler => k.app.Extends k'.app) (fun k => App.extends_refl k.app)
    (fun a b c => App.extends_trans a.app b.app c.app) f xs (fun x hx k => hf x hx k) k k' ys h y hy

end Growing

end Scheduler

end ActorCheck

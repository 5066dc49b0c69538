import ActorCheck.Proofs.Control.Growth

/-!
# Sessions

What can come about when a program is explored. A session keeps the scheduler
and every state that was found with it. At any time it can be started, which
finds the state in which the program starts on some data, and any state that was
found can be expanded, which finds its successors. Nothing is said about the
order, so a session covers runs along a single path, searches of the state space
and anything in between, and a state may be expanded again with a program that
has grown since it was found.

A start or an expansion that fails finds nothing, but the scheduler it leaves
behind is the one that the session goes on with.

`invariant_of_explored` is the induction that every claim about reachable states
goes through. A property of states, seen from a program, has to survive additions
to the program, has to hold at the start, and has to be kept by a step. It then
holds of every state of a session, seen from the program of the session.

## Main definitions

* `Session`: A scheduler and the states found with it.
* `Session.Explored`: What can come about for a program and a data analysis.

## Theorems

* `Session.invariant_of_explored`: What every step keeps holds of every state.
-/

namespace ActorCheck

/-- A scheduler and the states that were found with it. -/
structure Session (σ : Type) where
  scheduler : Scheduler
  found : List (ControlState σ)

namespace Session

variable {σ : Type}

/-- The session in which nothing has happened. -/
def new (app : App) : Session σ := ⟨Scheduler.new app, []⟩

/-- Go on with a scheduler and with what was found, unless it is an error. -/
def extend (x : Session σ) (found : Except AnalysisError (List (ControlState σ)))
    (k : Scheduler) : Session σ :=
  match found with
  | .ok states => ⟨k, x.found ++ states⟩
  | .error _ => ⟨k, x.found⟩

/-- Find the state in which the program starts. -/
def start (x : Session σ) (data : σ) : Session σ :=
  let (found, k) := (Scheduler.startState data).run x.scheduler
  x.extend (found.map fun s => [s]) k

variable [DecidableEq σ]

/-- Find the successors of a state. -/
def expand (c : Control σ) (x : Session σ) (s : ControlState σ) : Session σ :=
  let (found, k) := (Scheduler.successors c s).run x.scheduler
  x.extend found k

/-- Find the successors of the state that was found last. -/
def expandLast (c : Control σ) (x : Session σ) : Session σ :=
  match x.found.getLast? with
  | some s => x.expand c s
  | none => x

/-- What can come about when a program is explored with a data analysis. -/
inductive Explored (c : Control σ) (app : App) : Session σ → Prop where
  | new : Explored c app (Session.new app)
  | start (x : Session σ) (data : σ) (h : Explored c app x) : Explored c app (x.start data)
  | expand (x : Session σ) (s : ControlState σ) (h : Explored c app x) (hs : s ∈ x.found) :
      Explored c app (x.expand c s)

theorem explored_of_expandLast (c : Control σ) (app : App) (x : Session σ)
    (h : Explored c app x) : Explored c app (x.expandLast c) := by
  unfold expandLast
  split
  next s hs => exact .expand x s h (List.mem_of_getLast? hs)
  next => exact h

omit [DecidableEq σ] in
theorem scheduler_extend (x : Session σ) (found : Except AnalysisError (List (ControlState σ)))
    (k : Scheduler) : (x.extend found k).scheduler = k := by
  cases found with
  | error e => rfl
  | ok states => rfl

omit [DecidableEq σ] in
theorem mem_found_extend (x : Session σ) (found : Except AnalysisError (List (ControlState σ)))
    (k : Scheduler) (s : ControlState σ) :
    s ∈ (x.extend found k).found ↔ s ∈ x.found ∨ ∃ states, found = .ok states ∧ s ∈ states := by
  cases found with
  -- An error adds nothing to what was found.
  | error e => exact (or_iff_left nofun).symm
  | ok states =>
      refine List.mem_append.trans (or_congr_right ⟨fun hs => ⟨states, rfl, hs⟩, ?_⟩)
      rintro ⟨_, heq, hs⟩
      cases heq
      exact hs

omit [DecidableEq σ] in
theorem start_eq (x : Session σ) (data : σ) : x.start data
    = x.extend (((Scheduler.startState data).run x.scheduler).1.map fun s => [s])
      ((Scheduler.startState data).run x.scheduler).2 := rfl

theorem expand_eq (c : Control σ) (x : Session σ) (s : ControlState σ) : x.expand c s
    = x.extend ((Scheduler.successors c s).run x.scheduler).1
      ((Scheduler.successors c s).run x.scheduler).2 := rfl

/-- The program of a session extends the one it began with. -/
theorem extends_of_explored (c : Control σ) (app : App) (x : Session σ) (h : Explored c app x) :
    app.Extends x.scheduler.app := by
  -- By induction on the session. Each call of the scheduler only adds to the program, even if it
  -- fails.
  induction h with
  | new => exact App.extends_refl app
  | start x data _ ih =>
      refine App.extends_trans _ _ _ ih ?_
      rw [start_eq, scheduler_extend]
      exact Scheduler.grows_startState data x.scheduler
  | expand x s _ _ ih =>
      refine App.extends_trans _ _ _ ih ?_
      rw [expand_eq, scheduler_extend]
      exact Scheduler.grows_successors c s x.scheduler

/-- A property of states that survives additions to the program, holds at the
    start and is kept by every step holds of every state that was found. -/
theorem invariant_of_explored (c : Control σ) (app : App) (J : App → ControlState σ → Prop)
    (hmono : ∀ (a b : App) (s : ControlState σ), app.Extends a → a.Extends b → J a s → J b s)
    (hstart : ∀ (k k' : Scheduler) (data : σ) (s : ControlState σ), app.Extends k.app →
      Gives (Scheduler.startState data) k s k' → J k'.app s)
    (hstep : ∀ (k k' : Scheduler) (s : ControlState σ) (next : List (ControlState σ)),
      app.Extends k.app → J k.app s → Gives (Scheduler.successors c s) k next k' →
      ∀ s' ∈ next, J k'.app s')
    (x : Session σ) (h : Explored c app x) : ∀ s ∈ x.found, J x.scheduler.app s := by
  -- By induction on the session. What a call has found is new, and everything else was found before
  -- it.
  induction h with
  | new =>
      intro s hs
      cases hs
  | start x data hx ih =>
      have hext := extends_of_explored c app x hx
      intro s hs
      rw [start_eq] at hs ⊢
      rw [scheduler_extend]
      rcases (mem_found_extend _ _ _ _).mp hs with hs | ⟨states, hfound, hs⟩
      -- What was found before stays, and the program has only grown.
      · exact hmono _ _ s hext (Scheduler.grows_startState data x.scheduler) (ih s hs)
      · rcases hrun : ((Scheduler.startState data).run x.scheduler).1 with e | s₀
        · rw [hrun] at hfound
          cases hfound
        · rw [hrun] at hfound
          cases hfound
          rw [List.mem_singleton.mp hs]
          exact hstart x.scheduler _ data s₀ hext (Prod.ext hrun rfl)
  | expand x s₀ hx hs₀ ih =>
      have hext := extends_of_explored c app x hx
      intro s hs
      rw [expand_eq] at hs ⊢
      rw [scheduler_extend]
      rcases (mem_found_extend _ _ _ _).mp hs with hs | ⟨next, hfound, hs⟩
      · exact hmono _ _ s hext (Scheduler.grows_successors c s₀ x.scheduler) (ih s hs)
      · exact hstep x.scheduler _ s₀ next hext (ih s₀ hs₀) (Prod.ext hfound rfl) s hs

end Session

end ActorCheck

import ActorCheck.Proofs.Refine.Feasibility

/-!
# No Trace of Earlier Calls

Whatever refinement was asked before, and whatever came of it, the solver is found with the
assertions and scopes that it began with, and with references for the interpolants that are kept.
Every call takes and returns in pairs, on every path out of it, so no history of calls can leave
anything else behind.

This is true of a solver that fails at any time, as long as scopes can be closed and references
given back. `Unreliable` turns a solver into such a one: a plan, which is part of its state, says
of each of the calls to come whether it fails. All that is seen of it is seen of the solver inside,
so it is tracked like that one.

The interval solver decides on the assertions and scopes alone. Its memory of the last verdict is
cleared when the scope of a trace is opened, and references do not count. So the same trace gets
the same verdict and the same interpolants after any two histories.

## Main definitions

* `Unreliable`: A solver some of whose calls fail.
* `IntervalSolver.Alike`: Solvers that differ in the references they hold only.
* `Refinement.answer`: What a check answers and keeps, once its trace is solved.

## Theorems

* `Unreliable.tracked`: Failures do not hide what is seen of a solver.
* `Refinement.solve_congr`: What solving a trace depends on.
* `Refinement.answer_of_checkFeasible`: A check depends on its trace alone.
* `Refinement.forgets_history`: Nothing is left of earlier calls but what is kept.
-/

namespace ActorCheck

/-- A solver some of whose calls fail. -/
structure Unreliable (σ : Type) where
  solver : σ
  /-- Whether each of the calls to come fails. -/
  plan : List Bool

namespace Unreliable

variable {σ ε α : Type}

/-- A call that is passed on to the solver. -/
def passOn (x : SolverCall σ ε α) : SolverCall (Unreliable σ) (Option ε) α := do
  let s ← get
  let (outcome, solver) := x.run s.solver
  set { s with solver := solver }
  match outcome with
  | .ok a => return a
  | .error e => throw (some e)

/-- A call that is passed on to the solver, unless it is planned to fail. -/
def risk (x : SolverCall σ ε α) : SolverCall (Unreliable σ) (Option ε) α := do
  let s ← get
  set { s with plan := s.plan.tail }
  if s.plan.head?.getD false then throw none
  passOn x

instance [Solver σ ε] : Solver (Unreliable σ) (Option ε) where
  push := risk Solver.push
  pop := passOn Solver.pop
  assert t := risk (Solver.assert t)
  retain t := risk (Solver.retain t)
  release t := passOn (Solver.release t)
  check := risk Solver.check
  interpolants := risk Solver.interpolants
  message
    | none => "the call failed"
    | some e => Solver.message σ e

theorem run_passOn (x : SolverCall σ ε α) (s : Unreliable σ) : (passOn x).run s
    = match x.run s.solver with
      | (.ok a, solver) => (.ok a, { s with solver := solver })
      | (.error e, solver) => (.error (some e), { s with solver := solver }) := by
  -- All that is used of the call is what it does to the solver inside.
  have hcall : (passOn x).run s = (passOn (ExceptT.mk fun _ => x.run s.solver)).run s := rfl
  rw [hcall]
  rcases x.run s.solver with ⟨_ | _, _⟩
  · rfl
  · rfl

theorem run_risk (x : SolverCall σ ε α) (s : Unreliable σ) : (risk x).run s
    = if s.plan.head?.getD false then (.error none, { s with plan := s.plan.tail })
      else (passOn x).run { s with plan := s.plan.tail } := by
  change (if s.plan.head?.getD false then throw none else passOn x :
    SolverCall (Unreliable σ) (Option ε) α).run { s with plan := s.plan.tail } = _
  split
  next => rfl
  next => rfl

section Effects

variable (view : σ → SolverView) (x : SolverCall σ ε α) (f : SolverView → SolverView)
  (hx : Solver.HasEffect view x f)

include hx

/-- A call that is passed on has its effect. -/
theorem effect_passOn : Solver.HasEffect (fun s => view s.solver) (passOn x) f := by
  refine ⟨fun s a s' h => ?_, fun s e s' h => ?_⟩
  · rw [run_passOn] at h
    rcases hrun : x.run s.solver with ⟨_ | b, solver⟩
    · rw [hrun] at h
      cases h
    · rw [hrun] at h
      cases h
      exact hx.ok s.solver a solver hrun
  · rw [run_passOn] at h
    rcases hrun : x.run s.solver with ⟨e' | b, solver⟩
    · rw [hrun] at h
      cases h
      exact hx.error s.solver e' solver hrun
    · rw [hrun] at h
      cases h

/-- A call that may fail has its effect if it does not. -/
theorem effect_risk : Solver.HasEffect (fun s => view s.solver) (risk x) f := by
  -- A call that fails as planned does not reach the solver, and the plan is not seen.
  have hpassed := effect_passOn view x f hx
  refine ⟨fun s a s' h => ?_, fun s e s' h => ?_⟩
  · rw [run_risk] at h
    split at h
    next => cases h
    next => exact hpassed.ok { s with plan := s.plan.tail } a s' h
  · rw [run_risk] at h
    split at h
    next =>
      cases h
      rfl
    next => exact hpassed.error { s with plan := s.plan.tail } e s' h

end Effects

/-- Failures do not hide what is seen of a solver. -/
theorem tracked [Solver σ ε] (view : σ → SolverView) (hview : Solver.Tracked view) :
    Solver.Tracked fun s : Unreliable σ => view s.solver where
  push := effect_risk view _ _ hview.push
  pop := effect_passOn view _ _ hview.pop
  assert t := effect_risk view _ _ (hview.assert t)
  retain t := effect_risk view _ _ (hview.retain t)
  release t := effect_passOn view _ _ (hview.release t)
  check := effect_risk view _ _ hview.check
  interpolants := effect_risk view _ _ hview.interpolants
  closes s h := by
    rcases hview.closes s.solver h with ⟨solver, hsolver⟩
    have hrun : (Solver.pop : SolverCall σ ε Unit).run s.solver = (.ok (), solver) := hsolver
    refine ⟨{ s with solver := solver }, ?_⟩
    change (passOn Solver.pop).run s = _
    rw [run_passOn, hrun]
  givesBack s t h := by
    rcases hview.givesBack s.solver t h with ⟨solver, hsolver⟩
    have hrun : (Solver.release t : SolverCall σ ε Unit).run s.solver = (.ok (), solver) := hsolver
    refine ⟨{ s with solver := solver }, ?_⟩
    change (passOn (Solver.release t)).run s = _
    rw [run_passOn, hrun]

end Unreliable

namespace IntervalSolver

/-- Solvers that differ in the references they hold only. -/
structure Alike (s u : IntervalSolver) : Prop where
  assertions : s.assertions = u.assertions
  scopes : s.scopes = u.scopes
  lastCheck : s.lastCheck = u.lastCheck

/-- The call answers the same to solvers that are alike, and leaves them alike. -/
def Blind {α : Type} (x : Call α) : Prop :=
  ∀ s u : IntervalSolver, s.Alike u → (x.run s).1 = (x.run u).1 ∧ (x.run s).2.Alike (x.run u).2

theorem blind_assert (t : Term) : Blind (assert t) := by
  intro s u h
  rw [run_assert, run_assert]
  -- Whether a formula is accepted is a matter of the formula alone.
  cases literalsOf true t with
  | error e => exact ⟨rfl, h⟩
  | ok _ => exact ⟨rfl, congrArg (· ++ [t]) h.assertions, h.scopes, rfl⟩

theorem blind_check : Blind check := by
  intro s u h
  have hverdict : s.verdict = u.verdict := by
    unfold verdict
    rw [h.assertions]
  rw [run_check, run_check, hverdict]
  cases u.verdict with
  | error e => exact ⟨rfl, h⟩
  | ok v => exact ⟨rfl, h.assertions, h.scopes, rfl⟩

theorem blind_interpolants : Blind interpolants := by
  intro s u h
  have hscope : s.scopeInterpolants = u.scopeInterpolants := by
    unfold scopeInterpolants
    rw [h.assertions, h.scopes]
  rw [run_interpolants, run_interpolants, h.lastCheck, hscope]
  exact ⟨rfl, h⟩

end IntervalSolver

namespace Refinement

section Solving

/-- A step answers the same whenever the solvers are alike, and leaves them alike. -/
def Blind {α : Type} (x : Step IntervalSolver α) : Prop :=
  ∀ r r' : Refinement IntervalSolver, r.solver.Alike r'.solver →
    (x.run r).1 = (x.run r').1 ∧ (x.run r).2.solver.Alike (x.run r').2.solver

theorem blind_onSolver {α : Type} (x : SolverCall IntervalSolver IntervalError α)
    (hx : IntervalSolver.Blind x) : Blind (onSolver x) := by
  intro r r' h
  rcases hx r.solver r'.solver h with ⟨houtcome, hsolver⟩
  rw [run_onSolver, run_onSolver]
  rcases hrun : x.run r.solver with ⟨outcome, s⟩
  rcases hrun' : x.run r'.solver with ⟨outcome', s'⟩
  rw [hrun, hrun'] at houtcome hsolver
  cases houtcome
  cases outcome with
  | error e => exact ⟨rfl, hsolver⟩
  | ok a => exact ⟨rfl, hsolver⟩

theorem blind_bind {α β : Type} (x : Step IntervalSolver α) (f : α → Step IntervalSolver β)
    (hx : Blind x) (hf : ∀ a, Blind (f a)) : Blind (x >>= f) := by
  intro r r' h
  rcases hx r r' h with ⟨houtcome, hsolver⟩
  rw [run_bind, run_bind]
  rcases hrun : x.run r with ⟨outcome, s⟩
  rcases hrun' : x.run r' with ⟨outcome', s'⟩
  rw [hrun, hrun'] at houtcome hsolver
  cases houtcome
  cases outcome with
  | error e => exact ⟨rfl, hsolver⟩
  | ok a => exact hf a s s' hsolver

theorem blind_pure {α : Type} (a : α) : Blind (pure a) := fun _ _ h => ⟨rfl, h⟩

theorem blind_throw {α : Type} (e : AnalysisError) : Blind (throw e : Step IntervalSolver α) :=
  fun _ _ h => ⟨rfl, h⟩

theorem blind_assertAll (ts : List Term) : Blind (assertAll ts) := by
  induction ts with
  | nil => exact blind_pure ()
  | cons t ts ih =>
      exact blind_bind _ _ (blind_onSolver _ (IntervalSolver.blind_assert t)) fun _ => ih

theorem blind_judge (trace : List Term) : Blind (judge trace) := by
  refine blind_bind _ _ (blind_assertAll trace) fun _ => ?_
  refine blind_bind _ _ (blind_onSolver _ IntervalSolver.blind_check) fun verdict => ?_
  -- Each continuation depends on the verdict and on what is asserted, and neither depends on
  -- references.
  cases verdict with
  | sat => exact blind_pure none
  | unsat =>
      exact blind_bind _ _ (blind_onSolver _ IntervalSolver.blind_interpolants) fun is =>
        blind_pure (some is)
  | unknown reason => exact blind_throw _

/-- What solving a trace yields depends on the assertions and scopes alone. -/
theorem solve_congr (r r' : Refinement IntervalSolver) (trace : List Term)
    (hassertions : r.solver.assertions = r'.solver.assertions)
    (hscopes : r.solver.scopes = r'.solver.scopes) :
    ((solve trace).run r).1 = ((solve trace).run r').1 := by
  -- Solving opens a scope, judges the trace in it, and closes it again. What is answered is what
  -- the judgement answers.
  have hjudged (r : Refinement IntervalSolver) : ∃ r₁ : Refinement IntervalSolver,
      ((solve trace).run r).1 = ((judge trace).run r₁).1
        ∧ r₁.solver = { r.solver with
          scopes := r.solver.assertions.length :: r.solver.scopes
          lastCheck := none } := by
    rcases run_solve_of_push IntervalSolver.view IntervalSolver.tracked r trace _ (List.Perm.refl _)
      { r with solver := { r.solver with
        scopes := r.solver.assertions.length :: r.solver.scopes
        lastCheck := none } } rfl rfl rfl with ⟨r₂, hrun, _⟩
    exact ⟨_, by rw [hrun], rfl⟩
  rcases hjudged r with ⟨r₁, hrun, hsolver⟩
  rcases hjudged r' with ⟨r₁', hrun', hsolver'⟩
  rw [hrun, hrun']
  -- Opening the scope makes the solver forget its last verdict.
  refine (blind_judge trace r₁ r₁' ?_).1
  rw [hsolver, hsolver']
  exact ⟨hassertions, by rw [hassertions, hscopes], rfl⟩

end Solving

/-- What a check answers and keeps, once its trace is solved. -/
def answer (target : StateId) :
    Except AnalysisError (Option (List Term)) → Except AnalysisError Bool × Option Solution
  | .error e => (.error e, none)
  | .ok none => (.ok true, none)
  | .ok (some []) => (.error (.contract (.noInterpolants target)), none)
  | .ok (some (i :: is)) => (.ok false, some ⟨target, i :: is⟩)

section History

variable (start r : Refinement IntervalSolver) (hr : Balanced IntervalSolver.view start r)
  (a : Accessibility) (target : StateId)

include hr

/-- A trace is solved as in the beginning, and its interpolants are kept. -/
theorem answer_of_examine (trace : List Term) (hnone : r.solution = none) :
    (((examine target trace).run r).1, ((examine target trace).run r).2.solution)
      = answer target ((solve trace).run start).1 := by
  rcases examine_cases IntervalSolver.view IntervalSolver.tracked start r target trace
      (hr.references_of_none _ start r hnone) with
    ⟨e, r', -, ⟨r₁, hretain⟩, -⟩ | ⟨r₁, r', h₁, hr', hrun⟩
  · exact absurd hretain (retainAll_ne_error r [] trace e r₁)
  -- Taking references has changed neither the assertions nor the scopes.
  have hnone' : r'.solution = none := by rw [hr'.rest, hnone]
  rw [hrun, solve_congr start r₁ trace (h₁.assertions.trans hr.assertions).symm
    (h₁.marks.trans hr.marks).symm]
  -- The outcomes are an error, feasibility, and infeasibility with interpolants, of which there may
  -- be none.
  rcases ((solve trace).run r₁).1 with e | _ | is
  · exact Prod.ext rfl hnone'
  · exact Prod.ext rfl hnone'
  · change (((keepSolution target is >>= fun _ => pure false : Step IntervalSolver Bool).run r').1,
      ((keepSolution target is >>= fun _ => pure false :
        Step IntervalSolver Bool).run r').2.solution)
      = _
    rw [run_bind]
    -- The interval solver never refuses a reference, so they are kept unless there is nothing to
    -- keep.
    rcases keepSolution_cases IntervalSolver.view IntervalSolver.tracked start r' target is
        hr'.references with
      ⟨rfl, hkeep⟩ | ⟨e, r₂, -, ⟨r₃, hretain⟩, -⟩ | ⟨r₂, hkeep, hne, -⟩
    · rw [hkeep]
      exact Prod.ext rfl hnone'
    · exact absurd hretain (retainAll_ne_error r' [] is e r₃)
    · rw [hkeep]
      rcases is with _ | ⟨i, is⟩
      · exact absurd rfl hne
      · rfl

/-- A check without diagnosis answers and keeps what it would in the beginning. -/
theorem answer_of_checkFeasible (hdump : start.config.dumpPathFormula = false) :
    (((checkFeasible a target).run r).1, ((checkFeasible a target).run r).2.solution)
      = match traceTo a target with
        | .error e => (.error e, none)
        | .ok trace => answer target ((solve trace).run start).1 := by
  rcases begun_of_checkFeasible IntervalSolver.view IntervalSolver.tracked start r a target hr with
    ⟨r₁, hbegun, hnone, hrun⟩
  rw [hrun, run_inspect]
  rcases traceTo a target with e | trace
  · exact Prod.ext rfl hnone
  · have hoff : r₁.config.dumpPathFormula ≠ true := by
      rw [hbegun.config]
      exact Bool.eq_false_iff.mp hdump
    dsimp only
    rw [run_dump, if_neg hoff]
    exact answer_of_examine start r₁ hbegun target trace hnone

end History

/-- Nothing is left of earlier calls but what is kept. After any calls, the assertions and scopes
    of a solver are as in the beginning, and besides the references held then there are those to
    the interpolants that are kept. This holds of an interval solver too, whichever of its calls
    fail. If none of them does and no diagnosis is wanted, a check answers and keeps the same after
    any two histories. -/
theorem forgets_history :
    (∀ {σ ε : Type} [Solver σ ε] (view : σ → SolverView), Solver.Tracked view →
      ∀ (solver : σ) (config : RefinerConfig) (writable : Bool) (requests : List Request),
        let r := performAll (initial solver config writable) requests
        (view r.solver).assertions = (view solver).assertions
          ∧ (view r.solver).marks = (view solver).marks
          ∧ (view r.solver).references.Perm (r.cached ++ (view solver).references))
    ∧ (∀ (plan : List Bool) (config : RefinerConfig) (writable : Bool) (requests : List Request),
        let r := performAll (initial (⟨IntervalSolver.initial, plan⟩ : Unreliable IntervalSolver)
          config writable) requests
        r.solver.solver.assertions = [] ∧ r.solver.solver.scopes = []
          ∧ r.solver.solver.references.Perm r.cached)
    ∧ ∀ (solver : IntervalSolver) (config : RefinerConfig), config.dumpPathFormula = false →
        ∀ (writable : Bool) (before before' : List Request) (a : Accessibility) (target : StateId),
          let start := initial solver config writable
          let checked := (checkFeasible a target).run (performAll start before)
          let checked' := (checkFeasible a target).run (performAll start before')
          checked.1 = checked'.1 ∧ checked.2.solution = checked'.2.solution := by
  have hbalance {σ ε : Type} [Solver σ ε] (view : σ → SolverView) (hview : Solver.Tracked view)
      (solver : σ) (config : RefinerConfig) (writable : Bool) (requests : List Request) :
      Balanced view (initial solver config writable)
        (performAll (initial solver config writable) requests) :=
    balanced_performAll view hview _ _ ⟨rfl, rfl, rfl, .refl _⟩ requests
  refine ⟨?_, ?_, ?_⟩
  · intro σ ε _ view hview solver config writable requests
    have hr := hbalance view hview solver config writable requests
    exact ⟨hr.assertions, hr.marks, hr.references⟩
  · intro plan config writable requests
    have hr := hbalance _ (Unreliable.tracked IntervalSolver.view IntervalSolver.tracked)
      (⟨IntervalSolver.initial, plan⟩ : Unreliable IntervalSolver) config writable requests
    refine ⟨hr.assertions, hr.marks, ?_⟩
    -- A new solver holds no references.
    rw [← List.append_nil (cached _)]
    exact hr.references
  · intro solver config hdump writable before before' a target
    have hr := hbalance IntervalSolver.view IntervalSolver.tracked solver config writable
    have hsame := (answer_of_checkFeasible _ _ (hr before) a target hdump).trans
      (answer_of_checkFeasible _ _ (hr before') a target hdump).symm
    exact Prod.mk.inj hsame

/-- A check of the clash keeps an interpolant with a reference to it. If the second reference is
    refused, none is left. A refused block, another check and a refinement for a wrong target make
    no difference to a check of the clash. -/
theorem forgets_history_clash :
    (∃ r, r = performAll (initial IntervalSolver.initial .default true)
        [.check clash.accessibility 1] ∧ r.cached ≠ [] ∧ r.solver.references.Perm r.cached)
    ∧ (∃ r, r = performAll (initial (⟨IntervalSolver.initial, [false, true]⟩ :
        Unreliable IntervalSolver) .default true) [.check clash.accessibility 1]
      ∧ r.solver.solver.references = [])
    ∧ ((checkFeasible clash.accessibility 1).run
        (performAll (initial IntervalSolver.initial .default true) [.check lone.accessibility 0,
          .check clash.accessibility 1, .refine clash.accessibility 0])).1 = .ok false := by
  refine ⟨⟨_, rfl, by decide +kernel, ?_⟩, ⟨_, rfl, ?_⟩, ?_⟩
  · generalize hr : performAll (initial IntervalSolver.initial .default true)
      [.check clash.accessibility 1] = r
    have hheld : (IntervalSolver.view r.solver).references.Perm (r.cached ++ []) := by
      rw [← hr]
      exact (forgets_history.1 IntervalSolver.view IntervalSolver.tracked IntervalSolver.initial
        .default true [.check clash.accessibility 1]).2.2
    rw [List.append_nil] at hheld
    exact hheld
  · have hheld := (forgets_history.2.1 [false, true] .default true
      [.check clash.accessibility 1]).2.2
    rw [show (performAll (initial (⟨IntervalSolver.initial, [false, true]⟩ :
        Unreliable IntervalSolver) .default true) [.check clash.accessibility 1]).cached = [] by
      decide +kernel] at hheld
    exact hheld.eq_nil
  · rw [(forgets_history.2.2 IntervalSolver.initial .default rfl true _ [] clash.accessibility 1).1]
    decide +kernel

end Refinement

end ActorCheck

import ActorCheck.Proofs.Outcome
import ActorCheck.Refine.Refinement

/-!
# Scopes and References in Balance

Between its calls, refinement leaves a solver with the assertions and scopes that it
began with. The references it holds are those of the interpolants it keeps for the next
call, and no others.

This is proved for any solver that lets its client see what it does: each call has its
effect on the assertions, the marks of open scopes and the outstanding references if it
succeeds, and none if it fails; an open scope can be closed, and a reference that is held
can be given back. Any other call may fail at any time.

The steps of refinement that only talk to the solver change nothing else. `Holding` says
so, together with the references that are held afterwards. Taking references either takes
all or gives back what it took, closing a scope drops all that was asserted in it, and as
all references were held, giving them back succeeds.

## Main definitions

* `SolverView`: What a client sees of a solver.
* `Solver.Tracked`: Calls have their effects on what is seen of a solver.
* `Refinement.Holding`: A step has changed the solver only, and some references are held.
* `Refinement.Balanced`: Scopes as in the beginning, and references for what is kept.
* `Refinement.inspect`: The part of a check that is about its target.
* `Refinement.performAll`: The state after a sequence of calls.

## Theorems

* `Refinement.retainAll_cases`: Taking all references or none.
* `Refinement.run_releaseAll`: Giving references back that are held.
* `Refinement.holding_solve`: Solving a trace leaves nothing of itself behind.
* `Refinement.begun_of_checkFeasible`: A check comes to its target with nothing kept.
* `Refinement.balanced_checkFeasible`, `Refinement.balanced_refine`: Every call keeps the
  balance.
* `Refinement.balanced_performAll`: There is balance after any sequence of calls.
-/

namespace ActorCheck

/-- What a client sees of a solver: the assertions, the numbers of assertions at which open
    scopes begin, and the outstanding references. -/
structure SolverView where
  assertions : List Term
  marks : List Nat
  references : List Term

namespace SolverView

def push (v : SolverView) : SolverView := { v with marks := v.assertions.length :: v.marks }

def pop (v : SolverView) : SolverView :=
  match v.marks with
  | [] => v
  | start :: marks => { v with assertions := v.assertions.take start, marks := marks }

def assert (t : Term) (v : SolverView) : SolverView :=
  { v with assertions := v.assertions ++ [t] }

def retain (t : Term) (v : SolverView) : SolverView :=
  { v with references := t :: v.references }

def release (t : Term) (v : SolverView) : SolverView :=
  { v with references := v.references.erase t }

end SolverView

namespace Solver

variable {σ ε : Type}

/-- A call changes what is seen in one way if it succeeds, and not at all if it fails. -/
structure HasEffect {α : Type} (view : σ → SolverView) (x : SolverCall σ ε α)
    (f : SolverView → SolverView) : Prop where
  ok : ∀ s a s', x.run s = (.ok a, s') → view s' = f (view s)
  error : ∀ s e s', x.run s = (.error e, s') → view s' = view s

/-- The calls of a solver have their effects on what is seen of it. Open scopes can be closed
    and references that are held can be given back. -/
structure Tracked [Solver σ ε] (view : σ → SolverView) : Prop where
  push : HasEffect view (Solver.push : SolverCall σ ε Unit) SolverView.push
  pop : HasEffect view (Solver.pop : SolverCall σ ε Unit) SolverView.pop
  assert (t : Term) : HasEffect view (Solver.assert t : SolverCall σ ε Unit) (SolverView.assert t)
  retain (t : Term) : HasEffect view (Solver.retain t : SolverCall σ ε Unit) (SolverView.retain t)
  release (t : Term) :
    HasEffect view (Solver.release t : SolverCall σ ε Unit) (SolverView.release t)
  check : HasEffect view (Solver.check : SolverCall σ ε Verdict) id
  interpolants : HasEffect view (Solver.interpolants : SolverCall σ ε (List Term)) id
  closes : ∀ s, (view s).marks ≠ [] → ∃ s', Gives (Solver.pop : SolverCall σ ε Unit) s () s'
  givesBack : ∀ s t, t ∈ (view s).references →
    ∃ s', Gives (Solver.release t : SolverCall σ ε Unit) s () s'

end Solver

namespace Refinement

variable {σ ε : Type} [Solver σ ε]

section Runs

variable {α : Type} (r : Refinement σ)

theorem run_onSolver (x : SolverCall σ ε α) : (onSolver x).run r
    = match x.run r.solver with
      | (.ok a, s) => (.ok a, { r with solver := s })
      | (.error e, s) => (.error (.solver (Solver.message σ e)), { r with solver := s }) := by
  -- Of the call, only what it does to the solver at hand counts.
  have hcall : (onSolver x).run r = (onSolver (ExceptT.mk fun _ => x.run r.solver)).run r := rfl
  rw [hcall]
  rcases x.run r.solver with ⟨_ | _, _⟩
  · rfl
  · rfl

/-- What follows an attempt sees its outcome and goes on where it ended. -/
theorem run_attempt_bind {β : Type} (x : Step σ α) (f : Except AnalysisError α → Step σ β) :
    (attempt x >>= f).run r = (f (x.run r).1).run (x.run r).2 := by
  rw [run_bind]
  rfl

end Runs

section Phases

variable (r : Refinement σ)

theorem run_dump (trace : List Term) : (dump trace).run r
    = if r.config.dumpPathFormula then
        if r.diagnostics.writable then
          (.ok (), { r with diagnostics := { r.diagnostics with
            files := r.diagnostics.files ++ [(dumpName r.checks, Term.script trace)] } })
        else (.error .io, r)
      else (.ok (), r) := by
  change (if r.config.dumpPathFormula then
      if r.diagnostics.writable then
        set { r with diagnostics := { r.diagnostics with
          files := r.diagnostics.files ++ [(dumpName r.checks, Term.script trace)] } }
      else throw .io
    else pure () : Step σ Unit).run r = _
  split
  next =>
    split
    next => rfl
    next => rfl
  next => rfl

/-- Diagnosis does not touch the solver or what is kept. -/
theorem dump_cases (trace : List Term) :
    (∃ d, (dump trace).run r = (.ok (), { r with diagnostics := d }))
      ∨ (dump trace).run r = (.error .io, r) := by
  rw [run_dump]
  split
  next =>
    split
    next => exact Or.inl ⟨_, rfl⟩
    next => exact Or.inr rfl
  next => exact Or.inl ⟨r.diagnostics, rfl⟩

theorem run_learn (a : Accessibility) (solution : Solution) (target : StateId) :
    (learn a solution target).run r
      = if solution.target ≠ target then
          (.error (.contract (.mismatchedTarget solution.target target)), r)
        else if r.config.useLazyAbstraction then (.error (.unsupported .lazyAbstraction), r)
        else (.ok (), { r with
          precision := r.precision.join (Precision.ofTerms solution.interpolants .intermediate)
          exploration := restart a r.exploration }) := by
  -- The target is checked before lazy abstraction, so with both against it the error is that of the
  -- target.
  by_cases htarget : solution.target ≠ target
  · rw [if_pos htarget, learn, if_pos htarget]
    rfl
  · rw [if_neg htarget, learn, if_neg htarget, run_bind]
    change (if r.config.useLazyAbstraction = true then _ else _ : Step σ Unit).run r = _
    by_cases hlazy : r.config.useLazyAbstraction = true
    · rw [if_pos hlazy, if_pos hlazy]
      rfl
    · rw [if_neg hlazy, if_neg hlazy]
      rfl

/-- Learning leaves alone what has to do with the solver. -/
theorem rest_of_learn (a : Accessibility) (solution : Solution) (target : StateId) :
    ((learn a solution target).run r).2.solver = r.solver
      ∧ ((learn a solution target).run r).2.solution = r.solution
      ∧ ((learn a solution target).run r).2.config = r.config := by
  rw [run_learn]
  split
  next => exact ⟨rfl, rfl, rfl⟩
  next =>
    split
    next => exact ⟨rfl, rfl, rfl⟩
    next => exact ⟨rfl, rfl, rfl⟩

/-- The part of a check that uses the solver: the trace is held while it is solved, and the
    interpolants of an infeasible one are kept. -/
def examine (target : StateId) (trace : List Term) : Step σ Bool := do
  retainAll [] trace
  let outcome ← attempt (solve trace)
  let released ← attempt (releaseAll trace)
  let found ← outcome
  let _ ← released
  match found with
  | none => return true
  | some interpolants => do
    keepSolution target interpolants
    return false

/-- The part of a check that is about its target. -/
def inspect (a : Accessibility) (target : StateId) : Step σ Bool := do
  let trace ← traceTo a target
  dump trace
  examine target trace

theorem run_inspect (a : Accessibility) (target : StateId) : (inspect a target).run r
    = match traceTo a target with
      | .error e => (.error e, r)
      | .ok trace => match (dump trace).run r with
        | (.ok _, r') => (examine target trace).run r'
        | (.error e, r') => (.error e, r') := by
  unfold inspect
  rcases traceTo a target with e | trace
  · rfl
  · change (dump trace >>= fun _ => examine target trace : Step σ Bool).run r = _
    rw [run_bind]
    dsimp only
    -- Either the diagnosis fails and the trace is not examined, or it is examined after it.
    rcases (dump trace).run r with ⟨_ | _, _⟩
    · rfl
    · rfl

theorem checkFeasible_eq (a : Accessibility) (target : StateId) :
    (checkFeasible a target : Step σ Bool)
    = (do
      dropSolution
      modify fun r => { r with checks := r.checks + 1 }
      inspect a target) := rfl

/-- What refinement does with interpolants that are no longer kept. -/
def consume (a : Accessibility) (solution : Solution) (target : StateId) : Step σ Unit := do
  let applied ← attempt (learn a solution target)
  let released ← attempt (releaseAll solution.interpolants)
  let _ ← applied
  released

theorem run_refine (a : Accessibility) (target : StateId) : (refine a target).run r
    = match r.solution with
      | none => (.error (.contract .missingInterpolationSolution), r)
      | some solution => (consume a solution target).run { r with solution := none } := by
  change (match r.solution with
    | none => throw (.contract .missingInterpolationSolution)
    | some solution => do
      set { r with solution := none }
      consume a solution target : Step σ Unit).run r = _
  rcases r.solution with _ | solution
  · rfl
  · rfl

end Phases

/-- A step has changed the solver only. The scopes are as they were, and references to some
    terms are outstanding. -/
structure Holding (view : σ → SolverView) (r : Refinement σ) (refs : List Term)
    (r' : Refinement σ) : Prop where
  rest : r' = { r with solver := r'.solver }
  assertions : (view r'.solver).assertions = (view r.solver).assertions
  marks : (view r'.solver).marks = (view r.solver).marks
  references : (view r'.solver).references.Perm refs

section Steps

variable (view : σ → SolverView) (hview : Solver.Tracked view) (r : Refinement σ)

theorem Holding.start (refs : List Term) (h : (view r.solver).references.Perm refs) :
    Holding view r refs r := ⟨rfl, rfl, rfl, h⟩

theorem Holding.trans (r₁ r₂ : Refinement σ) (refs refs' : List Term)
    (h : Holding view r refs r₁) (h' : Holding view r₁ refs' r₂) : Holding view r refs' r₂ := by
  refine ⟨?_, h'.assertions.trans h.assertions, h'.marks.trans h.marks, h'.references⟩
  -- Two changes of the solver, of which the later one counts.
  rw [h'.rest, h.rest]

/-- A call changes the solver only, and what is seen of it by its effect if it succeeds. -/
theorem onSolver_cases {α : Type} (x : SolverCall σ ε α) (f : SolverView → SolverView)
    (hx : Solver.HasEffect view x f) :
    (∃ a r', (onSolver x).run r = (.ok a, r') ∧ r' = { r with solver := r'.solver }
        ∧ view r'.solver = f (view r.solver))
      ∨ ∃ e r', (onSolver x).run r = (.error e, r') ∧ r' = { r with solver := r'.solver }
        ∧ view r'.solver = view r.solver := by
  rw [run_onSolver]
  rcases hrun : x.run r.solver with ⟨e | a, s⟩
  · exact Or.inr ⟨_, _, rfl, rfl, hx.error r.solver e s hrun⟩
  · exact Or.inl ⟨a, _, rfl, rfl, hx.ok r.solver a s hrun⟩

include hview

/-- A reference that is held can be given back. -/
theorem run_release (t : Term) (base : List Term)
    (h : (view r.solver).references.Perm (t :: base)) :
    ∃ r', (onSolver (Solver.release t)).run r = (.ok (), r') ∧ Holding view r base r' := by
  rcases hview.givesBack r.solver t (h.mem_iff.mpr List.mem_cons_self) with ⟨s, hs⟩
  have heffect := (hview.release t).ok r.solver () s hs
  have hs' : (Solver.release t : SolverCall σ ε Unit).run r.solver = (.ok (), s) := hs
  refine ⟨{ r with solver := s }, ?_, rfl, ?_, ?_, ?_⟩
  · rw [run_onSolver, hs']
  · rw [heffect]
    rfl
  · rw [heffect]
    rfl
  · rw [heffect]
    -- References are counted up to their order. Of the one that is given back one copy goes.
    have herase := h.erase t
    rwa [List.erase_cons_head] at herase

/-- References that are held can be given back together. -/
theorem run_releaseAll (ts base : List Term)
    (h : (view r.solver).references.Perm (ts ++ base)) :
    ∃ r', (releaseAll ts).run r = (.ok (), r') ∧ Holding view r base r' := by
  induction ts generalizing r with
  | nil => exact ⟨r, rfl, .start view r base h⟩
  | cons t ts ih =>
      rcases run_release view hview r t (ts ++ base) h with ⟨r₁, hfirst, h₁⟩
      rcases ih r₁ h₁.references with ⟨r₂, hlater, h₂⟩
      refine ⟨r₂, ?_, h₁.trans view r r₁ r₂ _ base h₂⟩
      rw [releaseAll, run_attempt_bind, hfirst, run_attempt_bind, hlater]
      rfl

/-- So can references whose taking has to be undone. -/
theorem run_giveBack (ts base : List Term)
    (h : (view r.solver).references.Perm (ts ++ base)) :
    ∃ r', (giveBack ts).run r = (.ok (), r') ∧ Holding view r base r' := by
  induction ts generalizing r with
  | nil => exact ⟨r, rfl, .start view r base h⟩
  | cons t ts ih =>
      rcases run_release view hview r t (ts ++ base) h with ⟨r₁, hfirst, h₁⟩
      -- Every release succeeds, so that failures would be ignored does not matter.
      rcases ih r₁ h₁.references with ⟨r₂, hlater, h₂⟩
      refine ⟨r₂, ?_, h₁.trans view r r₁ r₂ _ base h₂⟩
      rw [giveBack, run_attempt_bind, hfirst]
      exact hlater

/-- Either all references are taken or those that were taken are given back. -/
theorem retainAll_cases (taken ts base : List Term)
    (h : (view r.solver).references.Perm (taken ++ base)) :
    (∃ r', (retainAll taken ts).run r = (.ok (), r')
        ∧ Holding view r (taken ++ ts ++ base) r')
      ∨ ∃ e r', (retainAll taken ts).run r = (.error e, r') ∧ Holding view r base r' := by
  -- What was taken so far is generalized, as it is what has to be given back if a later one fails.
  induction ts generalizing taken r with
  | nil =>
      refine Or.inl ⟨r, rfl, .start view r _ ?_⟩
      rw [List.append_nil]
      exact h
  | cons t ts ih =>
      rcases onSolver_cases view r _ _ (hview.retain t) with
        ⟨⟨⟩, r₁, hrun, hrest, htaken⟩ | ⟨e, r₁, hrun, hrest, hsame⟩
      · have h₁ : Holding view r (taken ++ [t] ++ base) r₁ := by
          refine ⟨hrest, by rw [htaken]; rfl, by rw [htaken]; rfl, ?_⟩
          rw [htaken, List.append_assoc]
          exact (h.cons t).trans List.perm_middle.symm
        have hnext : (retainAll taken (t :: ts)).run r = (retainAll (taken ++ [t]) ts).run r₁ := by
          rw [retainAll, run_attempt_bind, hrun]
        rw [hnext, List.append_cons taken t ts]
        rcases ih r₁ (taken ++ [t]) h₁.references with ⟨r₂, hall, h₂⟩ | ⟨e, r₂, hnone, h₂⟩
        · exact Or.inl ⟨r₂, hall, h₁.trans view r r₁ r₂ _ _ h₂⟩
        · exact Or.inr ⟨e, r₂, hnone, h₁.trans view r r₁ r₂ _ _ h₂⟩
      · -- Nothing has changed but what had been taken before has to go back.
        have h₁ : Holding view r (taken ++ base) r₁ :=
          ⟨hrest, by rw [hsame], by rw [hsame], by rw [hsame]; exact h⟩
        rcases run_giveBack view hview r₁ taken base h₁.references with ⟨r₂, hback, h₂⟩
        refine Or.inr ⟨e, r₂, ?_, h₁.trans view r r₁ r₂ _ base h₂⟩
        rw [retainAll, run_attempt_bind, hrun]
        change (giveBack taken >>= fun _ => throw e : Step σ Unit).run r₁ = _
        rw [run_bind, hback]
        rfl

end Steps

/-- A step has changed the solver only, and there by no more than further assertions. -/
structure Asserting (view : σ → SolverView) (r r' : Refinement σ) : Prop where
  rest : r' = { r with solver := r'.solver }
  assertions : ∃ ts, (view r'.solver).assertions = (view r.solver).assertions ++ ts
  marks : (view r'.solver).marks = (view r.solver).marks
  references : (view r'.solver).references = (view r.solver).references

section Solving

variable (view : σ → SolverView) (hview : Solver.Tracked view) (r : Refinement σ)

/-- Calls that at most assert keep to it, whether they succeed or not. -/
theorem asserting_onSolver {α : Type} (x : SolverCall σ ε α) (f : SolverView → SolverView)
    (hx : Solver.HasEffect view x f)
    (hf : ∀ v, (∃ ts, (f v).assertions = v.assertions ++ ts) ∧ (f v).marks = v.marks
      ∧ (f v).references = v.references)
    (r₁ : Refinement σ) (h : Asserting view r r₁) :
    Asserting view r ((onSolver x).run r₁).2 := by
  rcases onSolver_cases view r₁ x f hx with
    ⟨a, r₂, hrun, hrest, hview⟩ | ⟨e, r₂, hrun, hrest, hview⟩
  · rw [hrun]
    rcases hf (view r₁.solver) with ⟨⟨ts, hts⟩, hmarks, hrefs⟩
    rcases h.assertions with ⟨us, hus⟩
    refine ⟨by rw [hrest, h.rest], ⟨us ++ ts, ?_⟩, ?_, ?_⟩
    · rw [hview, hts, hus, List.append_assoc]
    · rw [hview, hmarks, h.marks]
    · rw [hview, hrefs, h.references]
  · rw [hrun]
    refine ⟨by rw [hrest, h.rest], ?_, ?_, ?_⟩
    · rw [hview]
      exact h.assertions
    · rw [hview, h.marks]
    · rw [hview, h.references]

include hview

theorem asserting_assertAll (ts : List Term) (r₁ : Refinement σ) (h : Asserting view r r₁) :
    Asserting view r ((assertAll ts).run r₁).2 := by
  induction ts generalizing r₁ with
  | nil => exact h
  | cons t ts ih =>
      -- A failure in the middle ends the step with fewer assertions, which is covered as well.
      refine ends_bind (Asserting view r) _ _ r₁ ?_ fun _ r₂ _ h₂ => ih r₂ h₂
      exact asserting_onSolver view r _ _ (hview.assert t) (fun v => ⟨⟨[t], rfl⟩, rfl, rfl⟩) r₁ h

theorem asserting_judge (trace : List Term) (r₁ : Refinement σ) (h : Asserting view r r₁) :
    Asserting view r ((judge trace).run r₁).2 := by
  have hid (v : SolverView) : (∃ ts, (id v).assertions = v.assertions ++ ts)
      ∧ (id v).marks = v.marks ∧ (id v).references = v.references :=
    ⟨⟨[], (List.append_nil _).symm⟩, rfl, rfl⟩
  refine ends_bind (Asserting view r) _ _ r₁ (asserting_assertAll view hview r trace r₁ h)
    fun _ r₂ _ h₂ => ?_
  refine ends_bind (Asserting view r) _ _ r₂
    (asserting_onSolver view r _ _ hview.check hid r₂ h₂) fun verdict r₃ _ h₃ => ?_
  -- Interpolants are only asked for after the answer that nothing satisfies the trace.
  cases verdict with
  | sat => exact h₃
  | unsat =>
      exact ends_bind (Asserting view r) _ _ r₃
        (asserting_onSolver view r _ _ hview.interpolants hid r₃ h₃) fun _ _ _ h₄ => h₄
  | unknown reason => exact h₃

/-- In an open scope of its own a trace is judged, and the scope can be closed again. -/
theorem run_solve_of_push (trace base : List Term)
    (h : (view r.solver).references.Perm base) (r₁ : Refinement σ)
    (hpush : (onSolver Solver.push).run r = (.ok (), r₁))
    (hrest : r₁ = { r with solver := r₁.solver })
    (hopen : view r₁.solver = (view r.solver).push) :
    ∃ r', (solve trace).run r = (((judge trace).run r₁).1, r') ∧ Holding view r base r' := by
  have hstart : Asserting view r₁ r₁ := ⟨rfl, ⟨[], (List.append_nil _).symm⟩, rfl, rfl⟩
  have hjudged := asserting_judge view hview r₁ trace r₁ hstart
  rcases hjudge : (judge trace).run r₁ with ⟨outcome, r₂⟩
  rw [hjudge] at hjudged
  change Asserting view r₁ r₂ at hjudged
  have hmarks : (view r₂.solver).marks
      = (view r.solver).assertions.length :: (view r.solver).marks := by
    rw [hjudged.marks, hopen]
    rfl
  -- Whatever the judgement did, the scope that was opened is the innermost one.
  rcases hview.closes r₂.solver (by rw [hmarks]; exact List.cons_ne_nil _ _) with ⟨s, hs⟩
  have hs' : (Solver.pop : SolverCall σ ε Unit).run r₂.solver = (.ok (), s) := hs
  have hclosed := hview.pop.ok r₂.solver () s hs
  rw [SolverView.pop, hmarks] at hclosed
  refine ⟨{ r₂ with solver := s }, ?_, by rw [hjudged.rest, hrest], ?_, ?_, ?_⟩
  · rw [solve, run_bind, hpush]
    change (attempt (judge trace) >>= fun outcome => _ : Step σ _).run r₁ = _
    rw [run_attempt_bind, hjudge, run_attempt_bind, run_onSolver, hs']
    -- The scope is closed before the outcome is looked at, so it is closed in either case.
    cases outcome with
    | error e => rfl
    | ok found => rfl
  -- To close the scope cuts off what was asserted in it, and that is all that was added.
  · rcases hjudged.assertions with ⟨ts, hts⟩
    rw [hclosed, hts, hopen]
    exact List.take_left
  · rw [hclosed]
  · rw [hclosed, hjudged.references, hopen]
    exact h

/-- A check of a trace leaves nothing of itself behind. -/
theorem holding_solve (trace base : List Term)
    (h : (view r.solver).references.Perm base) :
    Holding view r base ((solve trace).run r).2 := by
  rcases onSolver_cases view r _ _ hview.push with
    ⟨⟨⟩, r₁, hpush, hrest, hopen⟩ | ⟨e, r₁, hpush, hrest, hsame⟩
  · rcases run_solve_of_push view hview r trace base h r₁ hpush hrest hopen with ⟨r', hrun, hr'⟩
    rw [hrun]
    exact hr'
  -- If no scope could be opened none has to be closed.
  · rw [solve, run_bind, hpush]
    exact ⟨hrest, by rw [hsame], by rw [hsame], by rw [hsame]; exact h⟩

end Solving

/-- What the last check has learned and nobody has used yet. -/
def cached (r : Refinement σ) : List Term :=
  match r.solution with
  | none => []
  | some solution => solution.interpolants

/-- The configuration and the scopes are as in the beginning, and besides the references held
    then there are those to the interpolants that are kept. -/
structure Balanced (view : σ → SolverView) (start r : Refinement σ) : Prop where
  config : r.config = start.config
  assertions : (view r.solver).assertions = (view start.solver).assertions
  marks : (view r.solver).marks = (view start.solver).marks
  references : (view r.solver).references.Perm (r.cached ++ (view start.solver).references)

section Calls

variable (view : σ → SolverView) (hview : Solver.Tracked view) (start r : Refinement σ)

/-- After steps that only use the solver, and others that do not use it, there is balance if
    the right references are held. -/
theorem Holding.balanced (refs : List Term) (r' r'' : Refinement σ) (hr : Balanced view start r)
    (h : Holding view r refs r') (hsolver : r''.solver = r'.solver)
    (hconfig : r''.config = r'.config)
    (hrefs : refs = r''.cached ++ (view start.solver).references) : Balanced view start r'' := by
  refine ⟨?_, ?_, ?_, ?_⟩
  · rw [hconfig, h.rest]
    exact hr.config
  · rw [hsolver, h.assertions, hr.assertions]
  · rw [hsolver, h.marks, hr.marks]
  · rw [hsolver, ← hrefs]
    exact h.references

/-- Steps that do not use the solver keep the balance. -/
theorem Balanced.of_same (r' : Refinement σ) (hr : Balanced view start r)
    (hsolver : r'.solver = r.solver) (hconfig : r'.config = r.config)
    (hcached : r'.cached = r.cached) : Balanced view start r' :=
  Holding.balanced view start r _ r r' hr (.start view r _ hr.references) hsolver hconfig
    (by rw [hcached])

theorem cached_of_none (hnone : r.solution = none) : r.cached = [] := by rw [cached, hnone]

theorem Balanced.references_of_none (hr : Balanced view start r) (hnone : r.solution = none) :
    (view r.solver).references.Perm (view start.solver).references := by
  have hrefs := hr.references
  rwa [cached_of_none r hnone] at hrefs

include hview

/-- What is kept can be dropped, and its references with it. -/
theorem run_dropSolution (hr : Balanced view start r) : ∃ s,
    dropSolution.run r = (.ok (), { r with solver := s, solution := none })
      ∧ Balanced view start { r with solver := s, solution := none } := by
  rcases hsolution : r.solution with _ | stale
  · have hsame : { r with solver := r.solver, solution := none } = r := by rw [← hsolution]
    refine ⟨r.solver, ?_, ?_⟩
    · rw [hsame]
      change (match r.solution with | none => pure () | some stale => _ : Step σ Unit).run r = _
      rw [hsolution]
      rfl
    · rw [hsame]
      exact hr
  -- The slot is emptied first, and then the references go back one by one. All of them are held, by
  -- the balance.
  · have hcached : r.cached = stale.interpolants := by rw [cached, hsolution]
    have hrefs := hr.references
    rw [hcached] at hrefs
    rcases run_releaseAll view hview { r with solution := none } stale.interpolants _ hrefs with
      ⟨r', hrun, hr'⟩
    have hrest : r' = { r with solver := r'.solver, solution := none } := hr'.rest
    refine ⟨r'.solver, ?_, hr.config, hr'.assertions.trans hr.assertions,
      hr'.marks.trans hr.marks, hr'.references⟩
    change (match r.solution with
      | none => pure ()
      | some stale => do
        set { r with solution := none }
        releaseAll stale.interpolants : Step σ Unit).run r = _
    rw [hsolution, ← hrest]
    exact hrun

/-- References to a trace are given back before its outcome counts. -/
theorem examine_cases (target : StateId) (trace : List Term)
    (h : (view r.solver).references.Perm (view start.solver).references) :
    (∃ e r', (examine target trace).run r = (.error e, r')
        ∧ (∃ r₁, (retainAll [] trace).run r = (.error e, r₁))
        ∧ Holding view r (view start.solver).references r')
      ∨ ∃ r₁ r', Holding view r (trace ++ (view start.solver).references) r₁
        ∧ Holding view r (view start.solver).references r'
        ∧ (examine target trace).run r = match ((solve trace).run r₁).1 with
          | .error e => (.error e, r')
          | .ok none => (.ok true, r')
          | .ok (some interpolants) =>
            (do keepSolution target interpolants; return false : Step σ Bool).run r' := by
  rcases retainAll_cases view hview r [] trace _ h with ⟨r₁, hretain, h₁⟩ | ⟨e, r₁, hretain, h₁⟩
  · have h₂ := holding_solve view hview r₁ trace _ h₁.references
    rcases run_releaseAll view hview _ trace _ h₂.references with ⟨r₃, hrelease, h₃⟩
    refine Or.inr ⟨r₁, r₃, h₁,
      (h₁.trans view r r₁ _ _ _ h₂).trans view r _ r₃ _ _ h₃, ?_⟩
    rw [examine, run_bind, hretain]
    change (attempt (solve trace) >>= fun outcome => _ : Step σ Bool).run r₁ = _
    rw [run_attempt_bind, run_attempt_bind, hrelease]
    -- The references are back by now, so the three outcomes differ only in what is answered.
    rcases ((solve trace).run r₁).1 with e | _ | interpolants
    · rfl
    · rfl
    · rfl
  · refine Or.inl ⟨e, r₁, ?_, ⟨r₁, hretain⟩, h₁⟩
    rw [examine, run_bind, hretain]

/-- Interpolants are kept with references to them, if there are any. -/
theorem keepSolution_cases (target : StateId) (is : List Term)
    (h : (view r.solver).references.Perm (view start.solver).references) :
    (is = [] ∧ (keepSolution target is).run r = (.error (.contract (.noInterpolants target)), r))
      ∨ (∃ e r', (keepSolution target is).run r = (.error e, r')
        ∧ (∃ r₁, (retainAll [] is).run r = (.error e, r₁))
        ∧ Holding view r (view start.solver).references r')
      ∨ ∃ r', (keepSolution target is).run r = (.ok (), { r' with solution := some ⟨target, is⟩ })
        ∧ is ≠ [] ∧ Holding view r (is ++ (view start.solver).references) r' := by
  -- Without interpolants there is nothing to be kept, and this is reported.
  rcases is with _ | ⟨i, is⟩
  · exact Or.inl ⟨rfl, rfl⟩
  · have hkeep : (keepSolution target (i :: is) : Step σ Unit)
        = (do
          retainAll [] (i :: is)
          modify fun r => { r with solution := some ⟨target, i :: is⟩ }) := rfl
    rw [hkeep, run_bind]
    rcases retainAll_cases view hview r [] (i :: is) (view start.solver).references h with
      ⟨r₁, hretain, h₁⟩ | ⟨e, r₁, hretain, h₁⟩
    · rw [hretain]
      exact Or.inr (Or.inr ⟨r₁, rfl, List.cons_ne_nil i is, h₁⟩)
    · rw [hretain]
      exact Or.inr (Or.inl ⟨e, r₁, rfl, ⟨r₁, rfl⟩, h₁⟩)

theorem balanced_keepSolution (target : StateId) (is : List Term) (hnone : r.solution = none)
    (hr : Balanced view start r) : Balanced view start ((keepSolution target is).run r).2 := by
  rcases keepSolution_cases view hview start r target is (hr.references_of_none view start r hnone)
    with ⟨-, hrun⟩ | ⟨e, r', hrun, -, hr'⟩ | ⟨r', hrun, -, hr'⟩
  · rw [hrun]
    exact hr
  -- If references are refused those that were taken are given back, and the slot stays empty.
  · rw [hrun]
    have hnone' : r'.solution = none := by rw [hr'.rest, hnone]
    exact hr'.balanced view start r _ r' r' hr rfl rfl (by rw [cached_of_none r' hnone']; rfl)
  · rw [hrun]
    exact hr'.balanced view start r _ r' _ hr rfl rfl rfl

theorem balanced_examine (target : StateId) (trace : List Term) (hnone : r.solution = none)
    (hr : Balanced view start r) : Balanced view start ((examine target trace).run r).2 := by
  -- With an empty slot the balance only asks for the references that were held from the start.
  have hkept (r' : Refinement σ) (hr' : Holding view r (view start.solver).references r') :
      Balanced view start r' ∧ r'.solution = none := by
    have hnone' : r'.solution = none := by rw [hr'.rest, hnone]
    exact ⟨hr'.balanced view start r _ r' r' hr rfl rfl (by rw [cached_of_none r' hnone']; rfl),
      hnone'⟩
  rcases examine_cases view hview start r target trace (hr.references_of_none view start r hnone)
    with ⟨e, r', hrun, -, hr'⟩ | ⟨r₁, r', -, hr', hrun⟩
  · rw [hrun]
    exact (hkept r' hr').1
  · rcases hkept r' hr' with ⟨hbalanced, hnone'⟩
    rw [hrun]
    rcases ((solve trace).run r₁).1 with e | _ | interpolants
    · exact hbalanced
    · exact hbalanced
    · exact ends_bind (Balanced view start) _ _ r'
        (balanced_keepSolution view hview start r' target interpolants hnone' hbalanced)
        fun _ _ _ h => h

/-- A check comes to its target with nothing kept. -/
theorem begun_of_checkFeasible (a : Accessibility) (target : StateId) (hr : Balanced view start r) :
    ∃ r₁, Balanced view start r₁ ∧ r₁.solution = none
      ∧ (checkFeasible a target).run r = (inspect a target).run r₁ := by
  rcases run_dropSolution view hview start r hr with ⟨s, hdrop, hdropped⟩
  refine ⟨{ r with solver := s, solution := none, checks := r.checks + 1 },
    hdropped.of_same view start _ _ rfl rfl rfl, rfl, ?_⟩
  rw [checkFeasible_eq, run_bind, hdrop]
  rfl

/-- A check keeps the balance, whatever comes of it. -/
theorem balanced_checkFeasible (a : Accessibility) (target : StateId)
    (hr : Balanced view start r) : Balanced view start ((checkFeasible a target).run r).2 := by
  rcases begun_of_checkFeasible view hview start r a target hr with ⟨r₁, hbegun, hnone, hrun⟩
  rw [hrun, run_inspect]
  rcases traceTo a target with e | trace
  · exact hbegun
  · dsimp only
    rcases dump_cases r₁ trace with ⟨d, hdump⟩ | hdump
    · rw [hdump]
      exact balanced_examine view hview start { r₁ with diagnostics := d } target trace hnone
        (hbegun.of_same view start _ _ rfl rfl rfl)
    · rw [hdump]
      exact hbegun

/-- Once something was learned, or not, the references go back. -/
theorem run_consume (a : Accessibility) (solution : Solution) (target : StateId) (base : List Term)
    (applied : Except AnalysisError Unit) (r₁ : Refinement σ)
    (hlearn : (learn a solution target).run r = (applied, r₁))
    (h : (view r.solver).references.Perm (solution.interpolants ++ base)) :
    ∃ s, (consume a solution target).run r = (applied, { r₁ with solver := s })
      ∧ Holding view r base { r with solver := s } := by
  have hsolver := (rest_of_learn r a solution target).1
  rw [hlearn] at hsolver
  rcases run_releaseAll view hview r₁ solution.interpolants base (by rw [hsolver]; exact h) with
    ⟨r₂, hrelease, hr₂⟩
  refine ⟨r₂.solver, ?_, rfl, ?_, ?_, hr₂.references⟩
  -- The references go back whether something was learned or not, and only then the outcome is
  -- looked at.
  · rw [consume, run_attempt_bind, hlearn, run_attempt_bind, hrelease, ← hr₂.rest]
    cases applied with
    | error e => rfl
    | ok _ => rfl
  · exact hr₂.assertions.trans (by rw [hsolver])
  · exact hr₂.marks.trans (by rw [hsolver])

/-- A refinement keeps the balance, whatever comes of it. -/
theorem balanced_refine (a : Accessibility) (target : StateId)
    (hr : Balanced view start r) : Balanced view start ((refine a target).run r).2 := by
  rw [run_refine]
  rcases hsolution : r.solution with _ | solution
  · exact hr
  · have hcached : r.cached = solution.interpolants := by rw [cached, hsolution]
    have hheld := hr.references
    rw [hcached] at hheld
    have hrest := rest_of_learn { r with solution := none } a solution target
    rcases hlearn : (learn a solution target).run { r with solution := none } with ⟨applied, r₁⟩
    rw [hlearn] at hrest
    rcases hrest with ⟨-, hnone, hconfig⟩
    rcases run_consume view hview { r with solution := none } a solution target _ applied r₁ hlearn
      hheld with ⟨s, hrun, hs⟩
    dsimp only
    rw [hrun]
    -- The slot was emptied before, so the references that were given back are not missed.
    refine ⟨hconfig.trans hr.config, hs.assertions.trans hr.assertions, hs.marks.trans hr.marks, ?_⟩
    rw [cached_of_none { r₁ with solver := s } hnone]
    exact hs.references

end Calls

/-- What can happen to refinement from outside: its calls, and changes to the sets of the
    exploration. -/
inductive Request where
  | check (a : Accessibility) (target : StateId)
  | refine (a : Accessibility) (target : StateId)
  | explore (e : Exploration)

/-- The state after a request, whether it failed or not. -/
def perform (r : Refinement σ) : Request → Refinement σ
  | .check a target => ((checkFeasible a target).run r).2
  | .refine a target => ((refine a target).run r).2
  | .explore e => { r with exploration := e }

/-- The state after a sequence of requests. -/
def performAll (r : Refinement σ) (requests : List Request) : Refinement σ :=
  requests.foldl perform r

/-- There is balance after any sequence of requests. -/
theorem balanced_performAll (view : σ → SolverView) (hview : Solver.Tracked view)
    (start r : Refinement σ) (hr : Balanced view start r) (requests : List Request) :
    Balanced view start (performAll r requests) := by
  induction requests generalizing r with
  | nil => exact hr
  | cons request requests ih =>
      refine ih (perform r request) ?_
      cases request with
      | check a target => exact balanced_checkFeasible view hview start r a target hr
      | refine a target => exact balanced_refine view hview start r a target hr
      | explore e => exact hr.of_same view start r _ rfl rfl rfl

end Refinement

end ActorCheck

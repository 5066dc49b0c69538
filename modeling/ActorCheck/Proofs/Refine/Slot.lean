import ActorCheck.Proofs.Refine.Feasibility
import Mathlib.Data.List.Induction

/-!
# A Slot for One Refinement

What a check has learned is kept for the very next call. A refinement for the same target uses it
up, and so does one for another target, which fails. A further check drops it before it looks at
its own target. So the slot is filled if and only if the last call was a check that found its
target infeasible, and then it is filled for that target. `Refuted` says this of a sequence of
requests. Changes to the sets of the exploration, which come from elsewhere, do not matter to it.

A refinement therefore succeeds exactly if it directly follows such a check of its own target, and
lazy abstraction is off. In all other cases it is refused, for one of three reasons, and nothing is
learned: the precision stays as it is, and so do the sets of the exploration.

## Main definitions

* `Refinement.Slotted`: The slot agrees with the answer of a check.
* `Refinement.Refuted`: The last call was a check that found a target infeasible.
* `Refinement.Refused`: Why a refinement is refused.

## Theorems

* `Refinement.slotted_checkFeasible`: What a check keeps.
* `Refinement.run_refine_of_balanced`: What a refinement does.
* `Refinement.slot_iff_refuted`: When the slot is filled.
* `Refinement.refined_iff_refuted`: When a refinement succeeds, and what happens otherwise.
-/

namespace ActorCheck

namespace Refinement

/-- The slot is filled for the target if the answer is that it is infeasible. Otherwise it is
    empty. -/
def Slotted {σ : Type} (target : StateId) (p : Except AnalysisError Bool × Refinement σ) : Prop :=
  (p.1 = .ok false ∧ ∃ is, p.2.solution = some ⟨target, is⟩)
    ∨ p.1 ≠ .ok false ∧ p.2.solution = none

section Calls

variable {σ ε : Type} [Solver σ ε] (view : σ → SolverView) (hview : Solver.Tracked view)
  (start r : Refinement σ) (hr : Balanced view start r) (a : Accessibility) (target : StateId)

include hview hr

theorem slotted_examine (trace : List Term) (hnone : r.solution = none) :
    Slotted target ((examine target trace).run r) := by
  -- Either the references to the blocks are not given out, or the trace is solved and what happens
  -- next depends on the outcome.
  rcases examine_cases view hview start r target trace (hr.references_of_none view start r hnone)
    with ⟨e, r', hrun, -, hr'⟩ | ⟨r₁, r', -, hr', hrun⟩
  · rw [hrun]
    exact Or.inr ⟨nofun, by rw [hr'.rest, hnone]⟩
  · have hnone' : r'.solution = none := by rw [hr'.rest, hnone]
    rw [hrun]
    rcases ((solve trace).run r₁).1 with e | _ | is
    · exact Or.inr ⟨nofun, hnone'⟩
    · exact Or.inr ⟨nofun, hnone'⟩
    · dsimp only
      rw [run_bind]
      -- Interpolants are only kept if there are any and the solver gives out references to them.
      rcases keepSolution_cases view hview start r' target is hr'.references with
        ⟨-, hkeep⟩ | ⟨e, r₂, hkeep, -, hr₂⟩ | ⟨r₂, hkeep, -, -⟩
      · rw [hkeep]
        exact Or.inr ⟨nofun, hnone'⟩
      · rw [hkeep]
        exact Or.inr ⟨nofun, by rw [hr₂.rest, hnone']⟩
      · rw [hkeep]
        exact Or.inl ⟨rfl, is, rfl⟩

/-- A check that finds its target infeasible fills the slot. Any other check leaves it empty. -/
theorem slotted_checkFeasible : Slotted target ((checkFeasible a target).run r) := by
  rcases begun_of_checkFeasible view hview start r a target hr with ⟨r₁, hbegun, hnone, hrun⟩
  rw [hrun, run_inspect]
  rcases traceTo a target with e | trace
  · exact Or.inr ⟨nofun, hnone⟩
  · dsimp only
    rcases dump_cases r₁ trace with ⟨d, hdump⟩ | hdump
    · rw [hdump]
      exact slotted_examine view hview start { r₁ with diagnostics := d }
        (hbegun.of_same view start _ _ rfl rfl rfl) target trace hnone
    · rw [hdump]
      exact Or.inr ⟨nofun, hnone⟩

/-- A refinement empties the slot. It learns from what was in it if that belongs to the target and
    lazy abstraction is off. -/
theorem run_refine_of_balanced : ∃ s, (refine a target).run r = match r.solution with
    | none => (.error (.contract .missingInterpolationSolution), r)
    | some solution =>
      if solution.target ≠ target then
        (.error (.contract (.mismatchedTarget solution.target target)),
          { r with solver := s, solution := none })
      else if r.config.useLazyAbstraction then
        (.error (.unsupported .lazyAbstraction), { r with solver := s, solution := none })
      else (.ok (), { r with
        solver := s
        solution := none
        precision := r.precision.join (Precision.ofTerms solution.interpolants .intermediate)
        exploration := restart a r.exploration }) := by
  rw [run_refine]
  -- The slot is emptied before anything else is looked at, so whether the target is the right one
  -- does not matter for it.
  rcases hsolution : r.solution with _ | solution
  · exact ⟨r.solver, rfl⟩
  · have hcached : r.cached = solution.interpolants := by rw [cached, hsolution]
    have hheld := hr.references
    rw [hcached] at hheld
    rcases hlearn : (learn a solution target).run { r with solution := none } with ⟨applied, r₁⟩
    rcases run_consume view hview { r with solution := none } a solution target _ applied r₁ hlearn
      hheld with ⟨s, hrun, -⟩
    refine ⟨s, ?_⟩
    dsimp only
    rw [hrun]
    rw [run_learn] at hlearn
    -- What was learned and what is stated split in the same places, by target and then by lazy
    -- abstraction.
    split
    next htarget =>
      rw [if_pos htarget] at hlearn
      cases hlearn
      rfl
    next htarget =>
      rw [if_neg htarget] at hlearn
      split
      next hlazy =>
        rw [if_pos hlazy] at hlearn
        cases hlearn
        rfl
      next hlazy =>
        rw [if_neg hlazy] at hlearn
        cases hlearn
        rfl

/-- After a refinement the slot is empty. -/
theorem emptied_of_refine : ((refine a target).run r).2.solution = none := by
  rcases run_refine_of_balanced view hview start r hr a target with ⟨s, hrun⟩
  rw [hrun]
  rcases hsolution : r.solution with _ | solution
  · exact hsolution
  · dsimp only
    split
    next => rfl
    next =>
      split
      next => rfl
      next => rfl

end Calls

section History

variable {σ ε : Type} [Solver σ ε] (view : σ → SolverView) (hview : Solver.Tracked view)
  (start : Refinement σ) (hstart : start.solution = none)

/-- The last call was a check of the target that found it infeasible. Nothing but changes to the
    sets of the exploration has happened since. -/
def Refuted (start : Refinement σ) (requests : List Request) (target : StateId) : Prop :=
  ∃ (before : List Request) (a : Accessibility) (changes : List Exploration),
    requests = before ++ .check a target :: changes.map .explore
      ∧ ((checkFeasible a target).run (performAll start before)).1 = .ok false

/-- Why a refinement for a target is refused after some requests. The last call was no check that
    found anything infeasible, or it has found another target infeasible, or lazy abstraction is
    on. -/
inductive Refused (start : Refinement σ) (requests : List Request) (target : StateId) :
    AnalysisError → Prop where
  | missing (nothing : ∀ other, ¬ Refuted start requests other) :
      Refused start requests target (.contract .missingInterpolationSolution)
  | mismatched (other : StateId) (refuted : Refuted start requests other)
      (different : other ≠ target) :
      Refused start requests target (.contract (.mismatchedTarget other target))
  | unsupported (isLazy : start.config.useLazyAbstraction = true)
      (refuted : Refuted start requests target) :
      Refused start requests target (.unsupported .lazyAbstraction)

theorem performAll_append (requests : List Request) (request : Request) :
    performAll start (requests ++ [request]) = perform (performAll start requests) request :=
  List.foldl_append

/-- The last of some requests is a check, or a change after it. -/
theorem last_of_checked (requests before : List Request) (request check : Request)
    (changes : List Exploration)
    (h : requests ++ [request] = before ++ check :: changes.map .explore) :
    (requests = before ∧ request = check)
      ∨ ∃ (earlier : List Exploration) (e : Exploration), request = .explore e
        ∧ requests = before ++ check :: earlier.map .explore := by
  -- Either nothing follows the check, so it is the last request, or the last one is a change.
  rcases List.eq_nil_or_concat changes with rfl | ⟨earlier, e, rfl⟩
  · rcases List.append_inj' h rfl with ⟨hrequests, hlast⟩
    exact Or.inl ⟨hrequests, List.singleton_inj.mp hlast⟩
  · rw [List.concat_eq_append, List.map_append, ← List.cons_append, ← List.append_assoc] at h
    rcases List.append_inj' h rfl with ⟨hrequests, hlast⟩
    exact Or.inr ⟨earlier, e, List.singleton_inj.mp hlast, hrequests⟩

include hview hstart

theorem balanced_of_requests (requests : List Request) :
    Balanced view start (performAll start requests) := by
  refine balanced_performAll view hview start start ⟨rfl, rfl, rfl, ?_⟩ requests
  rw [cached_of_none start hstart]
  exact .refl _

/-- The slot is filled for a target if and only if the last call was a check that found that target
    infeasible. -/
theorem slot_iff_refuted (requests : List Request) (target : StateId) :
    (∃ is, (performAll start requests).solution = some ⟨target, is⟩)
      ↔ Refuted start requests target := by
  -- Only the last request counts, unless it is a change to the sets of the exploration.
  induction requests using List.reverseRecOn with
  | nil =>
      refine iff_of_false ?_ ?_
      · rintro ⟨is, his⟩
        cases hstart.symm.trans his
      · rintro ⟨before, a, changes, h, -⟩
        exact List.cons_ne_nil _ _ (List.append_eq_nil_iff.mp h.symm).2
  | append_singleton requests request ih =>
      have hr := balanced_of_requests view hview start hstart requests
      rw [performAll_append]
      cases request with
      | explore e =>
          refine ih.trans ⟨?_, ?_⟩
          · rintro ⟨before, a, changes, rfl, hrefuted⟩
            refine ⟨before, a, changes ++ [e], ?_, hrefuted⟩
            rw [List.map_append, ← List.cons_append, ← List.append_assoc]
            rfl
          · rintro ⟨before, a, changes, h, hrefuted⟩
            rcases last_of_checked _ _ _ _ _ h with ⟨_, hcheck⟩ | ⟨earlier, _, _, hrequests⟩
            · cases hcheck
            · exact ⟨before, a, earlier, hrequests, hrefuted⟩
      | check a checked =>
          -- What a check leaves in the slot depends on this check alone, not on what was there
          -- before.
          have hslotted := slotted_checkFeasible view hview start _ hr a checked
          refine ⟨?_, ?_⟩
          · rintro ⟨is, his⟩
            have hsolution : ((checkFeasible a checked).run (performAll start requests)).2.solution
                = some ⟨target, is⟩ := his
            rcases hslotted with ⟨hrefuted, is', his'⟩ | ⟨_, hnone⟩
            · cases hsolution.symm.trans his'
              exact ⟨requests, a, [], rfl, hrefuted⟩
            · cases hsolution.symm.trans hnone
          · rintro ⟨before, a', changes, h, hrefuted⟩
            rcases last_of_checked _ _ _ _ _ h with ⟨rfl, hcheck⟩ | ⟨_, _, hexplore, _⟩
            · cases hcheck
              rcases hslotted with ⟨_, hkept⟩ | ⟨hfailed, _⟩
              · exact hkept
              · exact absurd hrefuted hfailed
            · cases hexplore
      | refine a refined =>
          refine iff_of_false ?_ ?_
          -- A refinement leaves nothing in the slot, and it is no check either.
          · rintro ⟨is, his⟩
            have hsolution : ((refine a refined).run (performAll start requests)).2.solution
                = some ⟨target, is⟩ := his
            rw [emptied_of_refine view hview start _ hr] at hsolution
            cases hsolution
          · rintro ⟨before, a', changes, h, -⟩
            rcases last_of_checked _ _ _ _ _ h with ⟨_, hcheck⟩ | ⟨_, _, hexplore, _⟩
            · cases hcheck
            · cases hexplore

/-- What was found infeasible last is one target. -/
theorem refuted_unique (requests : List Request) (target other : StateId)
    (h : Refuted start requests target) (h' : Refuted start requests other) : target = other := by
  -- There is one slot, so what it is filled for is one target.
  rcases (slot_iff_refuted view hview start hstart requests target).mpr h with ⟨is, his⟩
  rcases (slot_iff_refuted view hview start hstart requests other).mpr h' with ⟨is', his'⟩
  cases his.symm.trans his'
  rfl

/-- A refinement succeeds after the right check, or it is refused and learns nothing. -/
theorem refined_or_refused (requests : List Request) (a : Accessibility) (target : StateId) :
    (((refine a target).run (performAll start requests)).1 = .ok ()
        ∧ start.config.useLazyAbstraction = false ∧ Refuted start requests target)
      ∨ ∃ e r, (refine a target).run (performAll start requests) = (.error e, r)
        ∧ Refused start requests target e
        ∧ r.precision = (performAll start requests).precision
        ∧ r.exploration = (performAll start requests).exploration := by
  have hr := balanced_of_requests view hview start hstart requests
  have hslot := slot_iff_refuted view hview start hstart requests
  rcases run_refine_of_balanced view hview start _ hr a target with ⟨s, hrun⟩
  rw [hrun, hr.config]
  -- An empty slot means that nothing was refuted, and a filled one tells what was refuted last.
  rcases hsolution : (performAll start requests).solution with _ | ⟨other, is⟩
  · refine Or.inr ⟨_, _, rfl, .missing fun other hrefuted => ?_, rfl, rfl⟩
    rcases (hslot other).mpr hrefuted with ⟨is, his⟩
    cases hsolution.symm.trans his
  · have hrefuted := (hslot other).mp ⟨is, hsolution⟩
    dsimp only
    split
    next hother => exact Or.inr ⟨_, _, rfl, .mismatched other hrefuted hother, rfl, rfl⟩
    next hother =>
      rw [Decidable.not_not.mp hother] at hrefuted
      split
      next hlazy => exact Or.inr ⟨_, _, rfl, .unsupported hlazy hrefuted, rfl, rfl⟩
      next hlazy => exact Or.inl ⟨rfl, Bool.eq_false_iff.mpr hlazy, hrefuted⟩

end History

/-- With the interval solver, a refinement succeeds exactly if it directly follows a check that
    found its target infeasible and lazy abstraction is off. In all other cases it is refused, and
    the precision and the sets of the exploration stay as they are. In any case the slot is empty
    afterwards. -/
theorem refined_iff_refuted (solver : IntervalSolver) (config : RefinerConfig) (writable : Bool)
    (requests : List Request) (a : Accessibility) (target : StateId) :
    let start := initial solver config writable
    let r := performAll start requests
    let refined := (refine a target).run r
    (refined.1 = .ok () ↔ config.useLazyAbstraction = false ∧ Refuted start requests target)
      ∧ (∀ e, refined.1 = .error e → Refused start requests target e
        ∧ refined.2.precision = r.precision ∧ refined.2.exploration = r.exploration)
      ∧ refined.2.solution = none := by
  intro start r refined
  have hways := refined_or_refused IntervalSolver.view IntervalSolver.tracked start rfl requests a
    target
  refine ⟨⟨fun hok => ?_, ?_⟩, fun e he => ?_, ?_⟩
  · rcases hways with ⟨_, hwhy⟩ | ⟨e, r', hrun, _⟩
    · exact hwhy
    · cases hok.symm.trans (congrArg Prod.fst hrun)
  · rintro ⟨hlazy, hrefuted⟩
    rcases hways with ⟨hok, _⟩ | ⟨e, r', _, hrefused, _⟩
    · exact hok
    · cases hrefused with
      | missing hnothing => exact absurd hrefuted (hnothing target)
      | mismatched other hother hdifferent =>
          exact absurd (refuted_unique IntervalSolver.view IntervalSolver.tracked start rfl requests
            other target hother hrefuted) hdifferent
      | unsupported hon _ => cases hlazy.symm.trans hon
  · rcases hways with ⟨hok, _⟩ | ⟨e', r', hrun, hrefused, hprecision, hexploration⟩
    · cases he.symm.trans hok
    · have herror : refined.1 = .error e' := congrArg Prod.fst hrun
      have hrest : refined.2 = r' := congrArg Prod.snd hrun
      cases he.symm.trans herror
      rw [hrest]
      exact ⟨hrefused, hprecision, hexploration⟩
  · exact emptied_of_refine IntervalSolver.view IntervalSolver.tracked start r
      (balanced_of_requests IntervalSolver.view IntervalSolver.tracked start rfl requests) a target

/-- What was learned from the clash can be used once. The second refinement is refused and learns
    nothing more. -/
theorem refined_iff_refuted_clash :
    ((refine clash.accessibility 1).run (performAll (initial IntervalSolver.initial .default true)
        [.check clash.accessibility 1])).1 = .ok ()
      ∧ ((refine clash.accessibility 1).run (performAll
          (initial IntervalSolver.initial .default true)
          [.check clash.accessibility 1, .refine clash.accessibility 1])).2.precision
        = (performAll (initial IntervalSolver.initial .default true)
          [.check clash.accessibility 1, .refine clash.accessibility 1]).precision := by
  refine ⟨?_, ?_⟩
  · exact (refined_iff_refuted IntervalSolver.initial .default true _ clash.accessibility 1).1.mpr
      ⟨rfl, [], clash.accessibility, [], rfl, by decide +kernel⟩
  · exact ((refined_iff_refuted IntervalSolver.initial .default true _ clash.accessibility 1).2.1
      (.contract .missingInterpolationSolution) (by decide +kernel)).2.1

end Refinement

end ActorCheck

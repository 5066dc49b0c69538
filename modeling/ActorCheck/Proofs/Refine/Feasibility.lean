import ActorCheck.Proofs.Refine.Balance
import ActorCheck.Proofs.Refine.Traces
import ActorCheck.Proofs.Solver.Interpolation
import ActorCheck.Proofs.Term.Alignment

/-!
# The Verdict on a Trace

With the interval solver, refinement decides whether the trace to a target is feasible,
as long as the aligned blocks are in the fragment and use no variable in two ways. If
they can hold together the trace is feasible and nothing is kept. If they cannot, and
there are at least two of them, it is infeasible and the interpolants at the cuts between
them are kept for the target.

A single block that cannot hold is a different matter. There is no cut, hence no
interpolant, and a check without interpolants is refused as a breach of the solver's
contract. So the call fails where it should answer that the trace is infeasible.

Earlier calls make no difference. Whatever happened, they leave no assertions and no
scopes, and the references they hold are those of interpolants that the next check gives
back.

## Main definitions

* `IntervalSolver.view`: What a client sees of the interval solver.
* `Refinement.Supported`: Formulas of the fragment without a variable in two roles.

## Theorems

* `IntervalSolver.tracked`: Calls on the interval solver have their effects.
* `Refinement.judge_feasible`, `Refinement.judge_infeasible`: How a trace is judged.
* `Refinement.checkFeasible_verdict`: The verdict on a trace after any calls.
* `Refinement.single_block_refused`: An infeasible trace of one block is refused.
-/

namespace ActorCheck

namespace IntervalSolver

/-- What a client sees of the interval solver. -/
def view (s : IntervalSolver) : SolverView := ⟨s.assertions, s.scopes, s.references⟩

section Effects

theorem effect_pop : Solver.HasEffect view pop SolverView.pop := by
  -- A call that succeeds does what it says, and one that fails leaves everything as it was. Only
  -- one of the two can be the case for a given state.
  refine ⟨fun s a s' h => ?_, fun s e s' h => ?_⟩
  · rw [run_pop] at h
    split at h
    next => cases h
    next start scopes hscopes =>
      cases h
      have hmarks : s.view.marks = start :: scopes := hscopes
      rw [SolverView.pop, hmarks]
      rfl
  · rw [run_pop] at h
    split at h
    next =>
      cases h
      rfl
    next => cases h

theorem effect_assert (t : Term) : Solver.HasEffect view (assert t) (SolverView.assert t) := by
  refine ⟨fun s a s' h => ?_, fun s e s' h => ?_⟩
  · rw [run_assert] at h
    split at h
    next => cases h
    next =>
      cases h
      rfl
  · rw [run_assert] at h
    split at h
    next =>
      cases h
      rfl
    next => cases h

theorem effect_release (t : Term) : Solver.HasEffect view (release t) (SolverView.release t) := by
  refine ⟨fun s a s' h => ?_, fun s e s' h => ?_⟩
  · rw [run_release] at h
    split at h
    next =>
      cases h
      rfl
    next => cases h
  · rw [run_release] at h
    split at h
    next => cases h
    next =>
      cases h
      rfl

theorem effect_check : Solver.HasEffect view check id := by
  refine ⟨fun s a s' h => ?_, fun s e s' h => ?_⟩
  · rw [run_check] at h
    split at h
    next => cases h
    next =>
      cases h
      rfl
  · rw [run_check] at h
    split at h
    next =>
      cases h
      rfl
    next => cases h

theorem effect_interpolants : Solver.HasEffect view interpolants id := by
  refine ⟨fun s a s' h => ?_, fun s e s' h => ?_⟩
  · rw [run_interpolants] at h
    rw [← (Prod.mk.inj h).2]
    rfl
  · rw [run_interpolants] at h
    rw [← (Prod.mk.inj h).2]

/-- Calls on the interval solver have their effects on what is seen of it. -/
theorem tracked : Solver.Tracked view where
  push := ⟨fun _ _ _ h => by cases h; rfl, fun _ _ _ h => by cases h⟩
  pop := effect_pop
  assert := effect_assert
  retain t := ⟨fun _ _ _ h => by cases h; rfl, fun _ _ _ h => by cases h⟩
  release := effect_release
  check := effect_check
  interpolants := effect_interpolants
  closes s h := by
    change ∃ s', pop.run s = (.ok (), s')
    rw [run_pop]
    split
    next hscopes => exact absurd hscopes h
    next => exact ⟨_, rfl⟩
  givesBack s t h := by
    change ∃ s', (release t).run s = (.ok (), s')
    have hmem : t ∈ s.references := h
    rw [run_release, if_pos hmem]
    exact ⟨_, rfl⟩

end Effects

end IntervalSolver

namespace Refinement

/-- Formulas of the fragment in which no variable is used both as a formula and in a
    comparison. -/
structure Supported (trace : List Term) : Prop where
  accepted : ∀ t ∈ trace, ∃ ls, literalsOf true t = .ok ls
  sorted : ∀ x, ¬ ((∃ t ∈ trace, t.AsFormula x) ∧ ∃ t ∈ trace, t.Compared x)

section Judging

variable (r : Refinement IntervalSolver) (trace : List Term)

/-- The interval solver gives out any number of references. -/
theorem retainAll_interval (taken ts : List Term) :
    ∃ r', (retainAll taken ts).run r = (.ok (), r') := by
  induction ts generalizing taken r with
  | nil => exact ⟨r, rfl⟩
  | cons t ts ih =>
      -- Giving out a reference cannot fail, so the next formula is dealt with in the same way.
      rw [retainAll, run_attempt_bind]
      exact ih _ (taken ++ [t])

theorem retainAll_ne_error (taken ts : List Term) (e : AnalysisError)
    (r₁ : Refinement IntervalSolver) : (retainAll taken ts).run r ≠ (.error e, r₁) := by
  rcases retainAll_interval r taken ts with ⟨r₂, hretained⟩
  intro hrefused
  cases hrefused.symm.trans hretained

/-- Formulas of the fragment are asserted one after the other. -/
theorem assertAll_interval (haccepted : ∀ t ∈ trace, ∃ ls, literalsOf true t = .ok ls) :
    ∃ v, (assertAll trace).run r = (.ok (), { r with
      solver :=
        { r.solver with assertions := r.solver.assertions ++ trace, lastCheck := v } }) := by
  induction trace generalizing r with
  | nil =>
      refine ⟨r.solver.lastCheck, ?_⟩
      rw [List.append_nil]
      rfl
  -- The formula is accepted, so it goes to the end of the list. What was remembered of the last
  -- check is forgotten.
  | cons t ts ih =>
      rcases haccepted t List.mem_cons_self with ⟨ls, hls⟩
      have hassert : (Solver.assert t : SolverCall IntervalSolver IntervalError Unit).run r.solver
          = (.ok (),
            { r.solver with assertions := r.solver.assertions ++ [t], lastCheck := none }) := by
        change (IntervalSolver.assert t).run r.solver = _
        rw [IntervalSolver.run_assert, hls]
      rw [assertAll, run_bind, run_onSolver, hassert]
      rcases ih { r with solver := { r.solver with
          assertions := r.solver.assertions ++ [t], lastCheck := none } }
        (fun u hu => haccepted u (List.mem_cons_of_mem t hu)) with ⟨v, hv⟩
      refine ⟨v, ?_⟩
      rw [List.append_cons r.solver.assertions t ts]
      exact hv

/-- Such formulas have constraints. -/
theorem Supported.ofTerms_isOk (h : Supported trace) : ∃ c, Constraints.ofTerms trace = .ok c := by
  have hcases := Constraints.ofTerms_cases trace h.accepted
  rcases hterms : Constraints.ofTerms trace with e | c
  · rw [hterms] at hcases
    -- To have no constraints, a variable would have to be used in both ways, and that is excluded.
    rcases hcases with ⟨x, -, hformula, hcompared⟩
    exact absurd ⟨hformula, hcompared⟩ (h.sorted x)
  · exact ⟨c, rfl⟩

/-- The verdict on them is right. -/
theorem Supported.verdict_eq (s : IntervalSolver) (h : Supported s.assertions) :
    ((∃ ν, ∀ t ∈ s.assertions, t.Holds ν) → s.verdict = .ok .sat)
      ∧ ((¬ ∃ ν, ∀ t ∈ s.assertions, t.Holds ν) → s.verdict = .ok .unsat) := by
  rcases h.ofTerms_isOk with ⟨c, hc⟩
  -- The constraints describe exactly the assignments that satisfy the formulas, so to look whether
  -- they leave something free decides the matter.
  have hdescribes := Constraints.describes_of_ofTerms c s.assertions hc
  have hsat : c.isSat = true ↔ ∃ ν, ∀ t ∈ s.assertions, t.Holds ν :=
    (Constraints.isSat_iff c hdescribes.apart).trans (exists_congr hdescribes.admits)
  have hverdict : s.verdict = .ok (if c.isSat then .sat else .unsat) := by
    rw [IntervalSolver.verdict, hc]
    rfl
  rw [hverdict, ← hsat]
  exact ⟨fun h => by rw [if_pos h], fun h => by rw [if_neg h]⟩

variable (hempty : r.solver.assertions = []) (hdec : Supported trace)

include hempty hdec

/-- How a trace that can hold is judged where nothing else is asserted. -/
theorem judge_feasible (hsat : ∃ ν, ∀ t ∈ trace, t.Holds ν) :
    ((judge trace).run r).1 = .ok none := by
  rcases assertAll_interval r trace hdec.accepted with ⟨v, hassert⟩
  rw [hempty, List.nil_append] at hassert
  have hcheck : (Solver.check : SolverCall IntervalSolver IntervalError Verdict).run
      { r.solver with assertions := trace, lastCheck := v }
      = (.ok .sat, { r.solver with assertions := trace, lastCheck := some .sat }) := by
    change IntervalSolver.check.run _ = _
    rw [IntervalSolver.run_check, (Supported.verdict_eq _ hdec).1 hsat]
  -- All is known of the two calls that judging consists of, so it only has to be run.
  rw [judge, run_bind, hassert]
  change ((onSolver Solver.check >>= fun verdict => _ : Step IntervalSolver _).run _).1 = _
  rw [run_bind, run_onSolver, hcheck]
  rfl

/-- How a trace that cannot hold is judged in a scope that begins with it. -/
theorem judge_infeasible (marks : List Nat) (hscope : r.solver.scopes = 0 :: marks)
    (hunsat : ¬ ∃ ν, ∀ t ∈ trace, t.Holds ν) :
    ∃ is, ((judge trace).run r).1 = .ok (some is) ∧ is.length = trace.length - 1 := by
  rcases assertAll_interval r trace hdec.accepted with ⟨v, hassert⟩
  rw [hempty, List.nil_append] at hassert
  have hverdict :=
    (Supported.verdict_eq { r.solver with assertions := trace, lastCheck := v } hdec).2
    hunsat
  have hcheck : (Solver.check : SolverCall IntervalSolver IntervalError Verdict).run
      { r.solver with assertions := trace, lastCheck := v }
      = (.ok .unsat, { r.solver with assertions := trace, lastCheck := some .unsat }) := by
    change IntervalSolver.check.run _ = _
    rw [IntervalSolver.run_check, hverdict]
  -- The innermost scope consists of the trace.
  rcases IntervalSolver.scopeInterpolants_of_unsat
    { r.solver with assertions := trace, lastCheck := some .unsat } hverdict with
    ⟨is, his, hlength, -⟩
  have hinner : IntervalSolver.inner { r.solver with assertions := trace, lastCheck := some .unsat }
      = trace := by
    rw [IntervalSolver.inner, hscope]
    rfl
  rw [hinner] at hlength
  have hinterpolants :
      (Solver.interpolants : SolverCall IntervalSolver IntervalError (List Term)).run
      { r.solver with assertions := trace, lastCheck := some .unsat }
      = (.ok is, { r.solver with assertions := trace, lastCheck := some .unsat }) := by
    change IntervalSolver.interpolants.run _ = _
    rw [IntervalSolver.run_interpolants, if_pos rfl, his]
  refine ⟨is, ?_, hlength⟩
  rw [judge, run_bind, hassert]
  change ((onSolver Solver.check >>= fun verdict => _ : Step IntervalSolver _).run _).1 = _
  rw [run_bind, run_onSolver, hcheck]
  change ((onSolver Solver.interpolants >>= fun is => _ : Step IntervalSolver _).run _).1 = _
  rw [run_bind, run_onSolver, hinterpolants]
  rfl

/-- The outcome of solving a trace is that of judging it in a scope that begins with it. -/
theorem solve_outcome (hscopes : r.solver.scopes = []) :
    ((∃ ν, ∀ t ∈ trace, t.Holds ν) → ((solve trace).run r).1 = .ok none)
      ∧ ((¬ ∃ ν, ∀ t ∈ trace, t.Holds ν)
        → ∃ is, ((solve trace).run r).1 = .ok (some is) ∧ is.length = trace.length - 1) := by
  have hpush : (onSolver Solver.push).run r = (.ok (), { r with
      solver :=
        { r.solver with
          scopes := r.solver.assertions.length :: r.solver.scopes, lastCheck := none } }) :=
    rfl
  rcases run_solve_of_push IntervalSolver.view IntervalSolver.tracked r trace _ (List.Perm.refl _) _
    hpush rfl rfl with ⟨r', hrun, -⟩
  rw [hrun]
  refine ⟨fun hsat => judge_feasible _ trace hempty hdec hsat, fun hunsat => ?_⟩
  -- The scope that was opened begins with the trace, as nothing was asserted before.
  refine judge_infeasible _ trace hempty hdec [] ?_ hunsat
  change r.solver.assertions.length :: r.solver.scopes = _
  rw [hempty, hscopes]
  rfl

end Judging

section Verdict

variable (config : RefinerConfig) (hdump : config.dumpPathFormula = false) (writable : Bool)
  (requests : List Request)

/-- Refinement over a new interval solver after a sequence of requests. -/
def after (config : RefinerConfig) (writable : Bool) (requests : List Request) :
    Refinement IntervalSolver :=
  performAll (initial IntervalSolver.initial config writable) requests

theorem balanced_after : Balanced IntervalSolver.view
    (initial IntervalSolver.initial config writable) (after config writable requests) :=
  balanced_performAll IntervalSolver.view IntervalSolver.tracked _ _
    (⟨rfl, rfl, rfl, .nil⟩ : Balanced IntervalSolver.view
      (initial IntervalSolver.initial config writable)
      (initial IntervalSolver.initial config writable))
    requests

include hdump

/-- A check begins by dropping what is kept, and comes to the trace with an idle solver. -/
theorem run_checkFeasible (a : Accessibility) (target : StateId) (trace : List Term)
    (htrace : traceTo a target = .ok trace) :
    ∃ r, Balanced IntervalSolver.view (initial IntervalSolver.initial config writable) r
      ∧ r.solution = none
      ∧ (checkFeasible a target).run (after config writable requests)
        = (examine target trace).run r := by
  rcases begun_of_checkFeasible IntervalSolver.view IntervalSolver.tracked _ _ a target
    (balanced_after config writable requests) with ⟨r, hr, hnone, hrun⟩
  refine ⟨r, hr, hnone, ?_⟩
  -- The configuration never changes, and it says that nothing is written to a file.
  have hoff : r.config.dumpPathFormula ≠ true := by
    rw [hr.config]
    exact Bool.eq_false_iff.mp hdump
  rw [hrun, run_inspect, htrace]
  dsimp only
  rw [run_dump, if_neg hoff]

end Verdict

section Examination

variable (start r : Refinement IntervalSolver) (target : StateId) (trace : List Term)
  (hempty : start.solver.assertions = []) (hscopes : start.solver.scopes = [])
  (hr : Balanced IntervalSolver.view start r) (hnone : r.solution = none)

include hempty hscopes hr hnone

/-- The interval solver gives out the references, and solves the trace where nothing else is
    asserted. -/
theorem run_examine : ∃ r₁ r' : Refinement IntervalSolver,
    r₁.solver.assertions = [] ∧ r₁.solver.scopes = []
    ∧ Holding IntervalSolver.view r start.solver.references r'
    ∧ (examine target trace).run r = match ((solve trace).run r₁).1 with
      | .error e => (.error e, r')
      | .ok none => (.ok true, r')
      | .ok (some interpolants) =>
        (do keepSolution target interpolants; return false : Step IntervalSolver Bool).run r' := by
  rcases examine_cases IntervalSolver.view IntervalSolver.tracked start r target trace
      (hr.references_of_none _ start r hnone) with
    ⟨e, r', -, ⟨r₁, hretain⟩, -⟩ | ⟨r₁, r', h₁, hr', hrun⟩
  -- The first way to fail is ruled out: this solver always gives out references.
  · exact absurd hretain (retainAll_ne_error r [] trace e r₁)
  · refine ⟨r₁, r', ?_, ?_, hr', hrun⟩
    · exact h₁.assertions.trans (hr.assertions.trans hempty)
    · exact h₁.marks.trans (hr.marks.trans hscopes)

variable (hsupported : Supported trace)

include hsupported

theorem examine_feasible (hsat : ∃ ν, ∀ t ∈ trace, t.Holds ν) :
    ∃ r', (examine target trace).run r = (.ok true, r') ∧ r'.solution = none := by
  rcases run_examine start r target trace hempty hscopes hr hnone with
    ⟨r₁, r', hassertions, hmarks, hr', hrun⟩
  rw [(solve_outcome r₁ trace hassertions hsupported hmarks).1 hsat] at hrun
  exact ⟨r', hrun, by rw [hr'.rest, hnone]⟩

/-- What is found for an infeasible trace are its interpolants, which have to be kept. -/
theorem examine_infeasible (hunsat : ¬ ∃ ν, ∀ t ∈ trace, t.Holds ν) :
    ∃ r' is, is.length = trace.length - 1 ∧ r'.solution = none
      ∧ r'.solver.references.Perm start.solver.references
      ∧ (examine target trace).run r
        = (do keepSolution target is; return false : Step IntervalSolver Bool).run r' := by
  rcases run_examine start r target trace hempty hscopes hr hnone with
    ⟨r₁, r', hassertions, hmarks, hr', hrun⟩
  rcases (solve_outcome r₁ trace hassertions hsupported hmarks).2 hunsat with ⟨is, his, hlength⟩
  rw [his] at hrun
  exact ⟨r', is, hlength, by rw [hr'.rest, hnone], hr'.references, hrun⟩

theorem examine_several (hunsat : ¬ ∃ ν, ∀ t ∈ trace, t.Holds ν) (hseveral : 1 < trace.length) :
    ∃ r' is, (examine target trace).run r = (.ok false, r') ∧ is ≠ []
      ∧ r'.solution = some ⟨target, is⟩ := by
  rcases examine_infeasible start r target trace hempty hscopes hr hnone hsupported hunsat with
    ⟨r', is, hlength, hnone', hrefs, hrun⟩
  rcases keepSolution_cases IntervalSolver.view IntervalSolver.tracked start r' target is hrefs with
    ⟨rfl, -⟩ | ⟨e, r₂, -, ⟨r₁, hretain⟩, -⟩ | ⟨r₂, hkeep, hne, -⟩
  -- Several blocks have a cut between them, hence an interpolant.
  · rw [List.length_nil] at hlength
    omega
  · exact absurd hretain (retainAll_ne_error r' [] is e r₁)
  · refine ⟨{ r₂ with solution := some ⟨target, is⟩ }, is, ?_, hne, rfl⟩
    rw [hrun, run_bind, hkeep]
    rfl

theorem examine_single (hunsat : ¬ ∃ ν, ∀ t ∈ trace, t.Holds ν) (hsingle : trace.length ≤ 1) :
    ∃ r', (examine target trace).run r = (.error (.contract (.noInterpolants target)), r')
      ∧ r'.solution = none := by
  rcases examine_infeasible start r target trace hempty hscopes hr hnone hsupported hunsat with
    ⟨r', is, hlength, hnone', -, hrun⟩
  -- No cut, no interpolant, and without one there is nothing to keep.
  rcases is with _ | ⟨i, is⟩
  · exact ⟨r', hrun, hnone'⟩
  · rw [List.length_cons] at hlength
    omega

end Examination

/-- The blocks of a trace, and what refinement answers for it. After any calls, for every state
    of a graph, if the blocks on the way to it can be aligned and the interval solver supports
    them: a trace that can hold is feasible and nothing is kept; one that cannot is infeasible,
    and its interpolants are kept, if there is a widening state before the target. Otherwise it
    is refused. -/
theorem checkFeasible_verdict (config : RefinerConfig) (hdump : config.dumpPathFormula = false)
    (writable : Bool) (requests : List Request) (g : ExploredGraph) (hg : g.Grown)
    (target : StateId) (htarget : target < g.size) :
    ∃ path, g.Ancestors target path ∧ ∀ (blocks : List StateRecord) (trace : List Term),
      List.Forall₂ g.HasBlock (path.filter g.widens ++ [target]) blocks →
      align (blocks.map StateRecord.formula) (blocks.map StateRecord.instances) = .ok trace →
      Supported trace →
      ∃ outcome r', (checkFeasible g.accessibility target).run (after config writable requests)
          = (outcome, r')
        ∧ ((∃ ν, ∀ t ∈ trace, t.Holds ν) → outcome = .ok true ∧ r'.solution = none)
        ∧ ((¬ ∃ ν, ∀ t ∈ trace, t.Holds ν) → path.filter g.widens ≠ []
          → outcome = .ok false ∧ ∃ is, is ≠ [] ∧ r'.solution = some ⟨target, is⟩)
        ∧ ((¬ ∃ ν, ∀ t ∈ trace, t.Holds ν) → path.filter g.widens = []
          → outcome = .error (.contract (.noInterpolants target)) ∧ r'.solution = none) := by
  rcases g.ancestors_exist hg target g.nodes[target] (List.getElem?_eq_getElem htarget) with
    ⟨path, hpath⟩
  refine ⟨path, hpath, fun blocks trace hblocks halign hsupported => ?_⟩
  have htrace : traceTo g.accessibility target = .ok trace := by
    rw [g.traceTo_eq hg target path hpath blocks hblocks, halign]
    rfl
  -- There is one block for each widening state on the way, and one for the target.
  have hlength : trace.length = (path.filter g.widens).length + 1 := by
    rw [length_of_align _ _ trace halign, List.length_map, ← hblocks.length_eq, List.length_append,
      List.length_singleton]
  rcases run_checkFeasible config hdump writable requests g.accessibility target trace htrace with
    ⟨r, hr, hnone, hrun⟩
  rw [hrun]
  -- There is one answer, whichever of the three cases it falls under.
  rcases hexamined : (examine target trace).run r with ⟨outcome, r'⟩
  refine ⟨outcome, r', rfl, fun hsat => ?_, fun hunsat hwidens => ?_, fun hunsat hwidens => ?_⟩
  · rcases examine_feasible _ r target trace rfl rfl hr hnone hsupported hsat with ⟨r'', h, hr''⟩
    cases hexamined.symm.trans h
    exact ⟨rfl, hr''⟩
  · have hseveral : 1 < trace.length := by
      have hpos := List.length_pos_iff.mpr hwidens
      omega
    rcases examine_several _ r target trace rfl rfl hr hnone hsupported hunsat hseveral with
      ⟨r'', is, h, hne, hr''⟩
    cases hexamined.symm.trans h
    exact ⟨rfl, is, hne, hr''⟩
  · have hsingle : trace.length ≤ 1 := by
      rw [hlength, hwidens]
      exact Nat.le_refl 1
    rcases examine_single _ r target trace rfl rfl hr hnone hsupported hunsat hsingle with
      ⟨r'', h, hr''⟩
    cases hexamined.symm.trans h
    exact ⟨rfl, hr''⟩

/-- A widening state where a variable is one and a target where it is two. -/
def clash : ExploredGraph :=
  ⟨[⟨.widening (.cmp .eq (.var "x@0") (.int 1)) ∅, none, [1]⟩,
    ⟨.new (.cmp .eq (.var "x@0") (.int 2)) ∅, some 0, []⟩], [0]⟩

theorem grown_clash : clash.Grown :=
  .successor _ clash 0 (.new (.cmp .eq (.var "x@0") (.int 2)) ∅) (.initial .empty _ .empty) rfl

theorem supported_clash :
    Supported [.cmp .eq (.var "x@0") (.int 1), .cmp .eq (.var "x@0") (.int 2)] := by
  refine ⟨fun t ht => ?_, ?_⟩
  · rcases List.mem_cons.mp ht with rfl | ht
    · exact ⟨_, rfl⟩
    · rw [List.mem_singleton.mp ht]
      exact ⟨_, rfl⟩
  · rintro x ⟨⟨t, ht, hformula⟩, -⟩
    rcases List.mem_cons.mp ht with rfl | ht
    · cases hformula
    · rw [List.mem_singleton.mp ht] at hformula
      cases hformula

theorem unsat_clash :
    ¬ ∃ ν, ∀ t ∈ [.cmp .eq (.var "x@0") (.int 1), .cmp .eq (.var "x@0") (.int 2)],
      Term.Holds ν t := by
  rintro ⟨ν, hν⟩
  -- The same variable would have to be one and two.
  rcases (Term.holds_cmp_iff ν .eq "x@0" 1).mp (hν _ List.mem_cons_self) with ⟨m, hm, hone⟩
  rcases (Term.holds_cmp_iff ν .eq "x@0" 2).mp (hν _ (List.mem_cons_of_mem _ List.mem_cons_self))
    with ⟨n, hn, htwo⟩
  cases hm.symm.trans hn
  rw [Comparison.holds, beq_iff_eq] at hone htwo
  cases hone.symm.trans htwo

/-- The variable cannot be one and two, so what was learned is kept for the cut between the
    blocks. -/
theorem checkFeasible_verdict_clash :
    ∃ r', (checkFeasible clash.accessibility 1).run (after .default true []) = (.ok false, r')
      ∧ ∃ is, is ≠ [] ∧ r'.solution = some ⟨1, is⟩ := by
  have hpath : clash.Ancestors 1 [0] := .found 1 0 _ [] rfl rfl (.root 0 _ rfl rfl)
  rcases checkFeasible_verdict .default rfl true [] clash grown_clash 1 (by decide) with
    ⟨path, hpath', hverdict⟩
  cases hpath'.unique clash 1 path [0] hpath
  have hwidens : [0].filter clash.widens = [0] := by decide
  rw [hwidens] at hverdict
  rcases hverdict
    [.widening (.cmp .eq (.var "x@0") (.int 1)) ∅, .new (.cmp .eq (.var "x@0") (.int 2)) ∅]
      [.cmp .eq (.var "x@0") (.int 1), .cmp .eq (.var "x@0") (.int 2)]
      (.cons (.own ⟨.widening (.cmp .eq (.var "x@0") (.int 1)) ∅, none, [1]⟩ rfl rfl)
        (.cons (.own ⟨.new (.cmp .eq (.var "x@0") (.int 2)) ∅, some 0, []⟩ rfl rfl) .nil))
      (by decide +kernel) supported_clash with
    ⟨outcome, r', hrun, -, hseveral, -⟩
  rcases hseveral unsat_clash (List.cons_ne_nil _ _) with ⟨rfl, hkept⟩
  exact ⟨r', hrun, hkept⟩

/-- A target without a widening state before it, and with a block that cannot hold. -/
def lone : ExploredGraph := ⟨[⟨.new (.bool false) ∅, none, []⟩], [0]⟩

/-- The one block on the way to such a target can be aligned, is supported and cannot hold, and
    yet the answer is not that the trace is infeasible. -/
theorem single_block_refused :
    lone.Grown ∧ lone.Ancestors 0 [] ∧ lone.HasBlock 0 (.new (.bool false) ∅)
      ∧ align [.bool false] [∅] = .ok [.bool false] ∧ Supported [.bool false]
      ∧ (¬ ∃ ν, ∀ t ∈ [.bool false], Term.Holds ν t)
      ∧ ((checkFeasible lone.accessibility 0).run (after .default true [])).1 ≠ .ok false
      ∧ ((checkFeasible lone.accessibility 0).run (after .default true [])).1
        = .error (.contract (.noInterpolants 0)) := by
  refine ⟨.initial .empty _ .empty, .root 0 _ rfl rfl,
    .own ⟨.new (.bool false) ∅, none, []⟩ rfl rfl, by decide +kernel, ?_, ?_, ?_, ?_⟩
  · refine ⟨fun t ht => ?_, ?_⟩
    · rw [List.mem_singleton.mp ht]
      exact ⟨_, rfl⟩
    · rintro x ⟨⟨t, ht, hformula⟩, -⟩
      rw [List.mem_singleton.mp ht] at hformula
      cases hformula
  · rintro ⟨ν, hν⟩
    cases hν _ List.mem_cons_self
  · decide +kernel
  · decide +kernel

end Refinement

end ActorCheck

import ActorCheck.Proofs.Refine.Slot

/-!
# What Was Learned

The precision is a record of the refinements that succeeded. Each of them appends the interpolants
that it found in the slot, in their order, and skips those that are known. So the precision lists
what was learned so far, at its first occurrences, and what it lists stays where it is.

Learning happens in two stages. The interpolants of one solution are first collected into a
precision of their own, which drops duplicates among them, and then joined to the precision. This
is the same as learning them one by one, because a predicate that the first stage drops would have
been known in the second (`Precision.join_ofTerms`).

Checks, refinements that are refused and changes to the sets of the exploration learn nothing.

## Main definitions

* `Refinement.lesson`: What a request takes from the slot to learn it.
* `Refinement.lessons`: The same for a sequence of requests, one list for each refinement.

## Theorems

* `Precision.predicates_learnAll_bottom`: Learning from nothing keeps first occurrences.
* `Precision.join_ofTerms`: Two stages of learning are one.
* `Refinement.precision_of_checkFeasible`: A check learns nothing.
* `Refinement.precision_of_perform`: A request learns its lesson.
* `Refinement.precision_eq_lessons`: The precision is exactly what was learned.
-/

namespace ActorCheck

namespace Precision

variable (p q : Precision) (x : Predicate) (xs ys : List Predicate)

theorem learn_of_known (h : x ∈ p.predicates) : p.learn x = p :=
  if_pos (List.contains_iff_mem.mpr h)

theorem learn_of_new (h : x ∉ p.predicates) : p.learn x = ⟨p.predicates ++ [x]⟩ :=
  if_neg fun hknown => h (List.contains_iff_mem.mp hknown)

theorem learnAll_append : p.learnAll (xs ++ ys) = (p.learnAll xs).learnAll ys :=
  List.foldl_append

theorem mem_learn (y : Predicate) : y ∈ (p.learn x).predicates ↔ y ∈ p.predicates ∨ y = x := by
  -- Learning something for the second time changes nothing.
  by_cases h : x ∈ p.predicates
  · rw [learn_of_known p x h]
    exact (or_iff_left_of_imp fun hy => hy ▸ h).symm
  · rw [learn_of_new p x h, List.mem_append, List.mem_singleton]

theorem mem_learnAll (y : Predicate) :
    y ∈ (p.learnAll xs).predicates ↔ y ∈ p.predicates ∨ y ∈ xs := by
  induction xs generalizing p with
  | nil => exact (or_iff_left List.not_mem_nil).symm
  | cons x xs ih =>
      refine (ih (p.learn x)).trans ?_
      rw [mem_learn, or_assoc, List.mem_cons]

/-- What is known stays in front. -/
theorem prefix_learnAll : p.predicates <+: (p.learnAll xs).predicates := by
  induction xs generalizing p with
  | nil => exact List.prefix_rfl
  | cons x xs ih =>
      refine List.IsPrefix.trans ?_ (ih (p.learn x))
      -- Either nothing is added, or it is added at the end.
      by_cases h : x ∈ p.predicates
      · exact (learn_of_known p x h).symm ▸ List.prefix_rfl
      · rw [learn_of_new p x h]
        exact List.prefix_append _ _

/-- Learning from nothing keeps every predicate at its first occurrence. -/
theorem predicates_learnAll_bottom : (bottom.learnAll xs).predicates = xs.eraseDups := by
  -- A predicate is learned exactly if it does not occur earlier in the list.
  induction xs using List.reverseRecOn with
  | nil => rfl
  | append_singleton xs x ih =>
      have hknown : x ∈ (bottom.learnAll xs).predicates ↔ x ∈ xs :=
        (mem_learnAll bottom xs x).trans (or_iff_right List.not_mem_nil)
      rw [learnAll_append, List.eraseDups_append, ← ih]
      change ((bottom.learnAll xs).learn x).predicates = _
      by_cases h : x ∈ xs
      · have hnothing : [x].removeAll xs = [] := by simp [List.removeAll, h]
        rw [learn_of_known _ x (hknown.mpr h), hnothing]
        exact (List.append_nil _).symm
      · have hall : [x].removeAll xs = [x] := by simp [List.removeAll, h]
        rw [learn_of_new _ x (mt hknown.mp h), hall]
        rfl

theorem join_learn : p.join (q.learn x) = (p.join q).learn x := by
  -- What the second part knows is known to both together as well, so it is learned again to no
  -- effect.
  by_cases h : x ∈ q.predicates
  · have hknown : x ∈ (p.join q).predicates := (mem_learnAll p _ x).mpr (Or.inr h)
    rw [learn_of_known q x h, learn_of_known _ x hknown]
  · rw [learn_of_new q x h]
    exact learnAll_append p _ [x]

/-- Collecting the terms of a solution first and joining them then is learning them one by one. -/
theorem join_ofTerms (terms : List Term) (role : Role) :
    p.join (ofTerms terms role) = p.learnAll (terms.map fun t => (t, role)) := by
  unfold ofTerms
  -- From the end of the list, since learning one more is the last thing that is done.
  induction terms.map (fun t => (t, role)) using List.reverseRecOn with
  | nil => rfl
  | append_singleton xs x ih =>
      rw [learnAll_append, learnAll_append, ← ih]
      exact join_learn p _ x

end Precision

namespace Refinement

section Calls

variable {σ ε : Type} [Solver σ ε] (view : σ → SolverView) (hview : Solver.Tracked view)
  (start r : Refinement σ) (a : Accessibility) (target : StateId)

include hview

theorem precision_of_examine (trace : List Term)
    (h : (view r.solver).references.Perm (view start.solver).references) :
    ((examine target trace).run r).2.precision = r.precision := by
  rcases examine_cases view hview start r target trace h with
    ⟨e, r', hrun, -, hr'⟩ | ⟨r₁, r', -, hr', hrun⟩
  · rw [hrun, hr'.rest]
  · have hsame : r'.precision = r.precision := by rw [hr'.rest]
    rw [hrun]
    -- Whatever comes of solving the trace, the precision is not touched any more.
    rcases ((solve trace).run r₁).1 with e | _ | is
    · exact hsame
    · exact hsame
    · dsimp only
      rw [run_bind]
      rcases keepSolution_cases view hview start r' target is hr'.references with
        ⟨-, hkeep⟩ | ⟨e, r₂, hkeep, -, hr₂⟩ | ⟨r₂, hkeep, -, hr₂⟩
      · rw [hkeep]
        exact hsame
      · rw [hkeep, ← hsame, hr₂.rest]
      · rw [hkeep, ← hsame, hr₂.rest]
        rfl

/-- A check learns nothing. -/
theorem precision_of_checkFeasible (hr : Balanced view start r) :
    ((checkFeasible a target).run r).2.precision = r.precision := by
  rcases run_dropSolution view hview start r hr with ⟨s, hdrop, hdropped⟩
  rw [checkFeasible_eq, run_bind, hdrop]
  change ((inspect a target).run { r with
    solver := s
    solution := none
    checks := r.checks + 1 }).2.precision = _
  rw [run_inspect]
  rcases traceTo a target with e | trace
  · rfl
  · dsimp only
    rcases dump_cases { r with solver := s, solution := none, checks := r.checks + 1 } trace with
      ⟨d, hdump⟩ | hdump
    · rw [hdump]
      exact precision_of_examine view hview start _ target trace
        (hdropped.references_of_none view start _ rfl)
    · rw [hdump]

end Calls

section History

variable {σ ε : Type} [Solver σ ε]

/-- What a request takes from the slot to learn it: the interpolants that are kept there, if the
    request is a refinement that succeeds. -/
def lesson (r : Refinement σ) : Request → List (List Term)
  | .refine a target =>
    match ((refine a target).run r).1 with
    | .ok _ => [r.cached]
    | .error _ => []
  | .check _ _ => []
  | .explore _ => []

/-- The interpolants that were in the slot at each refinement that succeeded, in the order of the
    refinements. -/
def lessons (r : Refinement σ) : List Request → List (List Term)
  | [] => []
  | request :: requests => lesson r request ++ lessons (perform r request) requests

/-- Lessons as predicates. -/
def learnedFrom (found : List (List Term)) : List Predicate :=
  found.flatten.map fun t => (t, .intermediate)

variable (view : σ → SolverView) (hview : Solver.Tracked view) (start r : Refinement σ)
  (hr : Balanced view start r)

include hview hr

/-- A request learns its lesson, and nothing else. -/
theorem precision_of_perform (request : Request) :
    (perform r request).precision = r.precision.learnAll (learnedFrom (lesson r request)) := by
  cases request with
  | check a target => exact precision_of_checkFeasible view hview start r a target hr
  | explore e => rfl
  | refine a target =>
      rcases run_refine_of_balanced view hview start r hr a target with ⟨s, hrun⟩
      unfold perform lesson
      dsimp only
      rw [hrun]
      -- Nothing is learned in the three cases that are refused. In the last one it is what was
      -- kept.
      rcases hsolution : r.solution with _ | solution
      · rfl
      · dsimp only
        split
        next => rfl
        next =>
          split
          next => rfl
          next =>
            have hcached : r.cached = solution.interpolants := by rw [cached, hsolution]
            dsimp only
            rw [Precision.join_ofTerms, learnedFrom, List.flatten_singleton, hcached]

omit hr in
/-- The precision after some requests, by induction on the requests from the first one on. -/
theorem precision_of_performAll (requests : List Request) (hr : Balanced view start r) :
    (performAll r requests).precision
      = r.precision.learnAll (learnedFrom (lessons r requests)) := by
  induction requests generalizing r with
  | nil => rfl
  | cons request requests ih =>
      -- The next request meets a state that is balanced again.
      have hnext := balanced_performAll view hview start r hr [request]
      have hstep := precision_of_perform view hview start r hr request
      have hsplit : learnedFrom (lessons r (request :: requests)) = learnedFrom (lesson r request)
          ++ learnedFrom (lessons (perform r request) requests) := by
        unfold learnedFrom
        rw [lessons, List.flatten_append, List.map_append]
      rw [hsplit, Precision.learnAll_append, ← hstep]
      exact ih (perform r request) hnext

end History

/-- With the interval solver, the precision after any requests consists of the interpolants that
    the successful refinements found in the slot, one list after the other, each predicate at its
    first occurrence and in the role of an intermediate one. A further request leaves the precision
    as a prefix of the next one. If it is a check, or a refinement that is refused, it leaves it as
    it is. -/
theorem precision_eq_lessons (solver : IntervalSolver) (config : RefinerConfig) (writable : Bool)
    (requests : List Request) :
    let start := initial solver config writable
    let r := performAll start requests
    r.precision.predicates
        = ((lessons start requests).flatten.map fun t => (t, Role.intermediate)).eraseDups
      ∧ (∀ request, r.precision.predicates <+: (perform r request).precision.predicates)
      ∧ (∀ a target, ((checkFeasible a target).run r).2.precision = r.precision)
      ∧ ∀ a target e, ((refine a target).run r).1 = .error e →
        ((refine a target).run r).2.precision = r.precision := by
  intro start r
  have hr : Balanced IntervalSolver.view start r :=
    balanced_of_requests IntervalSolver.view IntervalSolver.tracked start rfl requests
  have hlearns := precision_of_perform IntervalSolver.view IntervalSolver.tracked start r hr
  refine ⟨?_, fun request => ?_, fun a target => ?_, fun a target e he => ?_⟩
  · have hall := precision_of_performAll IntervalSolver.view IntervalSolver.tracked start start
      requests (balanced_of_requests IntervalSolver.view IntervalSolver.tracked start rfl [])
    exact (congrArg Precision.predicates hall).trans (Precision.predicates_learnAll_bottom _)
  · rw [hlearns request]
    exact Precision.prefix_learnAll _ _
  · exact precision_of_checkFeasible IntervalSolver.view IntervalSolver.tracked start r a target hr
  -- A refinement that is refused has no lesson, so it is among the requests that learn nothing.
  · have hnothing : lesson r (.refine a target) = [] := by
      unfold lesson
      dsimp only
      rw [he]
    have hstep := hlearns (.refine a target)
    rwa [hnothing] at hstep

/-- The clash is refuted and learned from twice. -/
def relearning : List Request :=
  [.check clash.accessibility 1, .refine clash.accessibility 1, .check clash.accessibility 1,
    .refine clash.accessibility 1]

/-- What the second refinement finds in the slot is known already. A third one finds nothing there
    and is refused. -/
theorem precision_eq_lessons_clash :
    (lessons (initial IntervalSolver.initial .default true) relearning).flatten.length = 2
      ∧ (performAll (initial IntervalSolver.initial .default true)
        relearning).precision.predicates.length = 1
      ∧ ((refine clash.accessibility 1).run (performAll
          (initial IntervalSolver.initial .default true) relearning)).2.precision
        = (performAll (initial IntervalSolver.initial .default true) relearning).precision := by
  have hrefused : ((refine clash.accessibility 1).run (performAll
      (initial IntervalSolver.initial .default true) relearning)).1
      = .error (.contract .missingInterpolationSolution) := by
    decide +kernel
  refine ⟨by decide +kernel, ?_, ?_⟩
  · rw [(precision_eq_lessons IntervalSolver.initial .default true relearning).1]
    decide +kernel
  · exact (precision_eq_lessons IntervalSolver.initial .default true relearning).2.2.2 _ _ _
      hrefused

end Refinement

end ActorCheck

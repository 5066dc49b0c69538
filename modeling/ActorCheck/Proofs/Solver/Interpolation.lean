import ActorCheck.Proofs.Solver.Decision
import ActorCheck.Proofs.Solver.Projection

/-!
# Interpolants

After a check that found a contradiction, the interval solver has one interpolant for
every cut of its innermost scope. It follows from all assertions before the cut,
contradicts those after it, and mentions common variables only. Neighbouring
interpolants are linked: one of them together with the assertion between the cuts
entails the next.

All of this follows from one fact. A valuation makes an interpolant true exactly if
the formulas before the cut can be made true without changing the meaning of a
variable that occurs after it. For a satisfiable prefix the missing values are taken
from an assignment to the prefix alone; variables that occur on both sides are
constrained by the projection, and no constraint relates two variables. For a
contradictory prefix neither side is ever the case.

For the step between two cuts this is used in both directions. A valuation that makes
the first interpolant and the next assertion true can be changed on variables before
the cut to make all formulas before the second cut true, hence the second interpolant,
which only mentions variables that were not changed.

## Main definitions

* `Constraints.Describes`: Constraints say what formulas say.
* `IntervalSolver.inner`: The assertions of the innermost scope, `outer` all before them.
* `IntervalSolver.Separates`: A formula is an interpolant between two lists of formulas.

## Theorems

* `Constraints.describes_of_ofTerms`: The constraints of formulas describe them.
* `Constraints.AdmitsOn.extend`: Values of some variables extend to all.
* `IntervalSolver.holds_cutInterpolant_iff`: What an interpolant says.
* `IntervalSolver.cutInterpolants_spec`: One interpolant for every cut.
* `IntervalSolver.interpolants_separate`: Interpolants separate what is before a cut from
  what is after it.
* `IntervalSolver.interpolants_chain`: An interpolant and the next assertion entail the
  next interpolant.
-/

namespace ActorCheck

namespace Constraints

theorem mem_vars (c : Constraints) (x : String) : x ∈ c.vars ↔ x ∈ c.bounds ∨ x ∈ c.truths := by
  rw [vars, Std.ExtTreeSet.mem_ofList, List.contains_iff_mem, List.mem_append,
    Std.ExtTreeMap.mem_keys, Std.ExtTreeMap.mem_keys]

/-- Constraints say what formulas say, and can be stated. -/
structure Describes (c : Constraints) (ts : List Term) : Prop where
  admits : ∀ ν, c.Admits ν ↔ ∀ t ∈ ts, t.Holds ν
  mem_vars : ∀ x, x ∈ c.vars ↔ ∃ t ∈ ts, x ∈ t.vars
  apart : ∀ x ∈ c.bounds, x ∉ c.truths
  stated : c.Stated

theorem literalsOfAll_of_addTerms (c c' : Constraints) (ts : List Term)
    (h : c.addTerms ts = .ok c') : ∃ ls, literalsOfAll true ts = .ok ls := by
  induction ts generalizing c with
  | nil => exact ⟨[], rfl⟩
  | cons t ts ih =>
      rw [addTerms] at h
      rcases (except_bind_ok _ _ _).mp h with ⟨ls, hls, h⟩
      rcases (except_bind_ok _ _ _).mp h with ⟨c₁, -, h⟩
      rcases ih c₁ h with ⟨ks, hks⟩
      refine ⟨ls ++ ks, ?_⟩
      rw [literalsOfAll, hls, hks]
      rfl

section Formulas

variable (c : Constraints) (ts : List Term) (h : ofTerms ts = .ok c)

include h

/-- The literals of formulas that have constraints, which collect them. -/
theorem collects_of_ofTerms : ∃ ls, Represents true ts ls ∧ literalsOfAll true ts = .ok ls
    ∧ Collects ls c ∧ c.Stated := by
  rcases literalsOfAll_of_addTerms empty c ts h with ⟨ls, hls⟩
  rw [ofTerms, addTerms_eq_addAll empty ts ls hls] at h
  exact ⟨ls, literalsOfAll_represents true ts ls hls, hls,
    collects_addAll [] ls empty c collects_empty h, stated_addAll empty c ls stated_empty h⟩

/-- The constraints of formulas describe them. -/
theorem describes_of_ofTerms : c.Describes ts := by
  -- The literals stand between the formulas and the constraints, and both sides are read off them.
  rcases collects_of_ofTerms c ts h with ⟨ls, hrep, hls, hcollects, hstated⟩
  refine ⟨fun ν => ?_, fun x => ?_, hcollects.apart, hstated⟩
  · rw [hcollects.admits, ← hrep.holds]
    rfl
  · rw [mem_vars, hcollects.compared, hcollects.asFormula, ← hrep.compared, ← hrep.asFormula]
    constructor
    · rintro (⟨t, ht, hx⟩ | ⟨t, ht, hx⟩)
      · exact ⟨t, ht, t.mem_vars_of_compared x hx⟩
      · exact ⟨t, ht, t.mem_vars_of_asFormula x hx⟩
    · exact fun hx => (role_of_literalsOfAll true ts ls hls x hx).symm

/-- Formulas among others that have constraints have constraints. -/
theorem ofTerms_of_subset (us : List Term) (hsub : us ⊆ ts) : ∃ c', ofTerms us = .ok c' := by
  rcases collects_of_ofTerms c ts h with ⟨ls, hrep, hls, hcollects, -⟩
  have haccepted : ∀ u ∈ us, ∃ ks, literalsOf true u = .ok ks :=
    fun u hu => literalsOf_isOk_of_mem true ts ls hls u (hsub hu)
  have hcases := ofTerms_cases us haccepted
  rcases hus : ofTerms us with e | c'
  · -- A variable with two roles among some of the formulas has them among all.
    rw [hus] at hcases
    rcases hcases with ⟨x, -, ⟨t, ht, hformula⟩, u, hu, hcompared⟩
    have hbound := (hcollects.compared x).mpr ((hrep.compared x).mp ⟨u, hsub hu, hcompared⟩)
    have htruth := (hcollects.asFormula x).mpr ((hrep.asFormula x).mp ⟨t, hsub ht, hformula⟩)
    exact absurd htruth (hcollects.apart x hbound)
  · exact ⟨c', rfl⟩

end Formulas

section Extending

variable (c : Constraints) (shared : Std.ExtTreeSet String) (ν : Valuation)

theorem admitsOn_of_admits (h : c.Admits ν) : c.AdmitsOn shared ν :=
  ⟨fun x _ => h.bounded x, fun x _ => h.settled x⟩

theorem AdmitsOn.congr (μ : Valuation) (hsame : ∀ x ∈ shared, μ x = ν x)
    (h : c.AdmitsOn shared μ) : c.AdmitsOn shared ν := by
  refine ⟨fun x hx => ?_, fun x hx => ?_⟩
  · rw [← hsame x hx]
    exact h.bounded x hx
  · rw [← hsame x hx]
    exact h.settled x hx

/-- Admitted values of some variables extend to all variables of satisfiable constraints,
    without a change to variables that are not constrained. -/
theorem AdmitsOn.extend (hapart : ∀ x ∈ c.bounds, x ∉ c.truths) (hsat : c.isSat = true)
    (h : c.AdmitsOn shared ν) : ∃ μ, c.Admits μ ∧ ∀ x, (x ∈ c.vars → x ∈ shared) → μ x = ν x := by
  rcases (isSat_iff c hapart).mp hsat with ⟨ν₀, hν₀⟩
  classical
  refine ⟨fun x => if x ∈ c.vars → x ∈ shared then ν x else ν₀ x, ⟨?_, ?_, hν₀.consistent⟩,
    fun x hx => if_pos hx⟩
  -- Every variable has its value from the one valuation or the other.
  · intro x b hb
    by_cases hx : x ∈ c.vars → x ∈ shared
    · rw [if_pos hx]
      have hvar : x ∈ c.vars := (c.mem_vars x).mpr (Or.inl (mem_of_getElem?_name c.bounds x b hb))
      exact h.bounded x (hx hvar) b hb
    · rw [if_neg hx]
      exact hν₀.bounded x b hb
  · intro x v hv
    by_cases hx : x ∈ c.vars → x ∈ shared
    · have hvar : x ∈ c.vars := (c.mem_vars x).mpr (Or.inr (mem_of_getElem?_name c.truths x v hv))
      exact (if_pos hx).trans (h.settled x (hx hvar) v hv)
    · exact (if_neg hx).trans (hν₀.settled x v hv)

end Extending

end Constraints

namespace IntervalSolver

section Cuts

variable (before after : List Term) (i : Term) (h : cutInterpolant before after = .ok i)

theorem cutInterpolant_cases (h : cutInterpolant before after = .ok i) :
    ∃ known, Constraints.ofTerms before = .ok known
      ∧ ((known.isSat = false ∧ i = .bool false)
        ∨ known.isSat = true ∧ ∃ wanted, Constraints.ofTerms after = .ok wanted
          ∧ i = known.project (known.vars ∩ wanted.vars)) := by
  rw [cutInterpolant] at h
  rcases (except_bind_ok _ _ _).mp h with ⟨known, hknown, h⟩
  refine ⟨known, hknown, ?_⟩
  by_cases hsat : known.isSat = true
  · rw [if_pos hsat] at h
    rcases (except_bind_ok _ _ _).mp h with ⟨wanted, hwanted, h⟩
    exact Or.inr ⟨hsat, wanted, hwanted, ((except_pure_ok _ _).mp h).symm⟩
  · rw [if_neg hsat] at h
    exact Or.inl ⟨Bool.eq_false_iff.mpr hsat, ((except_pure_ok _ _).mp h).symm⟩

include h

/-- An interpolant holds exactly if the formulas before the cut can be made true without
    changing the meaning of a variable that occurs after the cut. -/
theorem holds_cutInterpolant_iff (ν : Valuation) :
    i.Holds ν ↔ ∃ μ, (∀ t ∈ before, t.Holds μ) ∧ ∀ t ∈ after, ∀ x ∈ t.vars, μ x = ν x := by
  rcases cutInterpolant_cases before after i h with ⟨known, hknown, hi⟩
  have hdescribes := Constraints.describes_of_ofTerms known before hknown
  -- A contradictory prefix cannot be made true at all, and its interpolant is `false`.
  rcases hi with ⟨hunsat, rfl⟩ | ⟨hsat, wanted, hwanted, rfl⟩
  · refine iff_of_false nofun fun ⟨μ, hμ, _⟩ => ?_
    have hsat :=
      (Constraints.isSat_iff known hdescribes.apart).mpr ⟨μ, (hdescribes.admits μ).mpr hμ⟩
    rw [hunsat] at hsat
    cases hsat
  · have hafter := (Constraints.describes_of_ofTerms wanted after hwanted).mem_vars
    rw [Constraints.holds_project _ ν known hdescribes.stated]
    constructor
    · intro hν
      -- From the values of the shared variables, the rest is taken from an assignment to the prefix
      -- alone.
      rcases hν.extend known _ ν hdescribes.apart hsat with ⟨μ, hμ, hsame⟩
      refine ⟨μ, (hdescribes.admits μ).mp hμ, fun t ht x hx => hsame x fun hvar => ?_⟩
      exact Std.ExtTreeSet.mem_inter_iff.mpr ⟨hvar, (hafter x).mpr ⟨t, ht, hx⟩⟩
    · rintro ⟨μ, hμ, hsame⟩
      -- The other way round, the projection only looks at shared variables, which have kept their
      -- values.
      refine Constraints.AdmitsOn.congr known _ ν μ (fun x hx => ?_)
        (known.admitsOn_of_admits _ μ ((hdescribes.admits μ).mpr hμ))
      rcases (hafter x).mp (Std.ExtTreeSet.mem_inter_iff.mp hx).2 with ⟨t, ht, hx⟩
      exact hsame t ht x hx

/-- An interpolant mentions variables only that occur on both sides of the cut. -/
theorem vars_cutInterpolant (x : String) (hx : x ∈ i.vars) :
    (∃ t ∈ before, x ∈ t.vars) ∧ ∃ t ∈ after, x ∈ t.vars := by
  rcases cutInterpolant_cases before after i h with ⟨known, hknown, hi⟩
  rcases hi with ⟨-, rfl⟩ | ⟨-, wanted, hwanted, rfl⟩
  · exact absurd hx Std.ExtTreeSet.not_mem_empty
  · rcases Std.ExtTreeSet.mem_inter_iff.mp (Constraints.vars_project _ known x hx) with ⟨hb, ha⟩
    exact ⟨((Constraints.describes_of_ofTerms known before hknown).mem_vars x).mp hb,
      ((Constraints.describes_of_ofTerms wanted after hwanted).mem_vars x).mp ha⟩

end Cuts

theorem cutInterpolant_isOk (before after : List Term) (c : Constraints)
    (h : Constraints.ofTerms (before ++ after) = .ok c) :
    ∃ i, cutInterpolant before after = .ok i := by
  rcases Constraints.ofTerms_of_subset c _ h before (List.subset_append_left _ _) with
    ⟨known, hknown⟩
  rcases Constraints.ofTerms_of_subset c _ h after (List.subset_append_right _ _) with
    ⟨wanted, hwanted⟩
  rw [cutInterpolant, hknown, hwanted]
  change ∃ i, (if known.isSat then _ else _) = Except.ok i
  split
  next => exact ⟨_, rfl⟩
  next => exact ⟨_, rfl⟩

/-- There is one interpolant for every cut of a list of formulas. -/
theorem cutInterpolants_spec (before inner : List Term) (c : Constraints)
    (h : Constraints.ofTerms (before ++ inner) = .ok c) :
    ∃ is, cutInterpolants before inner = .ok is ∧ is.length = inner.length - 1
      ∧ ∀ k i, is[k]? = some i
        → cutInterpolant (before ++ inner.take (k + 1)) (inner.drop (k + 1)) = .ok i := by
  induction inner generalizing before with
  | nil => exact ⟨[], rfl, rfl, nofun⟩
  | cons t ts ih =>
      rcases ts with _ | ⟨u, ts⟩
      · exact ⟨[], rfl, rfl, nofun⟩
      -- The first formula goes over to the prefix, and the other cuts lie behind it.
      · rw [List.append_cons] at h
        rcases cutInterpolant_isOk _ _ c h with ⟨i, hi⟩
        rcases ih (before ++ [t]) h with ⟨is, his, hlength, hcut⟩
        refine ⟨i :: is, ?_, ?_, fun k j hj => ?_⟩
        · rw [cutInterpolants, hi, his]
          · rfl
          · exact nofun
        · rw [List.length_cons, hlength]
          rfl
        · cases k with
          | zero =>
              cases hj
              exact hi
          | succ k =>
              rw [List.take_succ_cons, List.append_cons]
              exact hcut k j hj

/-- The assertions before the innermost scope. -/
def outer (s : IntervalSolver) : List Term := s.assertions.take (s.scopes.head?.getD 0)

/-- The assertions of the innermost scope. -/
def inner (s : IntervalSolver) : List Term := s.assertions.drop (s.scopes.head?.getD 0)

theorem outer_append_inner (s : IntervalSolver) : s.outer ++ s.inner = s.assertions :=
  List.take_append_drop _ _

/-- A formula follows from all that is before a cut, contradicts all that is after it, and
    mentions variables only that occur on both sides. -/
structure Separates (before after : List Term) (i : Term) : Prop where
  follows : ∀ ν, (∀ t ∈ before, t.Holds ν) → i.Holds ν
  contradicts : ∀ ν, i.Holds ν → ¬ ∀ t ∈ after, t.Holds ν
  shared : ∀ x ∈ i.vars, (∃ t ∈ before, x ∈ t.vars) ∧ ∃ t ∈ after, x ∈ t.vars

/-- Between formulas that cannot hold together, the interpolant separates. -/
theorem separates_of_cutInterpolant (before after : List Term) (i : Term)
    (h : cutInterpolant before after = .ok i)
    (hunsat : ¬ ∃ ν, ∀ t ∈ before ++ after, t.Holds ν) : Separates before after i := by
  refine ⟨fun ν hν => ?_, fun ν hi hafter => hunsat ?_, vars_cutInterpolant before after i h⟩
  · exact (holds_cutInterpolant_iff before after i h ν).mpr ⟨ν, hν, fun _ _ _ _ => rfl⟩
  · -- Formulas before the cut hold for other values of variables that the rest does not mention.
    rcases (holds_cutInterpolant_iff before after i h ν).mp hi with ⟨μ, hbefore, hsame⟩
    refine ⟨μ, List.forall_mem_append.mpr ⟨hbefore, fun t ht => ?_⟩⟩
    rw [Term.Holds, Term.eval_congr μ ν t (hsame t ht)]
    exact hafter t ht

/-- An interpolant and the formula after its cut entail the interpolant for the next cut. -/
theorem next_of_cutInterpolant (before after : List Term) (a i j : Term)
    (hi : cutInterpolant before (a :: after) = .ok i)
    (hj : cutInterpolant (before ++ [a]) after = .ok j) (ν : Valuation)
    (hiν : i.Holds ν) (haν : a.Holds ν) : j.Holds ν := by
  rcases (holds_cutInterpolant_iff before (a :: after) i hi ν).mp hiν with ⟨μ, hbefore, hsame⟩
  -- The valuation for the first cut agrees with the given one on the formula between the cuts, too.
  rw [List.forall_mem_cons] at hsame
  refine (holds_cutInterpolant_iff (before ++ [a]) after j hj ν).mpr ⟨μ, ?_, hsame.2⟩
  rw [List.forall_mem_append, List.forall_mem_singleton]
  refine ⟨hbefore, ?_⟩
  rw [Term.Holds, Term.eval_congr μ ν a hsame.1]
  exact haν

/-- A remembered verdict is the verdict on the current assertions. -/
def Remembers (s : IntervalSolver) : Prop := ∀ v, s.lastCheck = some v → s.verdict = .ok v

theorem remembers_perform (s : IntervalSolver) (r : Request) (hs : s.Remembers) :
    (s.perform r).Remembers := by
  have hdoes := s.does_of_perform r
  generalize s.perform r = s' at hdoes
  generalize s.succeeds r = success at hdoes
  cases hdoes with
  -- Calls that change the assertions forget the verdict.
  | opened => exact nofun
  | closed => exact nofun
  | asserted => exact nofun
  | forgotten => exact nofun
  | @checked v hv =>
      intro w hw
      cases hw
      exact hv
  | _ => exact hs

theorem remembers_after (requests : List Request) : (after requests).Remembers :=
  after_induction Remembers nofun remembers_perform requests

section Contradiction

variable (s : IntervalSolver) (h : s.verdict = .ok .unsat)

include h

/-- Contradictory assertions have constraints that nothing satisfies. -/
theorem ofTerms_of_unsat : ∃ c, Constraints.ofTerms s.assertions = .ok c
    ∧ ¬ ∃ ν, ∀ t ∈ s.assertions, t.Holds ν := by
  rw [verdict] at h
  rcases (except_bind_ok _ _ _).mp h with ⟨c, hc, h⟩
  have hdescribes := Constraints.describes_of_ofTerms c s.assertions hc
  refine ⟨c, hc, ?_⟩
  rintro ⟨ν, hν⟩
  have hsat := (Constraints.isSat_iff c hdescribes.apart).mpr ⟨ν, (hdescribes.admits ν).mpr hν⟩
  rw [if_pos hsat] at h
  cases h

/-- Contradictory assertions have an interpolant for every cut of the innermost scope. -/
theorem scopeInterpolants_of_unsat : ∃ is, s.scopeInterpolants = .ok is
    ∧ is.length = s.inner.length - 1
    ∧ ∀ k i, is[k]? = some i
      → cutInterpolant (s.outer ++ s.inner.take (k + 1)) (s.inner.drop (k + 1)) = .ok i := by
  rcases ofTerms_of_unsat s h with ⟨c, hc, -⟩
  rw [← outer_append_inner] at hc
  exact cutInterpolants_spec s.outer s.inner c hc

end Contradiction

/-- Right after a check that found a contradiction there is one interpolant for every cut of
    the innermost scope. It follows from all assertions before the cut, contradicts those
    after it, and mentions common variables only. -/
theorem interpolants_separate (requests : List Request)
    (h : (check.run (after requests)).1 = .ok .unsat) :
    ∃ is, (interpolants.run (check.run (after requests)).2).1 = .ok is
      ∧ is.length = max (after requests).inner.length 1 - 1
      ∧ ∀ k i, is[k]? = some i
        → Separates ((after requests).outer ++ (after requests).inner.take (k + 1))
          ((after requests).inner.drop (k + 1)) i := by
  have hverdict : (after requests).verdict = .ok .unsat := by
    rw [run_check] at h
    rcases hverdict : (after requests).verdict with e | v
    · rw [hverdict] at h
      cases h
    · rw [hverdict] at h
      exact h
  rcases scopeInterpolants_of_unsat _ hverdict with ⟨is, his, hlength, hcut⟩
  refine ⟨is, ?_, by omega, fun k i hi => ?_⟩
  · have hchecked : (check.run (after requests)).2
        = { after requests with lastCheck := some .unsat } := by
      rw [run_check, hverdict]
    rw [hchecked, run_interpolants, if_pos rfl]
    exact his
  · refine separates_of_cutInterpolant _ _ i (hcut k i hi) ?_
    rw [List.append_assoc, List.take_append_drop, outer_append_inner]
    exact (ofTerms_of_unsat _ hverdict).choose_spec.2

/-- Calls that lead to a contradiction in an inner scope: an outer scope excludes the lower
    end of an interval, and the inner one needs the value of that end. -/
def skippedEnd : List Request :=
  [.assert (.not (.cmp .eq (.var "x") (.int 0))), .push,
    .assert (.cmp .ge (.var "x") (.int 0)),
    .assert (.conj [.var "b", .cmp .gt (.int 4) (.var "y")]),
    .assert (.cmp .lt (.var "x") (.int 1))]

/-- Between an outer scope that excludes an end of its interval and a contradiction in an
    inner one, the end is stated where it has moved to. -/
theorem interpolants_separate_skipped :
    ∃ is, (interpolants.run (check.run (after skippedEnd)).2).1 = .ok is
      ∧ is.length = max (after skippedEnd).inner.length 1 - 1
      ∧ ∀ k i, is[k]? = some i
        → Separates ((after skippedEnd).outer ++ (after skippedEnd).inner.take (k + 1))
          ((after skippedEnd).inner.drop (k + 1)) i :=
  interpolants_separate skippedEnd (by decide +kernel)

/-- As long as the last verdict is a contradiction, an interpolant and the assertion after
    its cut entail the interpolant for the next cut. -/
theorem interpolants_chain (requests : List Request)
    (h : (after requests).lastCheck = some .unsat) :
    ∃ is, (interpolants.run (after requests)).1 = .ok is
      ∧ is.length = (after requests).inner.length - 1
      ∧ ∀ k i a j, is[k]? = some i → (after requests).inner[k + 1]? = some a
        → is[k + 1]? = some j → ∀ ν, i.Holds ν → a.Holds ν → j.Holds ν := by
  have hverdict := remembers_after requests _ h
  rcases scopeInterpolants_of_unsat _ hverdict with ⟨is, his, hlength, hcut⟩
  refine ⟨is, ?_, hlength, fun k i a j hi ha hj => ?_⟩
  · rw [run_interpolants, if_pos h, his]
  · -- The assertion moves from behind the first cut to before the second.
    rcases List.getElem?_eq_some_iff.mp ha with ⟨hk, ha⟩
    have hi' := hcut k i hi
    have hj' := hcut (k + 1) j hj
    rw [List.drop_eq_getElem_cons hk, ha] at hi'
    rw [List.take_succ_eq_append_getElem hk, ha, ← List.append_assoc] at hj'
    exact next_of_cutInterpolant _ _ a i j hi' hj'

/-- The contradiction comes after two cuts, and what holds at the first leads to what holds at the
    second. -/
theorem interpolants_chain_skipped :
    ∃ is, (interpolants.run (after (skippedEnd ++ [.check]))).1 = .ok is
      ∧ is.length = (after (skippedEnd ++ [.check])).inner.length - 1
      ∧ ∀ k i a j, is[k]? = some i → (after (skippedEnd ++ [.check])).inner[k + 1]? = some a
        → is[k + 1]? = some j → ∀ ν, i.Holds ν → a.Holds ν → j.Holds ν :=
  interpolants_chain (skippedEnd ++ [.check]) (by decide +kernel)

/-- The value zero is skipped, so the variable is at least one before either cut. -/
example : (interpolants.run (after (skippedEnd ++ [.check]))).1
    = .ok [.cmp .ge (.var "x") (.int 1), .cmp .ge (.var "x") (.int 1)] := by
  decide +kernel

end IntervalSolver

end ActorCheck

import ActorCheck.Proofs.Solver.Calls
import ActorCheck.Proofs.Solver.Consistency

/-!
# The Fragment Is Decided

Whatever was called before, a check of the interval solver answers `sat` exactly if
some assignment makes all assertions true, and `unsat` otherwise; it has no third
answer. An assignment gives integers to the variables in comparisons and truth values
to those used as formulas. If a variable is used in both ways there is no assignment
that could be meant, and the check may fail. It never fails otherwise.

The literals of all assertions carry the proof. They hold exactly if the assertions
do, the constraints collect them, and constraints are satisfiable exactly if they
admit an assignment.

## Main definitions

* `Satisfies`: An assignment makes formulas true.

## Theorems

* `Constraints.ofTerms_cases`: The constraints of formulas of the fragment.
* `IntervalSolver.check_decides`: What a check answers after any calls.
-/

namespace ActorCheck

/-- An assignment of integers to the compared variables and of truth values to those
    used as formulas makes all formulas of a list true. -/
structure Satisfies (ν : Valuation) (ts : List Term) : Prop where
  compared : ∀ x, (∃ t ∈ ts, t.Compared x) → ∃ n, ν x = .int n
  asFormula : ∀ x, (∃ t ∈ ts, t.AsFormula x) → ∃ b, ν x = .bool b
  holds : ∀ t ∈ ts, t.Holds ν

theorem literalsOfAll_isOk (ts : List Term) (hts : ∀ t ∈ ts, ∃ ls, literalsOf true t = .ok ls) :
    ∃ ls, literalsOfAll true ts = .ok ls := by
  induction ts with
  | nil => exact ⟨[], rfl⟩
  | cons t ts ih =>
      rcases hts t List.mem_cons_self with ⟨ls, hls⟩
      rcases ih fun u hu => hts u (List.mem_cons_of_mem t hu) with ⟨ks, hks⟩
      refine ⟨ls ++ ks, ?_⟩
      rw [literalsOfAll, hls, hks]
      rfl

theorem Represents.satisfies_iff (ts : List Term) (ls : List Literal) (h : Represents true ts ls)
    (ν : Valuation) : Satisfies ν ts ↔ ∀ l ∈ ls, l.Holds ν := by
  constructor
  · intro hν
    exact (h.holds ν).mp hν.holds
  · intro hls
    -- Every role of a variable has left a literal, and a true literal fixes the kind of its value.
    refine ⟨fun x hx => ?_, fun x hx => ?_, (h.holds ν).mpr hls⟩
    · rcases (h.compared x).mp hx with ⟨rel, n, hbound⟩
      rcases hls _ hbound with ⟨m, hm, _⟩
      exact ⟨m, hm⟩
    · rcases (h.asFormula x).mp hx with ⟨b, htruth⟩
      exact ⟨b, hls _ htruth⟩

/-- The constraints of formulas of the fragment admit exactly the assignments that satisfy
    the formulas. The only error is a variable that is used in both ways. -/
theorem Constraints.ofTerms_cases (ts : List Term)
    (hts : ∀ t ∈ ts, ∃ ls, literalsOf true t = .ok ls) :
    match ofTerms ts with
    | .ok c => (∀ ν, c.Admits ν ↔ Satisfies ν ts) ∧ (c.isSat = true ↔ ∃ ν, c.Admits ν)
    | .error e => ∃ x, e = .sortMismatch x
        ∧ (∃ t ∈ ts, t.AsFormula x) ∧ ∃ t ∈ ts, t.Compared x := by
  rcases literalsOfAll_isOk ts hts with ⟨ls, hls⟩
  have hrep := literalsOfAll_represents true ts ls hls
  rw [ofTerms, addTerms_eq_addAll empty ts ls hls]
  -- Formulas of the fragment are their literals, so only adding these can fail.
  rcases hadd : empty.addAll ls with e | c
  · rcases sortMismatch_of_addAll [] ls empty collects_empty e hadd with ⟨x, he, hbound, htruth⟩
    exact ⟨x, he, (hrep.asFormula x).mpr htruth, (hrep.compared x).mpr hbound⟩
  · have hc : Collects ls c := collects_addAll [] ls empty c collects_empty hadd
    refine ⟨fun ν => ?_, isSat_iff c hc.apart⟩
    rw [hc.admits, hrep.satisfies_iff]

namespace IntervalSolver

/-- After any calls, a check answers `sat` if some assignment makes all assertions true
    and `unsat` otherwise. It fails only if a variable is used both as a formula and in a
    comparison, and blames such a variable. -/
theorem check_decides (requests : List Request) :
    match (check.run (after requests)).1 with
    | .ok verdict => (verdict = .sat ↔ ∃ ν, Satisfies ν (after requests).assertions)
        ∧ (verdict = .sat ∨ verdict = .unsat)
    | .error e => ∃ x, e = .sortMismatch x
        ∧ (∃ t ∈ (after requests).assertions, t.AsFormula x)
        ∧ ∃ t ∈ (after requests).assertions, t.Compared x := by
  have hcases := Constraints.ofTerms_cases (after requests).assertions (accepted_after requests)
  rw [run_check, verdict]
  rcases hterms : Constraints.ofTerms (after requests).assertions with e | c
  · rw [hterms] at hcases
    exact hcases
  · rw [hterms] at hcases
    rcases hcases with ⟨hadmits, hsat⟩
    -- The verdict says whether the constraints are satisfiable.
    have hsome : c.isSat = true ↔ ∃ ν, Satisfies ν (after requests).assertions :=
      hsat.trans (exists_congr hadmits)
    change ((if c.isSat then Verdict.sat else .unsat) = .sat ↔ _) ∧ _
    rw [← hsome]
    by_cases h : c.isSat = true
    · rw [if_pos h]
      exact ⟨⟨fun _ => h, fun _ => rfl⟩, Or.inl rfl⟩
    · rw [if_neg h]
      exact ⟨⟨nofun, fun h' => absurd h' h⟩, Or.inr rfl⟩

/-- A number that is not negative, and a formula that rules out all such numbers. -/
def exclusions : List Term :=
  [.cmp .ge (.var "x") (.int 0),
    .not (.disj [.cmp .eq (.var "x") (.int 1), .cmp .eq (.int 0) (.var "x"),
      .cmp .ge (.var "x") (.int 3), .cmp .eq (.var "x") (.int 2)])]

/-- Both formulas are accepted, and they are what is asserted when the check is made. Three
    exclusions leave nothing between zero and two, so no assignment makes the formulas true. -/
theorem check_decides_exclusions :
    (∀ t ∈ exclusions, ∀ s, succeeds s (.assert t) = true)
      ∧ (after (exclusions.map .assert)).assertions = exclusions
      ∧ (check.run (after (exclusions.map .assert))).1 = .ok .unsat
      ∧ ¬∃ ν, Satisfies ν exclusions := by
  have haccepted : ∀ t ∈ exclusions, ∃ ls, literalsOf true t = .ok ls := by
    simp only [exclusions, List.forall_mem_cons]
    exact ⟨⟨_, rfl⟩, ⟨_, rfl⟩, List.forall_mem_nil _⟩
  rcases asserted_of_accepted exclusions haccepted initial with ⟨hsucceeds, hasserted⟩
  have hchecked : (check.run (after (exclusions.map .assert))).1 = .ok .unsat := by decide
  have hdecides := check_decides (exclusions.map .assert)
  rw [hchecked, after, hasserted] at hdecides
  refine ⟨hsucceeds, hasserted, hchecked, fun hsome => ?_⟩
  exact nomatch hdecides.1.mpr hsome

end IntervalSolver

end ActorCheck

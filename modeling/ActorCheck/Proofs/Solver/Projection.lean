import ActorCheck.Proofs.Solver.Consistency

/-!
# What a Projection Says

The formula that states the constraints on some variables holds under a valuation
exactly if the valuation gives these variables values that their constraints admit.

For one variable this says that the literals of its bounds are true of exactly the
values the bounds admit. Three things could go wrong, and each is excluded by how
bounds come about. A value that no literal denotes could have to be written; but ends
lie at most one beyond the machine integers, also after skipping, and there a strict
comparison says the same. An excluded value could be dropped that still matters; but
it is dropped outside the ends only, and a skipped end is not excluded. And bounds
could have no literals at all, so that nothing would say that the variable is an
integer; but bounds are kept for variables that some literal has restricted.

## Main definitions

* `Bounds.InRange`: Ends and excluded values that literals can have led to.
* `Constraints.Stated`: All bounds are in range and restrict something.
* `Constraints.AdmitsOn`: A valuation gives some variables admitted values.

## Theorems

* `Bounds.holds_literals`: The literals of bounds hold for the admitted values.
* `Constraints.stated_addAll`: What literals are collected to can be stated.
* `Constraints.holds_project`: A projection says what the constraints admit.
* `Constraints.vars_project`: A projection mentions the chosen variables only.
-/

namespace ActorCheck

namespace Term

theorem holds_conjOf (ν : Valuation) (ts : List Term) :
    (conjOf ts).Holds ν ↔ ∀ t ∈ ts, t.Holds ν := by
  rcases ts with _ | ⟨t, _ | ⟨u, ts⟩⟩
  · exact iff_of_true rfl nofun
  · rw [conjOf, List.forall_mem_singleton]
  · exact eval_conj_iff ν _

theorem mem_vars_conjOf (x : String) (ts : List Term) :
    x ∈ (conjOf ts).vars ↔ ∃ t ∈ ts, x ∈ t.vars := by
  rcases ts with _ | ⟨t, _ | ⟨u, ts⟩⟩
  · exact iff_of_false Std.ExtTreeSet.not_mem_empty nofun
  · simp only [conjOf, List.mem_singleton, exists_eq_left]
  · exact mem_varsAll x _

theorem holds_not_eq_iff (ν : Valuation) (x : String) (m : Int64) :
    (not (cmp .eq (var x) (int m))).Holds ν ↔ ∃ n, ν x = .int n ∧ n ≠ m.toInt := by
  rw [Holds, eval_not_iff, Bool.not_true, eval_cmp_var_left]
  simp only [Comparison.holds, beq_eq_false_iff_ne]

theorem holds_cmp_iff (ν : Valuation) (op : Comparison) (x : String) (m : Int64) :
    (cmp op (var x) (int m)).Holds ν ↔ ∃ n, ν x = .int n ∧ op.holds n m.toInt = true :=
  eval_cmp_var_left ν op x m true

end Term

theorem toInt64?_eq_none (n : Int) (h : toInt64? n = none) :
    n < Int64.minValue.toInt ∨ Int64.maxValue.toInt < n := by
  by_contra hrange
  rw [toInt64?, if_pos (by omega)] at h
  cases h

namespace Bounds

/-- Ends and excluded values that literals can have led to. An end lies at most one
    beyond the machine integers, on the side that excludes all of them. -/
structure InRange (b : Bounds) : Prop where
  lo : ∀ l, b.lo = some l → Int64.minValue.toInt ≤ l ∧ l ≤ Int64.maxValue.toInt + 1
  hi : ∀ h, b.hi = some h → Int64.minValue.toInt - 1 ≤ h ∧ h ≤ Int64.maxValue.toInt
  excluded : ∀ n ∈ b.excluded, Int64.minValue.toInt ≤ n ∧ n ≤ Int64.maxValue.toInt

section Restriction

theorem inRange_full : full.InRange :=
  ⟨nofun, nofun, fun _ hn => absurd hn Std.ExtTreeSet.not_mem_empty⟩

variable (b : Bounds) (hb : b.InRange) (n : Int)

include hb

theorem inRange_raise (hmin : Int64.minValue.toInt ≤ n) (hmax : n ≤ Int64.maxValue.toInt + 1) :
    (b.raise n).InRange := by
  refine ⟨fun l hl => ?_, hb.hi, hb.excluded⟩
  have heq : (b.lo.map fun k => max k n).getD n = l := Option.some.inj hl
  -- The new end is the larger one of the two, and both of them are in range.
  rcases hlo : b.lo with _ | k
  · rw [hlo, Option.map_none, Option.getD_none] at heq
    omega
  · have hk := hb.lo k hlo
    rw [hlo, Option.map_some, Option.getD_some] at heq
    omega

theorem inRange_lower (hmin : Int64.minValue.toInt - 1 ≤ n) (hmax : n ≤ Int64.maxValue.toInt) :
    (b.lower n).InRange := by
  refine ⟨hb.lo, fun h hh => ?_, hb.excluded⟩
  have heq : (b.hi.map fun k => min k n).getD n = h := Option.some.inj hh
  rcases hhi : b.hi with _ | k
  · rw [hhi, Option.map_none, Option.getD_none] at heq
    omega
  · have hk := hb.hi k hhi
    rw [hhi, Option.map_some, Option.getD_some] at heq
    omega

theorem inRange_exclude (hmin : Int64.minValue.toInt ≤ n) (hmax : n ≤ Int64.maxValue.toInt) :
    (b.exclude n).InRange := by
  refine ⟨hb.lo, hb.hi, fun m hm => ?_⟩
  rw [exclude, Std.ExtTreeSet.mem_insert, Std.LawfulEqCmp.compare_eq_iff_eq] at hm
  rcases hm with rfl | hm
  · exact ⟨hmin, hmax⟩
  · exact hb.excluded m hm

theorem inRange_restrict (rel : BoundRel) (m : Int64) : (b.restrict rel m.toInt).InRange := by
  have hmin := Int64.minValue_le_toInt m
  have hmax := Int64.toInt_le m
  -- A strict relation moves the end by one, which may take it beyond the machine integers.
  cases rel with
  | eq => exact inRange_lower _ (inRange_raise b hb _ hmin (by omega)) _ (by omega) hmax
  | ne => exact inRange_exclude b hb _ hmin hmax
  | lt => exact inRange_lower b hb _ (by omega) (by omega)
  | le => exact inRange_lower b hb _ (by omega) hmax
  | gt => exact inRange_raise b hb _ (by omega) (by omega)
  | ge => exact inRange_raise b hb _ hmin (by omega)

omit hb in
/-- Restricted bounds have an end or an excluded value. -/
theorem restrict_ne_full (rel : BoundRel) : b.restrict rel n ≠ full := by
  intro h
  cases rel with
  | eq | lt | le => cases congrArg Bounds.hi h
  | gt | ge => cases congrArg Bounds.lo h
  | ne =>
      have hempty : b.excluded.insert n = ∅ := congrArg Bounds.excluded h
      refine absurd (?_ : n ∈ (∅ : Std.ExtTreeSet Int)) Std.ExtTreeSet.not_mem_empty
      rw [← hempty]
      exact Std.ExtTreeSet.mem_insert_self

end Restriction

section Ends

variable (x : String) (ν : Valuation)

theorem holds_atLeast (l : Int) (hmin : Int64.minValue.toInt ≤ l)
    (hmax : l ≤ Int64.maxValue.toInt + 1) :
    (atLeast x l).Holds ν ↔ ∃ n, ν x = .int n ∧ l ≤ n := by
  rw [atLeast]
  rcases hl : toInt64? l with _ | m
  · -- The only value that no literal denotes is the one beyond the greatest.
    have hbeyond := toInt64?_eq_none l hl
    rw [Term.holds_cmp_iff]
    simp only [Comparison.holds, decide_eq_true_eq]
    refine exists_congr fun n => and_congr_right fun _ => ?_
    omega
  · rw [Term.holds_cmp_iff, toInt_toInt64? l m hl]
    simp only [Comparison.holds, decide_eq_true_eq]

theorem holds_atMost (h : Int) (hmin : Int64.minValue.toInt - 1 ≤ h)
    (hmax : h ≤ Int64.maxValue.toInt) :
    (atMost x h).Holds ν ↔ ∃ n, ν x = .int n ∧ n ≤ h := by
  rw [atMost]
  rcases hh : toInt64? h with _ | m
  -- Here it is the one below the least.
  · have hbeyond := toInt64?_eq_none h hh
    rw [Term.holds_cmp_iff]
    simp only [Comparison.holds, decide_eq_true_eq]
    refine exists_congr fun n => and_congr_right fun _ => ?_
    omega
  · rw [Term.holds_cmp_iff, toInt_toInt64? h m hh]
    simp only [Comparison.holds, decide_eq_true_eq]

theorem pinned?_cases (lo hi : Option Int) (t : Term) (h : pinned? x lo hi = some t) :
    ∃ m : Int64, lo = some m.toInt ∧ hi = some m.toInt ∧ t = .cmp .eq (.var x) (.int m) := by
  unfold pinned? at h
  split at h
  next l k =>
    split at h
    next heq =>
      rcases Option.map_eq_some_iff.mp h with ⟨m, hm, rfl⟩
      have hl := toInt_toInt64? l m hm
      exact ⟨m, by rw [hl], by rw [hl, heq], rfl⟩
    next => cases h
  next => cases h

theorem mem_exclusions (lo hi : Option Int) (points : List Int) (t : Term) :
    t ∈ exclusions x lo hi points ↔ ∃ p ∈ points, isInside lo hi p = true
      ∧ ∃ m, toInt64? p = some m ∧ t = .not (.cmp .eq (.var x) (.int m)) := by
  rw [exclusions, List.mem_filterMap]
  refine exists_congr fun p => and_congr_right fun _ => ?_
  by_cases hp : isInside lo hi p = true
  · rw [if_pos hp, Option.map_eq_some_iff, and_iff_right hp]
    exact exists_congr fun m => and_congr_right fun _ => eq_comm
  · rw [if_neg hp]
    exact ⟨nofun, fun h => absurd h.1 hp⟩

/-- A point that is not strictly inside an interval is on or beyond one of its ends. -/
theorem beyond_of_not_isInside (lo hi : Option Int) (p : Int) (h : isInside lo hi p ≠ true) :
    (∃ l, lo = some l ∧ p ≤ l) ∨ ∃ k, hi = some k ∧ k ≤ p := by
  rw [isInside, Ne, Bool.and_eq_true, not_and_or, Option.all_eq_true, Option.all_eq_true] at h
  rcases h with h | h
  · simp only [decide_eq_true_eq, not_forall, Int.not_lt] at h
    rcases h with ⟨l, hl, hp⟩
    exact Or.inl ⟨l, hl, hp⟩
  · simp only [decide_eq_true_eq, not_forall, Int.not_lt] at h
    rcases h with ⟨k, hk, hp⟩
    exact Or.inr ⟨k, hk, hp⟩

end Ends

section Literals

variable (b : Bounds) (hb : b.InRange)

include hb

/-- Skipping moves a lower end past excluded values only, so it stays in range. -/
theorem skippedLo_inRange (l : Int) (h : b.skippedLo = some l) :
    Int64.minValue.toInt ≤ l ∧ l ≤ Int64.maxValue.toInt + 1 := by
  rcases Option.map_eq_some_iff.mp h with ⟨k, hk, rfl⟩
  rcases skipUp_spec _ k b.ascending_excluded with ⟨hle, hpassed, -⟩
  have hrange := hb.lo k hk
  by_cases heq : skipUp b.excluded.toList k = k
  · omega
  · -- The value passed last is excluded, hence a machine integer.
    have hlast := hpassed (skipUp b.excluded.toList k - 1) (by omega) (by omega)
    rw [Std.ExtTreeSet.mem_toList] at hlast
    have hmax := hb.excluded _ hlast
    omega

theorem skippedHi_inRange (h : Int) (hh : b.skippedHi = some h) :
    Int64.minValue.toInt - 1 ≤ h ∧ h ≤ Int64.maxValue.toInt := by
  rcases Option.map_eq_some_iff.mp hh with ⟨k, hk, rfl⟩
  rcases skipDown_spec _ k b.ascending_excluded with ⟨hle, hpassed, -⟩
  have hrange := hb.hi k hk
  by_cases heq : skipDown b.excluded.toList k = k
  · omega
  · have hlast := hpassed (skipDown b.excluded.toList k + 1) (by omega) (by omega)
    rw [Std.ExtTreeSet.mem_toList] at hlast
    have hmin := hb.excluded _ hlast
    omega

variable (x : String) (ν : Valuation)

/-- The literal of the lower end. -/
theorem holds_lowerEnd : (∀ t ∈ (b.skippedLo.map (atLeast x)).toList, t.Holds ν)
    ↔ ∀ l, b.skippedLo = some l → ∃ n, ν x = .int n ∧ l ≤ n := by
  rcases hl : b.skippedLo with _ | l
  · exact iff_of_true nofun nofun
  · have hrange := skippedLo_inRange b hb l hl
    rw [Option.map_some, Option.toList_some, List.forall_mem_singleton,
      holds_atLeast x ν l hrange.1 hrange.2]
    simp only [Option.some.injEq, forall_eq']

/-- The literal of the upper end. -/
theorem holds_upperEnd : (∀ t ∈ (b.skippedHi.map (atMost x)).toList, t.Holds ν)
    ↔ ∀ h, b.skippedHi = some h → ∃ n, ν x = .int n ∧ n ≤ h := by
  rcases hh : b.skippedHi with _ | h
  · exact iff_of_true nofun nofun
  · have hrange := skippedHi_inRange b hb h hh
    rw [Option.map_some, Option.toList_some, List.forall_mem_singleton,
      holds_atMost x ν h hrange.1 hrange.2]
    simp only [Option.some.injEq, forall_eq']

/-- The literals of the excluded values between two ends. An excluded value is a machine integer, so
    there is a literal for each of them. -/
theorem holds_exclusions (lo hi : Option Int) :
    (∀ t ∈ exclusions x lo hi b.excluded.toList, t.Holds ν)
      ↔ ∀ p ∈ b.excluded, isInside lo hi p = true → ∃ n, ν x = .int n ∧ n ≠ p := by
  simp only [mem_exclusions, Std.ExtTreeSet.mem_toList]
  constructor
  · intro h p hp hinside
    -- Without a literal for the value there would be nothing to show, but there is always one.
    rcases hm : toInt64? p with _ | m
    · have hrange := hb.excluded p hp
      rcases toInt64?_eq_none p hm with hlt | hlt <;> omega
    · rw [← toInt_toInt64? p m hm, ← Term.holds_not_eq_iff]
      exact h _ ⟨p, hp, hinside, m, hm, rfl⟩
  · rintro h t ⟨p, hp, hinside, m, hm, rfl⟩
    rw [Term.holds_not_eq_iff, toInt_toInt64? p m hm]
    exact h p hp hinside

omit hb in
/-- Bounds other than the full ones have an end or an excluded value, which has a literal. -/
theorem literal_of_ne_full (hne : b ≠ full) : (∃ l, b.skippedLo = some l)
    ∨ (∃ h, b.skippedHi = some h)
    ∨ ∃ p ∈ b.excluded, isInside b.skippedLo b.skippedHi p = true := by
  rcases b with ⟨lo, hi, excluded⟩
  cases lo with
  | some l => exact Or.inl ⟨_, rfl⟩
  | none =>
      cases hi with
      | some h => exact Or.inr (Or.inl ⟨_, rfl⟩)
      | none =>
          -- Without ends everything is inside, so any excluded value will do.
          refine Or.inr (Or.inr ?_)
          by_contra hnone
          refine hne ?_
          have hempty : excluded = ∅ := Std.ExtTreeSet.eq_empty_iff_forall_not_mem.mpr fun p hp =>
            hnone ⟨p, hp, rfl⟩
          rw [hempty]
          rfl

/-- The literals of both ends and of the excluded values between them. -/
theorem holds_ends_and_exclusions (hne : b ≠ full) :
    (∀ t ∈ (b.skippedLo.map (atLeast x)).toList ++ (b.skippedHi.map (atMost x)).toList
        ++ exclusions x b.skippedLo b.skippedHi b.excluded.toList, t.Holds ν)
      ↔ ∃ n, ν x = .int n ∧ b.Admits n := by
  rw [List.forall_mem_append, List.forall_mem_append, holds_lowerEnd b hb x ν,
    holds_upperEnd b hb x ν, holds_exclusions b hb x ν]
  constructor
  · rintro ⟨⟨habove, hbelow⟩, hbetween⟩
    -- A literal needs an integer.
    have hint : ∃ n, ν x = .int n := by
      rcases b.literal_of_ne_full hne with ⟨l, hl⟩ | ⟨h, hh⟩ | ⟨p, hp, hinside⟩
      · exact (habove l hl).imp fun n hn => hn.1
      · exact (hbelow h hh).imp fun n hn => hn.1
      · exact (hbetween p hp hinside).imp fun n hn => hn.1
    rcases hint with ⟨n, hn⟩
    simp only [hn, Meaning.int.injEq, exists_eq_left'] at habove hbelow hbetween
    refine ⟨n, hn, (b.admits_iff_skipped n).mpr ⟨⟨habove, hbelow⟩, fun hmem => ?_⟩⟩
    -- An excluded value without a literal is not between the ends or is one of them.
    by_cases hinside : isInside b.skippedLo b.skippedHi n = true
    · exact hbetween n hmem hinside rfl
    · rcases beyond_of_not_isInside _ _ n hinside with ⟨l, hl, hle⟩ | ⟨h, hh, hle⟩
      · rw [Int.le_antisymm hle (habove l hl)] at hmem
        exact b.skippedLo_free l hl hmem
      · rw [Int.le_antisymm (hbelow h hh) hle] at hmem
        exact b.skippedHi_free h hh hmem
  · rintro ⟨n, hn, hadmits⟩
    rcases (b.admits_iff_skipped n).mp hadmits with ⟨hwithin, hfree⟩
    refine ⟨⟨fun l hl => ⟨n, hn, hwithin.above l hl⟩, fun h hh => ⟨n, hn, hwithin.below h hh⟩⟩, ?_⟩
    exact fun p hp _ => ⟨n, hn, fun heq => hfree (heq ▸ hp)⟩

/-- The literals of bounds hold exactly if the variable has a value that is admitted. -/
theorem holds_literals (hne : b ≠ full) (ts : List Term) (h : b.literals x = some ts) :
    (∀ t ∈ ts, t.Holds ν) ↔ ∃ n, ν x = .int n ∧ b.Admits n := by
  rcases Option.map_eq_some_iff.mp h with ⟨⟨lo, hi⟩, htighten, rfl⟩
  rcases b.ends_of_tighten lo hi htighten with ⟨rfl, rfl, -⟩
  rcases hpinned : pinned? x b.skippedLo b.skippedHi with _ | t
  · simp only [hpinned]
    exact holds_ends_and_exclusions b hb x ν hne
  · simp only [hpinned]
    rcases pinned?_cases x _ _ t hpinned with ⟨m, hlo, hhi, rfl⟩
    rw [List.forall_mem_singleton, Term.holds_cmp_iff]
    refine exists_congr fun n => and_congr_right fun _ => ?_
    rw [admits_iff_skipped, hlo, hhi, Comparison.holds, beq_iff_eq]
    -- Where the ends meet, their value is the only one, and it is not excluded.
    constructor
    · rintro rfl
      refine ⟨⟨?_, ?_⟩, b.skippedLo_free _ hlo⟩
      · exact fun l hl => Option.some.inj hl ▸ Int.le_refl _
      · exact fun k hk => Option.some.inj hk ▸ Int.le_refl _
    · rintro ⟨hwithin, -⟩
      exact Int.le_antisymm (hwithin.below _ rfl) (hwithin.above _ rfl)

omit hb in
theorem literals_eq_none_iff : b.literals x = none ↔ ¬ ∃ n, b.Admits n := by
  rw [← tighten_isSome_iff, literals, Option.map_eq_none_iff, Option.not_isSome_iff_eq_none]

omit hb in
theorem vars_atLeast (l : Int) (y : String) (hy : y ∈ (atLeast x l).vars) : y = x := by
  unfold atLeast at hy
  split at hy <;> rwa [Term.mem_vars_cmp, Term.mem_vars_var, Term.mem_vars_int, or_false] at hy

omit hb in
theorem vars_atMost (h : Int) (y : String) (hy : y ∈ (atMost x h).vars) : y = x := by
  unfold atMost at hy
  split at hy <;> rwa [Term.mem_vars_cmp, Term.mem_vars_var, Term.mem_vars_int, or_false] at hy

omit hb in
/-- The literals of bounds mention their variable only. -/
theorem vars_literals (ts : List Term) (h : b.literals x = some ts) (t : Term) (ht : t ∈ ts)
    (y : String) (hy : y ∈ t.vars) : y = x := by
  rcases Option.map_eq_some_iff.mp h with ⟨⟨lo, hi⟩, -, rfl⟩
  rcases hpinned : pinned? x lo hi with _ | u
  · simp only [hpinned] at ht
    rw [List.mem_append, List.mem_append] at ht
    rcases ht with (ht | ht) | ht
    · rcases Option.map_eq_some_iff.mp (Option.mem_toList.mp ht) with ⟨l, -, rfl⟩
      exact vars_atLeast x l y hy
    · rcases Option.map_eq_some_iff.mp (Option.mem_toList.mp ht) with ⟨k, -, rfl⟩
      exact vars_atMost x k y hy
    · rcases (mem_exclusions x lo hi _ t).mp ht with ⟨p, -, -, m, -, rfl⟩
      rwa [Term.mem_vars_not, Term.mem_vars_cmp, Term.mem_vars_var, Term.mem_vars_int,
        or_false] at hy
  · simp only [hpinned] at ht
    rcases pinned?_cases x lo hi u hpinned with ⟨m, -, -, rfl⟩
    rw [List.mem_singleton.mp ht] at hy
    rwa [Term.mem_vars_cmp, Term.mem_vars_var, Term.mem_vars_int, or_false] at hy

end Literals

end Bounds

namespace Constraints

/-- All bounds are in range and restrict something, so that they can be stated. -/
def Stated (c : Constraints) : Prop :=
  ∀ (x : String) (b : Bounds), c.bounds[x]? = some b → b.InRange ∧ b ≠ Bounds.full

theorem stated_empty : empty.Stated := by
  intro x b h
  cases Std.ExtTreeMap.getElem?_empty.symm.trans h

theorem stated_add (c c' : Constraints) (l : Literal) (hc : c.Stated) (h : c.add l = .ok c') :
    c'.Stated := by
  -- Only a bound changes the table, and it restricts what was there for its variable.
  cases added_of_add c c' l h with
  | nothing | absurdity | known | clash | settled => exact hc
  | narrowed x rel n _ =>
      intro y b hy
      rw [getElem?_insert_name] at hy
      by_cases hxy : x = y
      · rw [if_pos hxy] at hy
        cases hy
        refine ⟨Bounds.inRange_restrict _ ?_ rel n, Bounds.restrict_ne_full _ _ rel⟩
        rw [Std.ExtTreeMap.getD_eq_getD_getElem?]
        rcases hx : c.bounds[x]? with _ | b
        · exact Bounds.inRange_full
        · exact (hc x b hx).1
      · rw [if_neg hxy] at hy
        exact hc y b hy

theorem stated_addAll (c c' : Constraints) (ls : List Literal) (hc : c.Stated)
    (h : c.addAll ls = .ok c') : c'.Stated := by
  induction ls generalizing c with
  | nil =>
      cases h
      exact hc
  | cons l ls ih =>
      rw [addAll] at h
      rcases (except_bind_ok _ _ _).mp h with ⟨c₁, hadd, h⟩
      exact ih c₁ (stated_add c c₁ l hc hadd) h

/-- A valuation gives some of the variables values that their constraints admit. -/
structure AdmitsOn (shared : Std.ExtTreeSet String) (c : Constraints) (ν : Valuation) : Prop where
  bounded : ∀ x ∈ shared, ∀ b, c.bounds[x]? = some b → ∃ n, ν x = .int n ∧ b.Admits n
  settled : ∀ x ∈ shared, ∀ v, c.truths[x]? = some v → ν x = .bool v

section Projecting

variable (shared : Std.ExtTreeSet String) (ν : Valuation)

theorem holds_truthLiteral (x : String) (v : Bool) :
    (truthLiteral x v).Holds ν ↔ ν x = .bool v := by
  cases v with
  | true =>
      change some (ν x) = some (.bool true) ↔ _
      rw [Option.some.injEq]
  | false =>
      change (Term.not (.var x)).eval ν = some (.bool true) ↔ _
      rw [Term.eval_not_iff, Bool.not_true, Term.eval_var, Option.some.injEq]

theorem vars_truthLiteral (x y : String) (v : Bool) (hy : y ∈ (truthLiteral x v).vars) :
    y = x := by
  cases v with
  | true => exact (Term.mem_vars_var y x).mp hy
  | false => exact (Term.mem_vars_var y x).mp hy

/-- The bounds of shared variables as literals say what the bounds admit. -/
theorem holds_sharedBounds (entries : List (String × Bounds)) (ts : List Term)
    (hstated : ∀ e ∈ entries, e.2.InRange ∧ e.2 ≠ Bounds.full)
    (h : sharedBounds shared entries = some ts) : (∀ t ∈ ts, t.Holds ν)
      ↔ ∀ e ∈ entries, e.1 ∈ shared → ∃ n, ν e.1 = .int n ∧ e.2.Admits n := by
  -- The entries are stated one after the other. Those of other variables are left out.
  induction entries generalizing ts with
  | nil =>
      cases h
      exact iff_of_true nofun nofun
  | cons e entries ih =>
      rcases e with ⟨x, b⟩
      rw [List.forall_mem_cons] at hstated ⊢
      rw [sharedBounds] at h
      by_cases hx : x ∈ shared
      · rw [if_pos hx] at h
        rcases Option.bind_eq_some_iff.mp h with ⟨us, hus, h⟩
        rcases Option.bind_eq_some_iff.mp h with ⟨rest, hrest, h⟩
        cases h
        rw [List.forall_mem_append, ih rest hstated.2 hrest,
          b.holds_literals hstated.1.1 x ν hstated.1.2 us hus]
        exact and_congr_left' ⟨fun h _ => h, fun h => h hx⟩
      · rw [if_neg hx] at h
        rw [ih ts hstated.2 h]
        exact (and_iff_right fun h => absurd h hx).symm

/-- Bounds of shared variables that cannot be stated are empty for one of them. -/
theorem empty_of_sharedBounds_eq_none (entries : List (String × Bounds))
    (h : sharedBounds shared entries = none) :
    ∃ e ∈ entries, e.1 ∈ shared ∧ ¬ ∃ n, e.2.Admits n := by
  -- The list cannot be stated because of its first entry or because of the rest.
  induction entries with
  | nil => cases h
  | cons e entries ih =>
      rcases e with ⟨x, b⟩
      have hrest (h : sharedBounds shared entries = none) :
          ∃ e ∈ (x, b) :: entries, e.1 ∈ shared ∧ ¬ ∃ n, e.2.Admits n := by
        rcases ih h with ⟨e, he, hempty⟩
        exact ⟨e, List.mem_cons_of_mem _ he, hempty⟩
      rw [sharedBounds] at h
      by_cases hx : x ∈ shared
      · rw [if_pos hx] at h
        rcases hb : b.literals x with _ | us
        · exact ⟨(x, b), List.mem_cons_self, hx, (b.literals_eq_none_iff x).mp hb⟩
        · rw [hb] at h
          rcases hts : sharedBounds shared entries with _ | ts
          · exact hrest hts
          · rw [hts] at h
            cases h
      · rw [if_neg hx] at h
        exact hrest h

theorem vars_sharedBounds (entries : List (String × Bounds)) (ts : List Term)
    (h : sharedBounds shared entries = some ts) (t : Term) (ht : t ∈ ts) (x : String)
    (hx : x ∈ t.vars) : x ∈ shared := by
  induction entries generalizing ts with
  | nil =>
      cases h
      cases ht
  | cons e entries ih =>
      rcases e with ⟨y, b⟩
      rw [sharedBounds] at h
      by_cases hy : y ∈ shared
      · rw [if_pos hy] at h
        rcases Option.bind_eq_some_iff.mp h with ⟨us, hus, h⟩
        rcases Option.bind_eq_some_iff.mp h with ⟨rest, hrest, h⟩
        cases h
        rcases List.mem_append.mp ht with ht | ht
        · rw [b.vars_literals y us hus t ht x hx]
          exact hy
        · exact ih rest hrest ht
      · rw [if_neg hy] at h
        exact ih ts h ht

variable (c : Constraints)

/-- The literals of shared variables with a truth value. -/
def sharedTruths : List Term :=
  (c.truths.toList.filter fun (x, _) => shared.contains x).map fun (x, v) => truthLiteral x v

theorem mem_sharedTruths (t : Term) :
    t ∈ c.sharedTruths shared
      ↔ ∃ x ∈ shared, ∃ v, c.truths[x]? = some v ∧ t = truthLiteral x v := by
  simp only [sharedTruths, List.mem_map, List.mem_filter, Prod.exists, and_assoc,
    Std.ExtTreeMap.mem_toList_iff_getElem?_eq_some]
  refine exists_congr fun x => ?_
  constructor
  · rintro ⟨v, hv, hx, rfl⟩
    exact ⟨hx, v, hv, rfl⟩
  · rintro ⟨hx, v, hv, rfl⟩
    exact ⟨v, hv, hx, rfl⟩

/-- A projection says what the constraints admit for the shared variables. -/
theorem holds_project (hc : c.Stated) :
    (c.project shared).Holds ν ↔ c.AdmitsOn shared ν := by
  have hentries : ∀ e ∈ c.bounds.toList, e.2.InRange ∧ e.2 ≠ Bounds.full := fun e he =>
    hc e.1 e.2 (Std.ExtTreeMap.mem_toList_iff_getElem?_eq_some.mp he)
  rw [project]
  -- If some bounds cannot be stated, no value is admitted for their variable, and the projection is
  -- never true.
  rcases hbounds : sharedBounds shared c.bounds.toList with _ | ts
  · rcases empty_of_sharedBounds_eq_none shared _ hbounds with ⟨⟨x, b⟩, hmem, hx, hempty⟩
    refine iff_of_false nofun fun h => hempty ?_
    rcases h.bounded x hx b (Std.ExtTreeMap.mem_toList_iff_getElem?_eq_some.mp hmem) with ⟨n, -, hn⟩
    exact ⟨n, hn⟩
  · have hts := holds_sharedBounds shared ν _ ts hentries hbounds
    have htruths : (∀ t ∈ c.sharedTruths shared, t.Holds ν)
        ↔ ∀ x ∈ shared, ∀ v, c.truths[x]? = some v → ν x = .bool v := by
      simp only [mem_sharedTruths]
      constructor
      · exact fun h x hx v hv => (holds_truthLiteral ν x v).mp (h _ ⟨x, hx, v, hv, rfl⟩)
      · rintro h t ⟨x, hx, v, hv, rfl⟩
        exact (holds_truthLiteral ν x v).mpr (h x hx v hv)
    change (Term.conjOf (ts ++ c.sharedTruths shared)).Holds ν ↔ _
    rw [Term.holds_conjOf, List.forall_mem_append, hts, htruths]
    constructor
    · rintro ⟨hbounded, hsettled⟩
      refine ⟨fun x hx b hb => ?_, hsettled⟩
      exact hbounded (x, b) (Std.ExtTreeMap.mem_toList_iff_getElem?_eq_some.mpr hb) hx
    · rintro ⟨hbounded, hsettled⟩
      refine ⟨fun e he hx => ?_, hsettled⟩
      exact hbounded e.1 hx e.2 (Std.ExtTreeMap.mem_toList_iff_getElem?_eq_some.mp he)

/-- A projection mentions shared variables only. -/
theorem vars_project (x : String) (hx : x ∈ (c.project shared).vars) : x ∈ shared := by
  rw [project] at hx
  rcases hbounds : sharedBounds shared c.bounds.toList with _ | ts
  · rw [hbounds] at hx
    exact absurd hx Std.ExtTreeSet.not_mem_empty
  · rw [hbounds] at hx
    -- A variable comes from the bounds or from the truth values, and shared variables alone are
    -- stated in both.
    rcases (Term.mem_vars_conjOf x (ts ++ c.sharedTruths shared)).mp hx with ⟨t, ht, hx⟩
    rcases List.mem_append.mp ht with ht | ht
    · exact vars_sharedBounds shared _ ts hbounds t ht x hx
    · rcases (mem_sharedTruths shared c t).mp ht with ⟨y, hy, v, -, rfl⟩
      rw [vars_truthLiteral y x v hx]
      exact hy

end Projecting

end Constraints

end ActorCheck

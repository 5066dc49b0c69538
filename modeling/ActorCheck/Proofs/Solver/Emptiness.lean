import ActorCheck.Solver.Bounds

/-!
# When an Interval Is Empty

Bounds admit an integer if it lies between the ends and is not excluded. What
`restrict` does to them is to intersect them with one comparison.

Whether anything is left depends on the ends after skipping. An end that is
skipped upwards passes over excluded values only and stops at a value that is not
excluded; as the excluded values come in ascending order, one pass is enough, since
a value that has been passed is less than every value still to come. The same holds
downwards.

So crossing ends leave nothing, and otherwise an end itself is admitted. Bounds
without any end admit what skipping upwards from zero finds.

## Main definitions

* `BoundRel.Holds`: Two integers stand in a relation.
* `Bounds.Within`: An integer lies between two ends.
* `Bounds.Admits`: An integer lies between the ends and is not excluded.
* `Bounds.skippedLo`: The lower end after skipping, `skippedHi` the upper one.

## Theorems

* `Bounds.admits_restrict`: Restricting intersects with a comparison.
* `Bounds.admits_iff_skipped`: Skipping excluded values loses no admitted one.
* `Bounds.tighten_isSome_iff`: The skipped ends cross exactly if nothing is admitted.
-/

namespace ActorCheck

/-- Two integers stand in a relation. -/
def BoundRel.Holds (rel : BoundRel) (m n : Int) : Prop :=
  match rel with
  | .eq => m = n
  | .ne => m ≠ n
  | .lt => m < n
  | .le => m ≤ n
  | .gt => n < m
  | .ge => n ≤ m

namespace Bounds

/-- An integer lies between two ends. -/
structure Within (lo hi : Option Int) (n : Int) : Prop where
  above : ∀ l, lo = some l → l ≤ n
  below : ∀ h, hi = some h → n ≤ h

/-- An integer lies between the ends and is not excluded. -/
structure Admits (b : Bounds) (n : Int) : Prop where
  within : Within b.lo b.hi n
  free : n ∉ b.excluded

theorem admits_full (n : Int) : full.Admits n :=
  ⟨⟨nofun, nofun⟩, Std.ExtTreeSet.not_mem_empty⟩

section Restriction

variable (b : Bounds) (n k : Int)

theorem admits_raise : (b.raise k).Admits n ↔ b.Admits n ∧ k ≤ n := by
  rcases b with ⟨lo, hi, excluded⟩
  constructor
  · rintro ⟨⟨habove, hbelow⟩, hfree⟩
    -- The new end is there in any case; the old one counts if there was one.
    have hk := habove _ rfl
    rcases lo with _ | l
    · exact ⟨⟨⟨nofun, hbelow⟩, hfree⟩, hk⟩
    · have hlk : max l k ≤ n := hk
      refine ⟨⟨⟨?_, hbelow⟩, hfree⟩, by omega⟩
      intro l' hl
      cases hl
      omega
  · rintro ⟨⟨⟨habove, hbelow⟩, hfree⟩, hk⟩
    refine ⟨⟨?_, hbelow⟩, hfree⟩
    intro l' hl
    cases hl
    rcases lo with _ | l
    · exact hk
    · exact Int.max_le.mpr ⟨habove l rfl, hk⟩

theorem admits_lower : (b.lower k).Admits n ↔ b.Admits n ∧ n ≤ k := by
  rcases b with ⟨lo, hi, excluded⟩
  constructor
  · rintro ⟨⟨habove, hbelow⟩, hfree⟩
    have hk := hbelow _ rfl
    rcases hi with _ | h
    · exact ⟨⟨⟨habove, nofun⟩, hfree⟩, hk⟩
    · have hhk : n ≤ min h k := hk
      refine ⟨⟨⟨habove, ?_⟩, hfree⟩, by omega⟩
      intro h' hh
      cases hh
      omega
  · rintro ⟨⟨⟨habove, hbelow⟩, hfree⟩, hk⟩
    refine ⟨⟨habove, ?_⟩, hfree⟩
    intro h' hh
    cases hh
    rcases hi with _ | h
    · exact hk
    · exact Int.le_min.mpr ⟨hbelow h rfl, hk⟩

theorem admits_exclude : (b.exclude k).Admits n ↔ b.Admits n ∧ n ≠ k := by
  have hmem : n ∈ (b.exclude k).excluded ↔ k = n ∨ n ∈ b.excluded := by
    rw [exclude, Std.ExtTreeSet.mem_insert, Std.LawfulEqCmp.compare_eq_iff_eq]
  constructor
  · rintro ⟨hwithin, hfree⟩
    rw [hmem, not_or] at hfree
    exact ⟨⟨hwithin, hfree.2⟩, fun h => hfree.1 h.symm⟩
  · rintro ⟨⟨hwithin, hfree⟩, hne⟩
    refine ⟨hwithin, fun hn => ?_⟩
    rcases hmem.mp hn with h | h
    · exact hne h.symm
    · exact hfree h

/-- Restricting bounds intersects them with a comparison. -/
theorem admits_restrict (rel : BoundRel) :
    (b.restrict rel k).Admits n ↔ b.Admits n ∧ rel.Holds n k := by
  cases rel with
  | eq =>
      rw [restrict, admits_lower, admits_raise, and_assoc]
      refine and_congr_right fun _ => ?_
      simp only [BoundRel.Holds]
      omega
  | ne => exact admits_exclude b n k
  | lt =>
      rw [restrict, admits_lower]
      refine and_congr_right fun _ => ?_
      simp only [BoundRel.Holds]
      omega
  | le => exact admits_lower b n k
  | gt =>
      rw [restrict, admits_raise]
      refine and_congr_right fun _ => ?_
      simp only [BoundRel.Holds]
      omega
  | ge => exact admits_raise b n k

end Restriction

section Skipping

/-- Skipping upwards passes over the given points only and stops beside them. -/
theorem skipUp_spec (points : List Int) (l : Int) (hascending : points.Pairwise (· < ·)) :
    l ≤ skipUp points l
      ∧ (∀ n, l ≤ n → n < skipUp points l → n ∈ points)
      ∧ skipUp points l ∉ points := by
  induction points generalizing l with
  | nil =>
      refine ⟨Int.le_refl l, fun n hl hn => ?_, List.not_mem_nil⟩
      exact absurd hn (Int.not_lt.mpr hl)
  | cons p ps ih =>
      rcases List.pairwise_cons.mp hascending with ⟨hp, hps⟩
      by_cases hl : l = p
      · have hskip : skipUp (p :: ps) l = skipUp ps (l + 1) := by
          rw [skipUp, List.foldl_cons, if_pos hl, skipUp]
        -- The value is excluded and passed. What follows stops above it.
        rcases ih (l + 1) hps with ⟨hle, hpassed, hfree⟩
        rw [hskip]
        refine ⟨by omega, fun n hn hlt => ?_, ?_⟩
        · by_cases hnl : n = l
          · rw [hnl, hl]
            exact List.mem_cons_self
          · exact List.mem_cons_of_mem p (hpassed n (by omega) hlt)
        · rw [List.mem_cons, not_or]
          exact ⟨by omega, hfree⟩
      · have hskip : skipUp (p :: ps) l = skipUp ps l := by
          rw [skipUp, List.foldl_cons, if_neg hl, skipUp]
        rcases ih l hps with ⟨hle, hpassed, hfree⟩
        rw [hskip]
        refine ⟨hle, fun n hn hlt => List.mem_cons_of_mem p (hpassed n hn hlt), ?_⟩
        rw [List.mem_cons, not_or]
        refine ⟨fun heq => ?_, hfree⟩
        -- Having come to `p` from below, it would have passed `l`, which lies before all of `ps`.
        have hlp := hp l (hpassed l (Int.le_refl l) (by omega))
        omega

/-- Skipping downwards passes over the given points only and stops beside them. -/
theorem skipDown_spec (points : List Int) (h : Int) (hascending : points.Pairwise (· < ·)) :
    skipDown points h ≤ h
      ∧ (∀ n, skipDown points h < n → n ≤ h → n ∈ points)
      ∧ skipDown points h ∉ points := by
  induction points with
  | nil =>
      refine ⟨Int.le_refl h, fun n hn hle => ?_, List.not_mem_nil⟩
      exact absurd hn (Int.not_lt.mpr hle)
  | cons p ps ih =>
      rcases List.pairwise_cons.mp hascending with ⟨hp, hps⟩
      rcases ih hps with ⟨hle, hpassed, hfree⟩
      have hskip : skipDown (p :: ps) h
          = if skipDown ps h = p then skipDown ps h - 1 else skipDown ps h := by
        rw [skipDown, List.foldr_cons, skipDown]
      -- The points above `p` were handled first, and `p` may be the next value to pass.
      by_cases heq : skipDown ps h = p
      · rw [hskip, if_pos heq]
        refine ⟨by omega, fun n hn hnh => ?_, ?_⟩
        · by_cases hnp : n = p
          · rw [hnp]
            exact List.mem_cons_self
          · exact List.mem_cons_of_mem p (hpassed n (by omega) hnh)
        · rw [List.mem_cons, not_or]
          refine ⟨by omega, fun hmem => ?_⟩
          have hlt := hp _ hmem
          omega
      · rw [hskip, if_neg heq]
        refine ⟨hle, fun n hn hnh => List.mem_cons_of_mem p (hpassed n hn hnh), ?_⟩
        rw [List.mem_cons, not_or]
        exact ⟨heq, hfree⟩

end Skipping

section Tightening

variable (b : Bounds)

/-- The lower end after skipping excluded values. -/
def skippedLo : Option Int := b.lo.map (skipUp b.excluded.toList)

/-- The upper end after skipping excluded values. -/
def skippedHi : Option Int := b.hi.map (skipDown b.excluded.toList)

theorem ascending_excluded : b.excluded.toList.Pairwise (· < ·) := by
  refine List.Pairwise.imp (fun h => ?_) Std.ExtTreeSet.ordered_toList
  exact Int.compare_eq_lt.mp h

theorem skippedLo_free (l : Int) (h : b.skippedLo = some l) : l ∉ b.excluded := by
  rcases Option.map_eq_some_iff.mp h with ⟨l', -, rfl⟩
  rw [← Std.ExtTreeSet.mem_toList]
  exact (skipUp_spec _ l' b.ascending_excluded).2.2

theorem skippedHi_free (h : Int) (hh : b.skippedHi = some h) : h ∉ b.excluded := by
  rcases Option.map_eq_some_iff.mp hh with ⟨h', -, rfl⟩
  rw [← Std.ExtTreeSet.mem_toList]
  exact (skipDown_spec _ h' b.ascending_excluded).2.2

/-- Skipping excluded values loses no admitted one. -/
theorem admits_iff_skipped (n : Int) :
    b.Admits n ↔ Within b.skippedLo b.skippedHi n ∧ n ∉ b.excluded := by
  constructor
  · rintro ⟨hwithin, hfree⟩
    refine ⟨⟨fun l hl => ?_, fun h hh => ?_⟩, hfree⟩
    · rcases Option.map_eq_some_iff.mp hl with ⟨l', hlo, rfl⟩
      rcases skipUp_spec _ l' b.ascending_excluded with ⟨-, hpassed, -⟩
      -- An admitted value below the skipped end would have been passed, hence be excluded.
      refine Int.not_lt.mp fun hlt => hfree ?_
      rw [← Std.ExtTreeSet.mem_toList]
      exact hpassed n (hwithin.above l' hlo) hlt
    · rcases Option.map_eq_some_iff.mp hh with ⟨h', hhi, rfl⟩
      rcases skipDown_spec _ h' b.ascending_excluded with ⟨-, hpassed, -⟩
      refine Int.not_lt.mp fun hlt => hfree ?_
      rw [← Std.ExtTreeSet.mem_toList]
      exact hpassed n hlt (hwithin.below h' hhi)
  · rintro ⟨hwithin, hfree⟩
    refine ⟨⟨fun l hlo => ?_, fun h hhi => ?_⟩, hfree⟩
    -- Skipping only moves the ends towards each other.
    · have hskipped : b.skippedLo = some (skipUp b.excluded.toList l) := by
        rw [skippedLo, hlo, Option.map_some]
      exact Int.le_trans (skipUp_spec _ l b.ascending_excluded).1 (hwithin.above _ hskipped)
    · have hskipped : b.skippedHi = some (skipDown b.excluded.toList h) := by
        rw [skippedHi, hhi, Option.map_some]
      exact Int.le_trans (hwithin.below _ hskipped) (skipDown_spec _ h b.ascending_excluded).1

theorem tighten_eq : b.tighten = match b.skippedLo, b.skippedHi with
    | some l, some h => if h < l then none else some (b.skippedLo, b.skippedHi)
    | _, _ => some (b.skippedLo, b.skippedHi) := rfl

/-- Tightened bounds that are not empty are the skipped ends. -/
theorem ends_of_tighten (lo hi : Option Int) (h : b.tighten = some (lo, hi)) :
    lo = b.skippedLo ∧ hi = b.skippedHi ∧ ∀ l h, lo = some l → hi = some h → l ≤ h := by
  rw [tighten_eq] at h
  split at h
  next l h' hlo hhi =>
    split at h
    next => cases h
    next hle =>
      cases h
      refine ⟨rfl, rfl, fun l' h'' hl' hh' => ?_⟩
      rw [hlo] at hl'
      rw [hhi] at hh'
      cases hl'
      cases hh'
      omega
  next hopen =>
    cases h
    exact ⟨rfl, rfl, fun l' h' hl' hh' => absurd hh' (hopen l' h' hl')⟩

/-- Bounds admit an integer exactly if the skipped ends do not cross. -/
theorem tighten_isSome_iff : b.tighten.isSome ↔ ∃ n, b.Admits n := by
  constructor
  · intro h
    rcases Option.isSome_iff_exists.mp h with ⟨⟨lo, hi⟩, htighten⟩
    rcases b.ends_of_tighten lo hi htighten with ⟨rfl, rfl, hle⟩
    -- An end that is there is admitted itself, and without ends the skip from zero is.
    rcases hlo : b.skippedLo with _ | l
    · rcases hhi : b.skippedHi with _ | h'
      · rcases skipUp_spec _ 0 b.ascending_excluded with ⟨-, -, hfree⟩
        rw [Std.ExtTreeSet.mem_toList] at hfree
        refine ⟨_, (b.admits_iff_skipped _).mpr ⟨?_, hfree⟩⟩
        rw [hlo, hhi]
        exact ⟨nofun, nofun⟩
      · refine ⟨h', (b.admits_iff_skipped _).mpr ⟨?_, b.skippedHi_free h' hhi⟩⟩
        rw [hlo, hhi]
        exact ⟨nofun, fun h'' hh => Option.some.inj hh ▸ Int.le_refl _⟩
    · refine ⟨l, (b.admits_iff_skipped _).mpr ⟨?_, b.skippedLo_free l hlo⟩⟩
      rw [hlo]
      exact ⟨fun l' hl => Option.some.inj hl ▸ Int.le_refl _, fun h' hh => hle l h' hlo hh⟩
  · rintro ⟨n, hn⟩
    -- An admitted value lies between the skipped ends, so they cannot cross.
    rcases (b.admits_iff_skipped n).mp hn with ⟨hwithin, -⟩
    rw [tighten_eq]
    split
    next l h' hlo hhi =>
      have hl := hwithin.above l hlo
      have hh := hwithin.below h' hhi
      rw [if_neg (by omega)]
      rfl
    next => rfl

end Tightening

end Bounds

end ActorCheck

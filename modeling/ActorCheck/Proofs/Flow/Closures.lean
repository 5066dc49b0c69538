import ActorCheck.Closure
import Mathlib.Logic.Relation
import Mathlib.Tactic.ByContra

/-!
# What Closures Contain

A closure consists of what can be reached along the arrows, neither more nor less. That nothing
else gets into it holds of any number of passes. That nothing is missing depends on their number:
there are as many passes as arrows, and what has to be seen is that no further one is needed.

The measure is the number of arrows whose target is missing. A pass that changes anything adds
such a target, so the measure goes down with every pass but the last one. When it is zero the set
is closed, since no target is missing at all.

## Main definitions

* `Along`: An arrow, as a relation.
* `Closed`: No arrow leads out of a set.
* `missing`: The arrows whose targets are missing.

## Theorems

* `mem_spread`, `mem_spread_of_arrow`: What a pass adds.
* `closed_saturate`: Enough passes close a set.
* `mem_closure_iff`: A closure consists of what can be reached.
* `spread_closure`: Another pass adds nothing.
-/

namespace ActorCheck

/-- Some arrow leads from one number to another. -/
def Along (arrows : List Arrow) (x y : Nat) : Prop := (x, y) ∈ arrows

/-- No arrow leads out of the set. -/
def Closed (arrows : List Arrow) (s : Std.ExtTreeSet Nat) : Prop :=
  ∀ a ∈ arrows, a.1 ∈ s → a.2 ∈ s

/-- The arrows whose targets are missing from the set. -/
def missing (arrows : List Arrow) (s : Std.ExtTreeSet Nat) : List Arrow :=
  arrows.filter fun a => !s.contains a.2

section Pass

theorem mem_insert_iff (s : Std.ExtTreeSet Nat) (x y : Nat) : x ∈ s.insert y ↔ x = y ∨ x ∈ s := by
  rw [Std.ExtTreeSet.mem_insert, Std.LawfulEqCmp.compare_eq_iff_eq, eq_comm]

/-- A pass keeps what is there. -/
theorem mem_spread (arrows : List Arrow) (s : Std.ExtTreeSet Nat) (x : Nat) (hx : x ∈ s) :
    x ∈ spread arrows s := by
  induction arrows generalizing s with
  | nil => exact hx
  | cons a arrows ih =>
      unfold spread
      rw [List.foldl_cons]
      refine ih _ ?_
      split
      · exact (mem_insert_iff s x a.2).mpr (Or.inr hx)
      · exact hx

/-- A pass adds the targets of all arrows that start in the set. -/
theorem mem_spread_of_arrow (arrows : List Arrow) (s : Std.ExtTreeSet Nat) (a : Arrow)
    (ha : a ∈ arrows) (hs : a.1 ∈ s) : a.2 ∈ spread arrows s := by
  -- By induction on the arrows of the pass. The set is generalized, since it grows on the way.
  induction arrows generalizing s with
  | nil => cases ha
  | cons b arrows ih =>
      unfold spread
      rw [List.foldl_cons]
      rcases List.mem_cons.mp ha with rfl | ha
      · refine mem_spread arrows _ a.2 ?_
        rw [if_pos hs]
        exact (mem_insert_iff s a.2 a.2).mpr (Or.inl rfl)
      · refine ih _ ha ?_
        split
        · exact (mem_insert_iff s a.1 b.2).mpr (Or.inr hs)
        · exact hs

/-- What a pass adds can be reached along arrows. The arrows of the pass may be some of many, since
    an arrow may follow on another within the same pass. -/
theorem reached_of_spread (all arrows : List Arrow) (hall : ∀ a ∈ arrows, a ∈ all)
    (s : Std.ExtTreeSet Nat) (x : Nat) (hx : x ∈ spread arrows s) :
    ∃ y ∈ s, Relation.ReflTransGen (Along all) y x := by
  -- Only the arrows that are still to be looked at are taken apart. The ways may use all of them.
  induction arrows generalizing s with
  | nil => exact ⟨x, hx, .refl⟩
  | cons a arrows ih =>
      have hrest : ∀ b ∈ arrows, b ∈ all := fun b hb => hall b (List.mem_cons_of_mem _ hb)
      unfold spread at hx
      rw [List.foldl_cons] at hx
      by_cases hsource : a.1 ∈ s
      · rw [if_pos hsource] at hx
        rcases ih hrest _ hx with ⟨y, hy, hway⟩
        rcases (mem_insert_iff s y a.2).mp hy with rfl | hy
        · exact ⟨a.1, hsource, .head (hall a List.mem_cons_self) hway⟩
        · exact ⟨y, hy, hway⟩
      · rw [if_neg hsource] at hx
        exact ih hrest s hx

theorem closed_of_spread (arrows : List Arrow) (s : Std.ExtTreeSet Nat) (h : spread arrows s = s) :
    Closed arrows s := by
  intro a ha hs
  have htarget := mem_spread_of_arrow arrows s a ha hs
  rwa [h] at htarget

/-- A pass that changes the set adds a target that was missing. -/
theorem exists_missing (arrows : List Arrow) (s : Std.ExtTreeSet Nat) (h : spread arrows s ≠ s) :
    ∃ a ∈ arrows, a.2 ∉ s ∧ a.2 ∈ spread arrows s := by
  -- A pass takes nothing out, so a set that has changed has got something new.
  have hnew : ∃ x ∈ spread arrows s, x ∉ s := by
    by_contra hnone
    refine h (Std.ExtTreeSet.ext_mem fun x => ⟨fun hx => ?_, mem_spread arrows s x⟩)
    by_contra hx'
    exact hnone ⟨x, hx, hx'⟩
  rcases hnew with ⟨x, hx, hout⟩
  rcases reached_of_spread arrows arrows (fun _ ha => ha) s x hx with ⟨y, hy, hway⟩
  -- The way ends with an arrow, since it leads out of the set.
  rcases Relation.ReflTransGen.cases_tail hway with rfl | ⟨z, _, hlast⟩
  · exact absurd hy hout
  · exact ⟨(z, x), hlast, hout, hx⟩

/-- Such a pass leaves less missing. -/
theorem length_missing_spread (arrows : List Arrow) (s : Std.ExtTreeSet Nat)
    (h : spread arrows s ≠ s) :
    (missing arrows (spread arrows s)).length < (missing arrows s).length := by
  rcases exists_missing arrows s h with ⟨a, ha, hout, hin⟩
  -- What is missing afterwards was missing before, and the target that was added is not missing any
  -- more.
  have hsub : missing arrows (spread arrows s)
      = (missing arrows s).filter fun b => !(spread arrows s).contains b.2 := by
    unfold missing
    rw [List.filter_filter]
    refine List.filter_congr fun b _ => ?_
    cases hb : s.contains b.2 with
    | false => simp
    | true =>
        have hmem := mem_spread arrows s b.2 (Std.ExtTreeSet.contains_iff_mem.mp hb)
        simp [Std.ExtTreeSet.contains_iff_mem.mpr hmem]
  rw [hsub]
  refine List.length_filter_lt_length_iff_exists.mpr ⟨a, List.mem_filter.mpr ⟨ha, ?_⟩, ?_⟩
  · rw [Bool.not_eq_true']
    exact Bool.eq_false_iff.mpr fun hmem => hout (Std.ExtTreeSet.contains_iff_mem.mp hmem)
  · simp [Std.ExtTreeSet.contains_iff_mem.mpr hin]

end Pass

/-- Enough passes close a set. By induction on the number of passes, which bounds what is
    missing. -/
theorem closed_saturate (arrows : List Arrow) (passes : Nat) (s : Std.ExtTreeSet Nat)
    (h : (missing arrows s).length ≤ passes) : Closed arrows (saturate arrows passes s) := by
  induction passes generalizing s with
  -- Nothing is missing any more, so the set is closed without a pass.
  | zero =>
      intro a ha _
      have hnone := List.filter_eq_nil_iff.mp
        (List.eq_nil_of_length_eq_zero (Nat.le_zero.mp h)) a ha
      rw [Bool.not_eq_true, Bool.not_eq_false'] at hnone
      exact Std.ExtTreeSet.contains_iff_mem.mp hnone
  | succ passes ih =>
      unfold saturate
      by_cases hsame : spread arrows s = s
      · rw [if_pos hsame]
        exact closed_of_spread arrows s hsame
      · rw [if_neg hsame]
        exact ih _ (Nat.le_of_lt_succ
          (Nat.lt_of_lt_of_le (length_missing_spread arrows s hsame) h))

theorem mem_saturate (arrows : List Arrow) (passes : Nat) (s : Std.ExtTreeSet Nat) (x : Nat)
    (hx : x ∈ s) : x ∈ saturate arrows passes s := by
  induction passes generalizing s with
  | zero => exact hx
  | succ passes ih =>
      unfold saturate
      dsimp only
      split
      · exact hx
      · exact ih _ (mem_spread arrows s x hx)

theorem reached_of_saturate (arrows : List Arrow) (passes : Nat) (s : Std.ExtTreeSet Nat) (x : Nat)
    (hx : x ∈ saturate arrows passes s) :
    ∃ y ∈ s, Relation.ReflTransGen (Along arrows) y x := by
  induction passes generalizing s with
  | zero => exact ⟨x, hx, .refl⟩
  | succ passes ih =>
      unfold saturate at hx
      dsimp only at hx
      split at hx
      · exact ⟨x, hx, .refl⟩
      · rcases ih _ hx with ⟨y, hy, hway⟩
        rcases reached_of_spread arrows arrows (fun _ ha => ha) s y hy with ⟨z, hz, hway'⟩
        exact ⟨z, hz, hway'.trans hway⟩

/-- A closure consists of what can be reached along the arrows. -/
theorem mem_closure_iff (arrows : List Arrow) (s : Std.ExtTreeSet Nat) (x : Nat) :
    x ∈ closure arrows s ↔ ∃ y ∈ s, Relation.ReflTransGen (Along arrows) y x := by
  constructor
  · exact reached_of_saturate arrows arrows.length s x
  · rintro ⟨y, hy, hway⟩
    have hclosed := closed_saturate arrows arrows.length s (List.length_filter_le _ _)
    induction hway with
    | refl => exact mem_saturate arrows arrows.length s y hy
    | tail _ hlast ih => exact hclosed _ hlast ih

/-- Another pass adds nothing to a closure. -/
theorem spread_closure (arrows : List Arrow) (s : Std.ExtTreeSet Nat) :
    spread arrows (closure arrows s) = closure arrows s := by
  refine Std.ExtTreeSet.ext_mem fun x => ⟨fun hx => ?_, mem_spread arrows _ x⟩
  rcases reached_of_spread arrows arrows (fun _ ha => ha) _ x hx with ⟨y, hy, hway⟩
  rcases (mem_closure_iff arrows s y).mp hy with ⟨z, hz, hbefore⟩
  exact (mem_closure_iff arrows s x).mpr ⟨z, hz, hbefore.trans hway⟩

end ActorCheck

import ActorCheck.Control.LoopStack
import Mathlib.Data.List.Basic

/-!
# What the End of a Loop Takes Off

The end of a loop takes off the run of equal heads on top of the stack, and one entry more. That one
belongs to the loop around it, or to whatever the thread was in before, and it goes whether the run
has one entry or many.

A stack that is not empty is a run of one head above something that does not begin with that head.
This is shown by induction from the top: a second entry that equals the first one makes the run
longer, and any other one ends it. What is left after the end of the loop can then be read off. If
something is below the run, it loses its first entry; if nothing is, nothing is left.

Stacks are kept with the innermost loop first. Here they are also written the other way round, with
the outermost loop first, so that what stays is a beginning of what was there.

## Theorems

* `run_on_top`: A stack is a run above something else.
* `dropLoop_run`: The end of the loop that has made the run.
* `dropLoop_run_and_one`: The end of a loop takes off the run on top and one entry more.
-/

namespace ActorCheck

section Stacks

variable {α : Type}

/-- A stack with a given top is a run of that top above something that does not begin with it. -/
theorem run_on_top [DecidableEq α] (top : α) (rest : List α) :
    ∃ n below, top :: rest = List.replicate (n + 1) top ++ below ∧ ∀ y ∈ below.head?, y ≠ top := by
  induction rest with
  | nil => exact ⟨0, [], rfl, nofun⟩
  | cons x rest ih =>
      by_cases hx : x = top
      · rcases ih with ⟨n, below, hrun, hbelow⟩
        refine ⟨n + 1, below, ?_, hbelow⟩
        rw [hx, hrun, List.replicate_succ (n := n + 1), List.cons_append]
      · exact ⟨0, x :: rest, rfl, fun y hy => Option.mem_some.mp hy ▸ hx⟩

/-- The end of the loop that has made the run: what is below the run loses its first entry. -/
theorem dropLoop_run [DecidableEq α] (x : α) (n : Nat) (below : List α)
    (h : ∀ y ∈ below.head?, y ≠ x) :
    dropLoop (List.replicate (n + 1) x ++ below) = below.drop 1 := by
  rw [List.replicate_succ, List.cons_append, dropLoop]
  -- The rest of the run goes, and below it nothing more that is equal to the head.
  rw [List.dropWhile_append_of_pos fun y hy => beq_iff_eq.mpr (List.eq_of_mem_replicate hy)]
  cases below with
  | nil => rfl
  | cons y below =>
      have hy : (y == x) = false := beq_false_of_ne (h y rfl)
      rw [List.dropWhile_cons, hy, if_neg Bool.false_ne_true]

end Stacks

/-- The end of a loop takes off the run on top and one entry more. Stacks are written here with the
    outermost loop first. Above an entry that differs from the run, what was below that entry stays.
    Nothing stays of a stack that is a single run, or is empty. So what stays of a stack that is not
    empty is a beginning of it, and shorter. -/
theorem dropLoop_run_and_one {α : Type} [DecidableEq α] :
    (∀ (p : List α) (y x : α) (n : Nat), 1 ≤ n → y ≠ x →
        dropLoop (p ++ [y] ++ List.replicate n x).reverse = p.reverse)
      ∧ (∀ (x : α) (n : Nat), dropLoop (List.replicate n x).reverse = [])
      ∧ dropLoop ([] : List α).reverse = []
      ∧ ∀ s : List α, s ≠ [] →
        ∃ q, q <+: s ∧ q.length < s.length ∧ dropLoop s.reverse = q.reverse := by
  refine ⟨fun p y x n hn hne => ?_, fun x n => ?_, rfl, fun s hs => ?_⟩
  · obtain ⟨m, rfl⟩ : ∃ m, n = m + 1 := ⟨n - 1, by omega⟩
    have hbelow : ∀ z ∈ ([y] ++ p.reverse).head?, z ≠ x := by
      rintro z ⟨rfl⟩
      exact hne
    rw [List.reverse_append, List.reverse_append, List.reverse_replicate, List.reverse_singleton,
      dropLoop_run x m _ hbelow]
    rfl
  · rw [List.reverse_replicate]
    cases n with
    | zero => rfl
    | succ n => exact List.append_nil (List.replicate (n + 1) x) ▸ dropLoop_run x n [] nofun
  · rcases List.exists_cons_of_ne_nil (List.reverse_ne_nil_iff.mpr hs) with ⟨top, rest, hrest⟩
    rcases run_on_top top rest with ⟨n, below, hrun, hbelow⟩
    have hstack : s.reverse = List.replicate (n + 1) top ++ below := hrest.trans hrun
    have hlength : s.length = n + 1 + below.length := by
      rw [← List.length_reverse, hstack, List.length_append, List.length_replicate]
    refine ⟨(below.drop 1).reverse, ?_, ?_, ?_⟩
    · -- Read from the outermost loop, what is below the run comes first.
      rw [← List.reverse_reverse s, List.reverse_prefix, hstack]
      exact (List.drop_suffix 1 below).trans (List.suffix_append _ below)
    · rw [List.length_reverse, List.length_drop]
      omega
    · rw [List.reverse_reverse, hstack]
      exact dropLoop_run top n below hbelow

/-- Two rounds of a loop within a loop, with another one around both. -/
theorem dropLoop_run_and_one_nested :
    1 ≤ 2 ∧ 1 ≠ 2 ∧ dropLoop ([5] ++ [1] ++ List.replicate 2 2).reverse = [5].reverse
      ∧ [5, 1, 2, 2] ≠ [] ∧ ∃ q, q <+: [5, 1, 2, 2] ∧ q.length < 4
        ∧ dropLoop [5, 1, 2, 2].reverse = q.reverse :=
  ⟨by decide, by decide, dropLoop_run_and_one.1 [5] 1 2 2 (by decide) (by decide), by decide,
    dropLoop_run_and_one.2.2.2 [5, 1, 2, 2] (by decide)⟩

end ActorCheck

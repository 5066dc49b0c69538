import ActorCheck.Proofs.Solver.Interpolation
import Mathlib.Algebra.GroupWithZero.Nat
import Mathlib.Data.List.DropRight

/-!
# The Books of the Interval Solver

The interval solver keeps four books: the assertions, the marks of the open scopes, the references
that are taken, and the last verdict. This module says how they stay consistent with each other,
and with the calls that were made, over any sequence of calls.

Marks are set to the number of assertions, which only shrinks when a scope is closed, and then to
the innermost mark. The verdict is remembered by a check only, and forgotten by every call that
changes the assertions, so what is remembered is what a check would find again.

References are counted against the calls. A reset begins a new count, so only the calls since the
last one matter. How many references to some terms are held, together with those that were given
back, makes up those that were taken. The references may as well be kept as a tally, which has an
entry for each term with the number of references to it. A term leaves the tally with its last
reference, so there is never an entry of zero.

A segment of calls is well nested if every scope that it opens is closed again and no other one is.
A reset closes all scopes, so there is none in such a segment. Inside of a scope the assertions only
grow behind the mark, and closing the scope drops what has grown.

## Main definitions

* `IntervalSolver.Marked`: The marks are in order.
* `IntervalSolver.sinceReset`: The calls since the last reset.
* `IntervalSolver.takes`, `IntervalSolver.returned`: The references that calls take and give back.
* `IntervalSolver.Tally`: How often terms are referred to.
* `IntervalSolver.Nested`: Scopes are closed in the segment in which they are opened.

## Theorems

* `IntervalSolver.marked_after`: The marks are in order after any calls.
* `IntervalSolver.countP_references`: The references that are held.
* `IntervalSolver.tallied_after`: The tally is that of the references.
* `IntervalSolver.restores_of_scope`: A scope leaves the assertions as they were.
* `IntervalSolver.books_kept`: All of this after any calls.
-/

namespace ActorCheck

namespace IntervalSolver

section Marks

/-- Going outwards the marks do not increase, and none exceeds the number of assertions. -/
structure Marked (s : IntervalSolver) : Prop where
  descending : s.scopes.Pairwise fun inner outer => outer ≤ inner
  within : ∀ mark ∈ s.scopes, mark ≤ s.assertions.length

theorem marked_perform (s : IntervalSolver) (r : Request) (h : s.Marked) :
    (s.perform r).Marked := by
  have hdoes := s.does_of_perform r
  generalize s.perform r = s' at hdoes
  generalize s.succeeds r = success at hdoes
  cases hdoes with
  -- The new mark is the number of assertions, which no other one exceeds.
  | opened =>
      exact ⟨List.pairwise_cons.mpr ⟨h.within, h.descending⟩,
        List.forall_mem_cons.mpr ⟨Nat.le_refl _, h.within⟩⟩
  | @closed start scopes hopen =>
      have hdescending := h.descending
      have hwithin := h.within
      rw [hopen] at hdescending hwithin
      rcases List.pairwise_cons.mp hdescending with ⟨houter, hrest⟩
      -- The innermost mark is within, so it is what the assertions are cut back to.
      have hlength : (s.assertions.take start).length = start :=
        List.length_take_of_le (hwithin start List.mem_cons_self)
      exact ⟨hrest, fun mark hmark => hlength.symm ▸ houter mark hmark⟩
  | asserted =>
      refine ⟨h.descending, fun mark hmark => ?_⟩
      rw [List.length_append]
      exact Nat.le_add_right_of_le (h.within mark hmark)
  | forgotten => exact ⟨List.Pairwise.nil, fun mark hmark => absurd hmark List.not_mem_nil⟩
  | _ => exact ⟨h.descending, h.within⟩

theorem marked_after (requests : List Request) : (after requests).Marked :=
  after_induction Marked ⟨List.Pairwise.nil, fun _ hmark => absurd hmark List.not_mem_nil⟩
    marked_perform requests

/-- To check again is to be told the verdict that is remembered. -/
theorem run_check_of_remembers (s : IntervalSolver) (h : s.Remembers) (v : Verdict)
    (hv : s.lastCheck = some v) : check.run s = (.ok v, s) := by
  rw [run_check, h v hv]
  exact congrArg (Prod.mk _) (congrArg (IntervalSolver.mk _ _ _) hv.symm)

end Marks

section References

/-- The request is to reset. -/
def Request.isReset : Request → Bool
  | .reset => true
  | _ => false

/-- The calls since the last reset. -/
def sinceReset (requests : List Request) : List Request :=
  requests.rtakeWhile fun r => !r.isReset

/-- The request is to take a reference to one of some terms. -/
def takes (q : Term → Bool) : Request → Bool
  | .retain t => q t
  | _ => false

/-- The request is to give a reference to one of some terms back. -/
def returns (q : Term → Bool) : Request → Bool
  | .release t => q t
  | _ => false

/-- How many references to some terms are successfully given back by calls from a state on. -/
def returned (q : Term → Bool) (s : IntervalSolver) : List Request → Nat
  | [] => 0
  | r :: rest =>
    (if returns q r && s.succeeds r then 1 else 0) + returned q (s.perform r) rest

theorem countP_erase_of_mem (q : Term → Bool) (t : Term) (ts : List Term) (h : t ∈ ts) :
    (ts.erase t).countP q + (if q t then 1 else 0) = ts.countP q := by
  rw [(List.perm_cons_erase h).countP_eq, List.countP_cons]

variable (q : Term → Bool)

/-- A call other than a reset takes a reference, gives one back, or leaves them alone. -/
theorem countP_references_perform (s : IntervalSolver) (r : Request) (hr : r.isReset = false) :
    (s.perform r).references.countP q + (if returns q r && s.succeeds r then 1 else 0)
      = s.references.countP q + if takes q r then 1 else 0 := by
  have hdoes := s.does_of_perform r
  generalize s.perform r = s' at hdoes
  generalize s.succeeds r = success at hdoes
  cases hdoes with
  | forgotten => cases hr
  | @taken t =>
      change List.countP q (t :: s.references) + 0 = _
      rw [List.countP_cons]
      rfl
  | @givenBack t hheld =>
      change _ + (if q t && true then 1 else 0) = _ + 0
      rw [Bool.and_true, Nat.add_zero]
      exact countP_erase_of_mem q t s.references hheld
  | @notHeld t =>
      change _ + (if q t && false then 1 else 0) = _ + 0
      rw [Bool.and_false]
      rfl
  | _ => rfl

theorem countP_references_of_calls (calls : List Request) (hcalls : ∀ r ∈ calls, r.isReset = false)
    (s : IntervalSolver) :
    (calls.foldl perform s).references.countP q + returned q s calls
      = s.references.countP q + calls.countP (takes q) := by
  induction calls generalizing s with
  | nil => rfl
  | cons r calls ih =>
      rcases List.forall_mem_cons.mp hcalls with ⟨hr, hrest⟩
      -- The first call is counted from this state, and the others from the state that it leaves.
      have hfirst := countP_references_perform q s r hr
      have hlater := ih hrest (s.perform r)
      rw [List.foldl_cons, returned, List.countP_cons]
      omega

/-- Nothing from before the last reset is left. -/
theorem after_sinceReset (requests : List Request) :
    after (sinceReset requests) = after requests := by
  induction requests using List.reverseRecOn with
  | nil => rfl
  | append_singleton requests r ih =>
      unfold sinceReset at ih ⊢
      -- A reset cuts off everything before it, and leads to the initial state from anywhere.
      rw [List.rtakeWhile_concat]
      unfold after at ih ⊢
      cases hr : r.isReset with
      | true =>
          cases r with
          | reset =>
              rw [List.foldl_append]
              rfl
          | _ => cases hr
      | false =>
          rw [Bool.not_false, if_pos rfl, List.foldl_append, List.foldl_append, ih]

/-- The references that are held and those that were given back make up those that were taken. -/
theorem countP_references (requests : List Request) :
    (after requests).references.countP q + returned q initial (sinceReset requests)
      = (sinceReset requests).countP (takes q) := by
  have hnone (r : Request) (hr : r ∈ sinceReset requests) : r.isReset = false := by
    have hkept : (fun r : Request => !r.isReset) r = true :=
      List.mem_rtakeWhile_imp (p := fun r : Request => !r.isReset) hr
    exact (Bool.not_eq_true' _).mp hkept
  have hcount := countP_references_of_calls q (sinceReset requests) hnone initial
  -- There is no reset among these calls, so the count begins with no references.
  rw [← after_sinceReset]
  rw [show initial.references = [] from rfl, List.countP_nil, Nat.zero_add] at hcount
  exact hcount

end References

section Tables

/-- How often terms are referred to, in the order in which references to them were first taken. -/
abbrev Tally := List (Term × Nat)

namespace Tally

/-- The references that a tally stands for. -/
def references (tally : Tally) : List Term := tally.flatMap fun entry => .replicate entry.2 entry.1

/-- Count one more reference to a term. -/
def increment (t : Term) : Tally → Tally
  | [] => [(t, 1)]
  | (u, n) :: rest => if u = t then (u, n + 1) :: rest else (u, n) :: increment t rest

/-- Count one reference less to a term, which is dropped with its last reference, and has to have
    one. -/
def decrement (t : Term) : Tally → Option Tally
  | [] => none
  | (u, n) :: rest =>
    if u = t then if 1 < n then some ((u, n - 1) :: rest) else some rest
    else (decrement t rest).map ((u, n) :: ·)

/-- The tally after a call. A call that fails does not change it. -/
def count (tally : Tally) : Request → Tally
  | .retain t => tally.increment t
  | .release t => (tally.decrement t).getD tally
  | .reset => []
  | _ => tally

/-- Each term has one entry, which is not zero. -/
structure Proper (tally : Tally) : Prop where
  distinct : (tally.map Prod.fst).Nodup
  positive : ∀ entry ∈ tally, 0 < entry.2

variable (t : Term) (tally : Tally)

theorem references_increment : (tally.increment t).references.Perm (t :: tally.references) := by
  induction tally with
  | nil => exact .refl _
  | cons entry rest ih =>
      rcases entry with ⟨u, n⟩
      rw [increment]
      split
      next hu =>
        cases hu
        exact .refl _
      next => exact (ih.append_left (.replicate n u)).trans List.perm_middle

theorem mem_fst_increment (u : Term) :
    u ∈ (tally.increment t).map Prod.fst ↔ u = t ∨ u ∈ tally.map Prod.fst := by
  induction tally with
  | nil => exact List.mem_cons
  | cons entry rest ih =>
      rcases entry with ⟨u', n⟩
      rw [increment]
      split
      next hu =>
        cases hu
        exact ⟨.inr, fun h => h.elim (fun h => h ▸ List.mem_cons_self) id⟩
      next =>
        rw [List.map_cons, List.map_cons, List.mem_cons, List.mem_cons, ih]
        exact or_left_comm

theorem proper_increment (h : tally.Proper) : (tally.increment t).Proper := by
  induction tally with
  | nil => exact ⟨List.pairwise_singleton _ t, List.forall_mem_singleton.mpr Nat.one_pos⟩
  | cons entry rest ih =>
      rcases entry with ⟨u, n⟩
      rcases List.nodup_cons.mp h.distinct with ⟨hnew, hdistinct⟩
      rcases List.forall_mem_cons.mp h.positive with ⟨hn, hpositive⟩
      rw [increment]
      split
      next => exact ⟨h.distinct, List.forall_mem_cons.mpr ⟨Nat.succ_pos n, hpositive⟩⟩
      next hu =>
        rcases ih ⟨hdistinct, hpositive⟩ with ⟨hdistinct', hpositive'⟩
        refine ⟨List.nodup_cons.mpr ⟨fun hmem => ?_, hdistinct'⟩,
          List.forall_mem_cons.mpr ⟨hn, hpositive'⟩⟩
        exact ((mem_fst_increment t rest u).mp hmem).elim hu hnew

/-- Either there is no reference to the term, or one of them is dropped. -/
theorem decrement_cases (h : tally.Proper) :
    (tally.decrement t = none ∧ t ∉ tally.references)
      ∨ ∃ less, tally.decrement t = some less
        ∧ (less.map Prod.fst).Sublist (tally.map Prod.fst) ∧ (∀ entry ∈ less, 0 < entry.2)
        ∧ tally.references.Perm (t :: less.references) := by
  induction tally with
  | nil => exact .inl ⟨rfl, List.not_mem_nil⟩
  | cons entry rest ih =>
      rcases entry with ⟨u, n⟩
      rcases List.forall_mem_cons.mp h.positive with ⟨hn, hpositive⟩
      rw [decrement]
      -- The entry is the one of the term, or the term is looked for among the others.
      by_cases hu : u = t
      · cases hu
        rw [if_pos rfl]
        obtain ⟨k, rfl⟩ : ∃ k, n = k + 1 := Nat.exists_eq_succ_of_ne_zero (Nat.ne_of_gt hn)
        refine .inr ?_
        by_cases hk : 1 < k + 1
        · rw [if_pos hk]
          exact ⟨_, rfl, .refl _,
            List.forall_mem_cons.mpr ⟨Nat.lt_of_succ_lt_succ hk, hpositive⟩, .refl _⟩
        -- It was the last reference, so the entry is dropped.
        · obtain rfl : k = 0 := by omega
          rw [if_neg hk]
          exact ⟨rest, rfl, List.sublist_cons_self _ _, hpositive, .refl _⟩
      · rw [if_neg hu]
        rcases ih ⟨(List.nodup_cons.mp h.distinct).2, hpositive⟩ with
          ⟨hnone, hmissing⟩ | ⟨less, hsome, hsub, hless, hperm⟩
        · refine .inl ⟨by rw [hnone]; rfl, fun hmem => ?_⟩
          rcases List.mem_append.mp hmem with hmem | hmem
          · exact hu (List.eq_of_mem_replicate hmem).symm
          · exact hmissing hmem
        · refine .inr ⟨(u, n) :: less, by rw [hsome]; rfl, hsub.cons_cons u,
            List.forall_mem_cons.mpr ⟨hn, hless⟩, ?_⟩
          exact (hperm.append_left (.replicate n u)).trans List.perm_middle

theorem mem_references : t ∈ tally.references ↔ ∃ n, (t, n) ∈ tally ∧ 0 < n := by
  refine List.mem_flatMap.trans ⟨fun ⟨⟨u, n⟩, hmem, ht⟩ => ?_, fun ⟨n, hmem, hn⟩ => ?_⟩
  · rcases List.mem_replicate.mp ht with ⟨hn, rfl⟩
    exact ⟨n, hmem, Nat.pos_of_ne_zero hn⟩
  · exact ⟨(t, n), hmem, List.mem_replicate.mpr ⟨Nat.ne_of_gt hn, rfl⟩⟩

theorem count_of_mem (h : (tally.map Prod.fst).Nodup) (n : Nat) (hmem : (t, n) ∈ tally) :
    tally.references.count t = n := by
  induction tally with
  | nil => exact absurd hmem List.not_mem_nil
  | cons entry rest ih =>
      rcases entry with ⟨u, m⟩
      rcases List.nodup_cons.mp h with ⟨hnew, hdistinct⟩
      change (.replicate m u ++ references rest : List Term).count t = n
      rw [List.count_append, List.count_replicate]
      rcases List.mem_cons.mp hmem with heq | hmem
      · cases heq
        -- The term has one entry only, so the others add nothing to the count.
        have hnone : t ∉ references rest := fun ht => by
          rcases (mem_references t rest).mp ht with ⟨k, hk, _⟩
          exact hnew (List.mem_map.mpr ⟨_, hk, rfl⟩)
        rw [if_pos (beq_self_eq_true t), List.count_eq_zero_of_not_mem hnone, Nat.add_zero]
      · have hne : ¬ (u == t) = true := fun hu =>
          hnew (List.mem_map.mpr ⟨_, hmem, (beq_iff_eq.mp hu).symm⟩)
        rw [if_neg hne, ih hdistinct hmem, Nat.zero_add]

/-- The entry of a term is the number of references to it. -/
theorem mem_iff_count (h : tally.Proper) (n : Nat) :
    (t, n) ∈ tally ↔ 0 < n ∧ tally.references.count t = n := by
  refine ⟨fun hmem => ⟨h.positive _ hmem, count_of_mem t tally h.distinct n hmem⟩,
    fun ⟨hn, hcount⟩ => ?_⟩
  rcases (mem_references t tally).mp (List.count_pos_iff.mp (hcount ▸ hn)) with ⟨m, hmem, _⟩
  have hm := count_of_mem t tally h.distinct m hmem
  rwa [← hcount, hm]

theorem length_references : tally.references.length = (tally.map Prod.snd).sum := by
  unfold references
  rw [List.length_flatMap]
  simp

end Tally

/-- The tally is the one of the references that the solver holds. -/
structure Tallied (s : IntervalSolver) (tally : Tally) : Prop where
  proper : tally.Proper
  held : s.references.Perm tally.references

theorem tallied_perform (s : IntervalSolver) (tally : Tally) (r : Request) (h : s.Tallied tally) :
    (s.perform r).Tallied (tally.count r) := by
  have hdoes := s.does_of_perform r
  generalize s.perform r = s' at hdoes
  generalize s.succeeds r = success at hdoes
  cases hdoes with
  -- Whether a reference is held is seen in the tally just as well as in the references.
  | @taken t =>
      exact ⟨tally.proper_increment t h.proper,
        (h.held.cons t).trans (tally.references_increment t).symm⟩
  | @givenBack t hheld =>
      -- The tally and the references agree on whether there is one to give back.
      rcases tally.decrement_cases t h.proper with ⟨_, hnone⟩ | ⟨less, hsome, hsub, hless, hperm⟩
      · exact absurd (h.held.subset hheld) hnone
      · rw [Tally.count, hsome]
        refine ⟨⟨hsub.nodup h.proper.distinct, hless⟩, ?_⟩
        exact (List.perm_cons_erase hheld).symm.trans (h.held.trans hperm) |>.cons_inv
  | @notHeld t hmissing =>
      rcases tally.decrement_cases t h.proper with ⟨hnone, _⟩ | ⟨less, _, _, _, hperm⟩
      · rw [Tally.count, hnone]
        exact h
      · exact absurd (h.held.symm.subset (hperm.symm.subset List.mem_cons_self)) hmissing
  | forgotten => exact ⟨⟨List.Pairwise.nil, nofun⟩, .refl _⟩
  | _ => exact ⟨h.proper, h.held⟩

theorem tallied_after (requests : List Request) :
    (after requests).Tallied (requests.foldl Tally.count []) := by
  -- The induction is over the calls, from any state that they start in and its tally.
  have hfold : ∀ s tally, s.Tallied tally →
      (requests.foldl perform s).Tallied (requests.foldl Tally.count tally) := by
    induction requests with
    | nil => exact fun _ _ h => h
    | cons r requests ih => exact fun s tally h => ih _ _ (tallied_perform s tally r h)
  exact hfold initial [] ⟨⟨List.Pairwise.nil, nofun⟩, .refl _⟩

end Tables

section Scopes

/-- The request neither opens nor closes a scope. -/
def Request.isQuiet : Request → Bool
  | .push | .pop | .reset => false
  | _ => true

/-- A segment of calls in which every scope is closed that is opened in it, and no other one. -/
inductive Nested : List Request → Prop where
  | nil : Nested []
  | quiet {r : Request} {rest : List Request} (only : r.isQuiet = true) (tail : Nested rest) :
      Nested (r :: rest)
  | scope {inner rest : List Request} (body : Nested inner) (tail : Nested rest) :
      Nested (.push :: (inner ++ .pop :: rest))

/-- A state with the same open scopes, in which assertions were only added. -/
structure Deeper (s s' : IntervalSolver) : Prop where
  scopes : s'.scopes = s.scopes
  assertions : s.assertions <+: s'.assertions

theorem deeper_of_quiet (s : IntervalSolver) (r : Request) (h : r.isQuiet = true) :
    s.Deeper (s.perform r) := by
  have hdoes := s.does_of_perform r
  generalize s.perform r = s' at hdoes
  generalize s.succeeds r = success at hdoes
  cases hdoes with
  -- A quiet call opens and closes no scope and does not reset.
  | opened => cases h
  | closed => cases h
  | noScope => cases h
  | forgotten => cases h
  | asserted => exact ⟨rfl, List.prefix_append _ _⟩
  | _ => exact ⟨rfl, List.prefix_refl _⟩

/-- Closing a scope behind which assertions were only added leaves those from before it. -/
theorem closed_of_deeper (s s' : IntervalSolver) (h : (s.perform .push).Deeper s') :
    s'.succeeds .pop = true ∧ (s'.perform .pop).assertions = s.assertions
      ∧ (s'.perform .pop).scopes = s.scopes := by
  have hscopes : s'.scopes = s.assertions.length :: s.scopes := h.scopes
  have hassertions : s.assertions <+: s'.assertions := h.assertions
  unfold succeeds perform
  rw [call, run_pop, hscopes]
  exact ⟨rfl, (List.prefix_iff_eq_take.mp hassertions).symm, rfl⟩

/-- A well-nested segment only adds assertions. By induction on the nesting: within a scope the
    induction hypothesis says that nothing before its mark is changed. -/
theorem deeper_of_nested (calls : List Request) (h : Nested calls) (s : IntervalSolver) :
    s.Deeper (calls.foldl perform s) := by
  induction h generalizing s with
  | nil => exact ⟨rfl, List.prefix_refl _⟩
  | @quiet r rest honly _ ih =>
      -- What the first call and the rest have added is put together.
      have hfirst := s.deeper_of_quiet r honly
      have hrest := ih (s.perform r)
      exact ⟨hrest.scopes.trans hfirst.scopes, hfirst.assertions.trans hrest.assertions⟩
  | @scope inner rest _ _ ihBody ihTail =>
      rw [List.foldl_cons, List.foldl_append, List.foldl_cons]
      rcases closed_of_deeper s _ (ihBody (s.perform .push)) with ⟨_, hassertions, hscopes⟩
      have hrest := ihTail ((inner.foldl perform (s.perform .push)).perform .pop)
      exact ⟨hrest.scopes.trans hscopes, hassertions ▸ hrest.assertions⟩

/-- A scope around a well-nested segment can be closed, and leaves the assertions and the open
    scopes as they were. -/
theorem restores_of_scope (inner : List Request) (h : Nested inner) (s : IntervalSolver) :
    ((.push :: inner).foldl perform s).succeeds .pop = true
      ∧ ((.push :: (inner ++ [.pop])).foldl perform s).assertions = s.assertions
      ∧ ((.push :: (inner ++ [.pop])).foldl perform s).scopes = s.scopes := by
  rw [List.foldl_cons, List.foldl_cons, List.foldl_append]
  exact closed_of_deeper s _ (deeper_of_nested inner h (s.perform .push))

end Scopes

/-- After any calls on a new solver: going outwards the marks of the scopes do not increase, and
    none exceeds the number of assertions. The references are those of a tally without an entry of
    zero, and their number is what is left of those that were taken since the last reset, for
    each term and for all of them. A verdict that is remembered is the one that another check
    would find, without changing anything, so interpolants are only given for assertions that are
    refuted. A call that fails changes nothing. And a scope around a well-nested segment of further
    calls can be closed, after which the assertions and the depth are as before. -/
theorem books_kept (requests : List Request) :
    let s := after requests
    let tally := requests.foldl Tally.count []
    let calls := sinceReset requests
    (s.scopes.Pairwise (fun inner outer => outer ≤ inner)
        ∧ ∀ mark ∈ s.scopes, mark ≤ s.assertions.length)
      ∧ ((tally.map Prod.fst).Nodup ∧ ∀ t n, (t, n) ∈ tally ↔ 0 < n ∧ s.references.count t = n)
      ∧ (∀ t, s.references.count t + returned (· == t) initial calls
          = calls.countP (takes (· == t)))
      ∧ (s.referenceCount = (tally.map Prod.snd).sum
          ∧ s.referenceCount + returned (fun _ => true) initial calls
            = calls.countP (takes fun _ => true))
      ∧ (∀ v, s.lastCheck = some v → check.run s = (.ok v, s))
      ∧ (∀ ts s', interpolants.run s = (.ok ts, s') → check.run s = (.ok .unsat, s))
      ∧ (∀ r, s.succeeds r = false → s.perform r = s)
      ∧ ∀ inner, Nested inner →
        let closing := after (requests ++ .push :: inner)
        let closed := after (requests ++ .push :: (inner ++ [.pop]))
        closing.succeeds .pop = true ∧ closed.assertions = s.assertions
          ∧ closed.depth = s.depth := by
  intro s tally calls
  have hmarked := marked_after requests
  have htallied : s.Tallied tally := tallied_after requests
  have hremembers := remembers_after requests
  refine ⟨⟨hmarked.descending, hmarked.within⟩, ⟨htallied.proper.distinct, fun t n => ?_⟩,
    fun t => countP_references (· == t) requests, ⟨?_, ?_⟩, ?_, ?_, s.perform_of_failure, ?_⟩
  · rw [htallied.held.count_eq]
    exact tally.mem_iff_count t htallied.proper n
  · exact htallied.held.length_eq.trans tally.length_references
  · have hcount := countP_references (fun _ => true) requests
    rw [List.countP_true] at hcount
    exact hcount
  · exact s.run_check_of_remembers hremembers
  · intro ts s' hinterpolants
    rw [run_interpolants] at hinterpolants
    split at hinterpolants
    next hrefuted => exact s.run_check_of_remembers hremembers .unsat hrefuted
    next => cases hinterpolants
  · intro inner hinner closing closed
    rcases restores_of_scope inner hinner s with ⟨hsucceeds, hassertions, hscopes⟩
    have hclosing : closing = (.push :: inner).foldl perform s := List.foldl_append
    have hclosed : closed = (.push :: (inner ++ [.pop])).foldl perform s := List.foldl_append
    rw [hclosing, hclosed]
    exact ⟨hsucceeds, hassertions, congrArg List.length hscopes⟩

/-- Calls of which some fail, before and after a reset, up to a contradiction in a scope. -/
def refutation : List Request :=
  [.pop, .assert (.var "b"), .retain (.var "a"), .reset, .assert (.cmp .ge (.var "x") (.int 0)),
    .retain (.var "a"), .retain (.var "b"), .retain (.var "b"), .release (.var "b"),
    .release (.var "c"), .push, .assert (.cmp .lt (.var "x") (.int 0)), .check]

/-- One term is retained twice and released once, and a release of what nobody retained fails. What
    is asserted in a closed scope does not stay. -/
theorem books_kept_refutation :
    (after refutation).referenceCount = 2
      ∧ check.run (after refutation) = (.ok .unsat, after refutation)
      ∧ (after refutation).perform (.release (.var "c")) = after refutation
      ∧ (after (refutation ++ [.push, .assert (.var "b"), .push, .check, .pop, .pop])).assertions
        = (after refutation).assertions := by
  rcases books_kept refutation with ⟨-, -, -, ⟨hnumber, -⟩, hchecked, -, hfailed, hclosed⟩
  have hinner : Nested [.assert (.var "b"), .push, .check, .pop] :=
    .quiet rfl (@Nested.scope [.check] [] (.quiet rfl .nil) .nil)
  refine ⟨hnumber.trans (by decide), hchecked .unsat (by decide),
    hfailed _ (by decide), (hclosed _ hinner).2.1⟩

/-- The first entry is older, and what was taken before the reset does not count. -/
example : refutation.foldl Tally.count [] = [(.var "a", 1), (.var "b", 1)] := by decide

end IntervalSolver

end ActorCheck

import ActorCheck.Proofs.Data.Reached
import ActorCheck.Proofs.Flow.Levels
import ActorCheck.Proofs.Relation.Applications

/-!
# Composed Relations Can Be Run

A relation with loops cannot be run to its end at once and is refused. Relations that are composed
of others are not: if those have no cycles and share no location, and what is new is new, then what
the combinators make of them has no cycles either, and so on for any nesting. Such a composition
always comes about, and a run along it fails only where the data fails.

Absence of cycles is what is handed on from the arguments to the result. That no loops are found
would not do, since the search for loops only looks at what an entry leads to, and at loops that are
entered at their heads, and a combinator can add entries and ways to the rest.

## Main definitions

* `Application.Fresh`: The arguments share no location, and what is new is new.
* `Relation.Composed`: The relations that are composed of acyclic ones.

## Theorems

* `Application.acyclic_of_gives`: What one application makes of acyclic relations.
* `Relation.acyclic_of_composed`: Any nesting of applications.
* `Relation.composed_runnable`: Compositions come about and can be run.
-/

namespace ActorCheck

namespace Relation

/-- Operations behind an acyclic relation, one after the other. -/
theorem acyclic_of_gives_appendAll (ops : List OperationId) (r r' : Relation) (s s' : IdSupply)
    (hwell : r.WellFormed) (hacyclic : r.Acyclic) (h : Gives (r.appendAll ops) s r' s') :
    r'.Acyclic := by
  induction ops generalizing r s with
  | nil =>
      rcases (gives_pure _ _ _ _).mp h with ⟨rfl, rfl⟩
      exact hacyclic
  | cons op ops ih =>
      rw [appendAll] at h
      rcases (gives_bind _ _ _ _ _).mp h with ⟨goto, s₁, _, h⟩
      rcases (gives_bind _ _ _ _ _).mp h with ⟨next, s₂, happend, h⟩
      -- The next location is new to the relation, or it would have been refused.
      rcases (gives_append_iff r op goto s₁ s₂ next).mp happend with ⟨hnew, hmade⟩
      refine ih next s₂ (wellFormed_of_make none _ s₁ s₂ next hmade) ?_ h
      rw [flow_of_gives_make none _ s₁ s₂ next hmade]
      exact r.toFlow.acyclic_append op hwell hacyclic goto hnew

namespace Application

variable (c : Application)

/-- No two arguments share a location, and what is given or drawn belongs to none of them. -/
structure Fresh (s : IdSupply) : Prop where
  disjoint : c.arguments.Pairwise fun a b => ∀ l ∈ a.locations, l ∉ b.locations
  new : ∀ l, c.given = some l ∨ c.drawn s = some l → ∀ a ∈ c.arguments, l ∉ a.locations
  apart : ∀ l, c.given = some l → c.drawn s ≠ some l

theorem not_taken_of_fresh (s : IdSupply) (h : c.Fresh s) (l : LocationId) : ¬ c.Taken l :=
  fun ⟨hgiven, a, ha, hl⟩ => h.new l (Or.inl hgiven) a ha hl

/-- A combinator makes an acyclic relation of acyclic relations. -/
theorem acyclic_of_gives (s s' : IdSupply) (r : Relation)
    (hargs : ∀ a ∈ c.arguments, a.WellFormed ∧ a.Acyclic) (hfresh : c.Fresh s)
    (h : Gives c.outcome s r s') : r.Acyclic := by
  -- What is made is looked at as a flow, in which levels show that there are no cycles.
  cases c with
  | concat a b =>
      rcases hargs a (List.mem_pair.mpr (Or.inl rfl)) with ⟨ha, hacyclic⟩
      rcases hargs b (List.mem_pair.mpr (Or.inr rfl)) with ⟨hb, hacyclic'⟩
      rw [flow_of_gives_make none _ s s' r h]
      exact Flow.acyclic_concat _ _ ha hb hacyclic hacyclic' (List.pairwise_pair.mp hfresh.disjoint)
  | append r₀ op goto =>
      rcases hargs r₀ (List.mem_singleton_self r₀) with ⟨hwell, hacyclic⟩
      rcases (gives_append_iff r₀ op goto s s' r).mp h with ⟨hnew, hmade⟩
      rw [flow_of_gives_make none _ s s' r hmade]
      exact r₀.toFlow.acyclic_append op hwell hacyclic goto hnew
  | prepend start op r₀ =>
      rcases hargs r₀ (List.mem_singleton_self r₀) with ⟨hwell, hacyclic⟩
      rcases (gives_prepend_iff r₀ op start s s' r).mp h with ⟨hnew, hmade⟩
      rw [flow_of_gives_make none _ s s' r hmade]
      exact r₀.toFlow.acyclic_prepend op hwell hacyclic start hnew
  | branch a b exit =>
      -- The entry of the choice is drawn and its exit is given. Both are new, and they are not the
      -- same.
      have hleft : a ∈ (branch a b exit).arguments := List.mem_pair.mpr (Or.inl rfl)
      have hright : b ∈ (branch a b exit).arguments := List.mem_pair.mpr (Or.inr rfl)
      rcases hargs a hleft with ⟨ha, hacyclic⟩
      rcases hargs b hright with ⟨hb, hacyclic'⟩
      have hentry := hfresh.new s.next (Or.inr rfl)
      have hexit := hfresh.new exit (Or.inl rfl)
      have hapart : s.next ≠ exit := fun heq => hfresh.apart exit rfl (congrArg some heq)
      rw [flow_of_gives_make none _ _ s' r ((gives_branch_iff a b exit s s' r).mp h).2]
      exact Flow.acyclic_branch _ _ ha hb hacyclic hacyclic'
        (List.pairwise_pair.mp hfresh.disjoint) s.next exit ⟨hentry a hleft, hentry b hright⟩
        ⟨hexit a hleft, hexit b hright⟩ hapart
  | sequence ops =>
      have hline : Gives (Relation.sequence ops) s r s' := h
      unfold Relation.sequence at hline
      -- A sequence begins with a single location, to which the operations are appended.
      rcases (gives_bind _ _ _ _ _).mp hline with ⟨start, s₁, hstart, hrest⟩
      cases hstart
      exact acyclic_of_gives_appendAll ops _ r _ s' (Flow.wellFormed_singleton s.next)
        (Flow.acyclic_singleton s.next) hrest
  | removeEpsilons r₀ =>
      rw [flow_of_gives_make _ _ s s' r h]
      exact r₀.toFlow.acyclic_removeEpsilons (hargs r₀ (List.mem_singleton_self r₀)).2

end Application

/-- The relations that are composed of well-formed acyclic ones. -/
inductive Composed : Relation → Prop where
  | given (r : Relation) (hwell : r.WellFormed) (hacyclic : r.Acyclic) : Composed r
  | applied (c : Application) (s s' : IdSupply) (r : Relation)
      (hargs : ∀ a ∈ c.arguments, Composed a) (hfresh : c.Fresh s)
      (h : Gives c.outcome s r s') : Composed r

/-- A transition between two locations. -/
def arrow (id : RelationId) (source target : LocationId) (op : OperationId) : Relation where
  toFlow := ((Flow.empty.addEntry source).addExit target).addEdge source op target
  id := id
  name := relationText id

theorem composed_arrow (id : RelationId) (source target : LocationId) (op : OperationId)
    (h : source ≠ target) : Composed (arrow id source target op) := by
  have hin : source ∈ (arrow id source target op).locations :=
    Std.ExtTreeSet.mem_insert.mpr (Or.inr Std.ExtTreeSet.mem_insert_self)
  have hout : target ∈ (arrow id source target op).locations := Std.ExtTreeSet.mem_insert_self
  -- One edge, from the one location to the other, which are ranked 0 and 1.
  have hedge : ∀ e ∈ (arrow id source target op).edges, e = ⟨source, target, op⟩ := by
    intro e he
    rcases Std.ExtTreeSet.mem_insert.mp he with heq | hnone
    · exact (Std.LawfulEqCmp.eq_of_compare heq).symm
    · exact absurd hnone Std.ExtTreeSet.not_mem_empty
  refine .given _ ((Flow.wellFormed_iff _).mpr ⟨fun e he => ?_, fun l hl => ?_, fun l hl => ?_⟩) ?_
  · cases hedge e he
    exact ⟨hin, hout⟩
  · rw [(Flow.mem_singleton_iff source l).mp hl]
    exact hin
  · rw [(Flow.mem_singleton_iff target l).mp hl]
    exact hout
  · refine Flow.acyclic_of_rank _ (fun l => if l = source then 0 else 1) fun e he => ?_
    cases hedge e he
    rw [if_pos rfl, if_neg h.symm]
    exact Nat.one_pos

theorem acyclic_of_composed (r : Relation) (h : Composed r) : r.WellFormed ∧ r.Acyclic := by
  -- By induction on how the relation was composed. Arguments need to be well formed too, for the
  -- levels.
  induction h with
  | given r hwell hacyclic => exact ⟨hwell, hacyclic⟩
  | applied c s s' r _ hfresh h ih =>
      exact ⟨c.wellFormed_of_gives s s' r h, c.acyclic_of_gives s s' r ih hfresh h⟩

/-- Combinators make a relation of composed ones. It has no cycles, so no loops are found in it, and
    a run along it is not refused: it fails exactly if it gets to a place where the data fails. -/
theorem composed_runnable :
    (∀ (c : Application) (s : IdSupply), (∀ a ∈ c.arguments, Composed a) → c.Fresh s →
        ∃ r s', Gives c.outcome s r s' ∧ Composed r)
      ∧ ∀ r, Composed r → r.Acyclic ∧ r.hasLoops = false
        ∧ ∀ (σ : Type) (runner : Runner σ) (start : LocationId) (s : σ),
          runner.runAlong r start s
              = runner.runFrom r (r.locations.size + Runner.patience) start s
            ∧ ((∃ e, runner.runAlong r start s = .error e)
              ↔ ∃ x, runner.Reaches r.toFlow (start, s) x ∧ runner.Fails r.toFlow x) := by
  constructor
  · intro c s hargs hfresh
    rcases c.exists_gives_outcome (fun a ha => (acyclic_of_composed a (hargs a ha)).1)
      (c.not_taken_of_fresh s hfresh) s with ⟨r, s', h⟩
    exact ⟨r, s', h, .applied c s s' r hargs hfresh h⟩
  · intro r hr
    rcases acyclic_of_composed r hr with ⟨hwell, hacyclic⟩
    refine ⟨hacyclic, r.hasLoops_of_acyclic hacyclic, fun σ runner start s => ?_⟩
    have hrun := runner.runAlong_eq r hacyclic start s
    refine ⟨hrun, ?_⟩
    rw [hrun]
    refine runner.runFrom_error_iff r _ start s fun ops m hwalk => ?_
    -- A run may go on for as many steps as there are locations, and a little more. A walk without
    -- repetitions needs no more of them.
    cases hwalk with
    | nil => exact Nat.lt_of_lt_of_le (by decide) (Nat.le_add_left _ _)
    | cons edge hrest =>
        have hin := (r.mem_locations_of_edge _ hwell edge).1
        exact Nat.lt_add_right _ (r.length_of_walk start m _ hwell hin
          (r.acyclicFrom_of_acyclic hacyclic start) (.cons edge hrest))

/-- A choice between two transitions, with an entry that is drawn and an exit that is given. -/
theorem composed_runnable_arrows :
    ∃ r s', Gives ((arrow 10 3 4 7).branch (arrow 11 5 6 8) 9) ⟨20⟩ r s' ∧ r.hasLoops = false := by
  have hargs : ∀ a ∈ [arrow 10 3 4 7, arrow 11 5 6 8], Composed a := by
    intro a ha
    rcases List.mem_pair.mp ha with rfl | rfl
    · exact composed_arrow 10 3 4 7 (by decide)
    · exact composed_arrow 11 5 6 8 (by decide)
  have hdisjoint : ∀ l ∈ (arrow 10 3 4 7).locations.toList,
      l ∉ (arrow 11 5 6 8).locations := by decide
  -- The exit is the 9 that is given, and the entry is the 20 that is drawn next.
  have hnew : ∀ l ∈ [9, 20], ∀ a ∈ [arrow 10 3 4 7, arrow 11 5 6 8], l ∉ a.locations := by decide
  have hfresh : (Application.branch (arrow 10 3 4 7) (arrow 11 5 6 8) 9).Fresh ⟨20⟩ := by
    refine ⟨List.pairwise_pair.mpr fun l hl => hdisjoint l (Std.ExtTreeSet.mem_toList.mpr hl),
      fun l hl => hnew l (List.mem_pair.mpr ?_), ?_⟩
    · exact hl.imp (fun h => (Option.some.inj h).symm) fun h => (Option.some.inj h).symm
    · intro l hl
      cases hl
      decide
  rcases composed_runnable.1 (.branch _ _ 9) ⟨20⟩ hargs hfresh with ⟨r, s', hmade, hr⟩
  exact ⟨r, s', hmade, (composed_runnable.2 r hr).2.1⟩

end Relation

end ActorCheck

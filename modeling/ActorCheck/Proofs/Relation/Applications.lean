import ActorCheck.Proofs.Data.Sequences
import ActorCheck.Proofs.Relation.Extensions

/-!
# Applications of Combinators

The combinators differ in what they compose, but all of them are used in the same way: they are
applied to relations, some are given a location that is to be new, and some draw one themselves. An
`Application` is a combinator together with what it is applied to, so what holds of any nesting of
combinators can be said, and shown, one application at a time.

An application to well-formed relations goes wrong in one way only. If the location that is given
belongs to an argument, it is refused, and nothing is drawn. Otherwise a relation is made: its
edges, locations, entries and exits are put together separately and are checked against each other,
but the check finds nothing.

## Main definitions

* `Relation.Application`: A combinator with what it is applied to.
* `Application.arguments`, `Application.given`, `Application.drawn`: What that is.
* `Application.outcome`: What the combinator makes of it.
* `Application.Taken`: The location that is given belongs to an argument.

## Theorems

* `Relation.gives_branch_iff`: When a choice can be made.
* `Application.exists_gives_outcome`, `Application.outcome_error_iff`: An application fails exactly
  if the given location is taken.
-/

namespace ActorCheck

namespace Relation

theorem gives_branch_iff (a b : Relation) (exit : LocationId) (s s' : IdSupply) (r : Relation) :
    Gives (a.branch b exit) s r s' ↔ ¬ (exit ∈ a.locations ∨ exit ∈ b.locations)
      ∧ Gives (make none (a.toFlow.branch b.toFlow s.next exit)) ⟨s.next + 1⟩ r s' := by
  refine (gives_guarded_iff _ _ _ s s' r).trans (and_congr_right' ?_)
  constructor
  · intro h
    rcases (gives_bind _ _ _ _ _).mp h with ⟨entry, s₁, hentry, h⟩
    cases hentry
    exact h
  · intro h
    exact (gives_bind _ _ _ _ _).mpr ⟨s.next, ⟨s.next + 1⟩, rfl, h⟩

/-- A combinator with what it is applied to. -/
inductive Application where
  | concat (a b : Relation)
  | append (r : Relation) (op : OperationId) (goto : LocationId)
  | prepend (start : LocationId) (op : OperationId) (r : Relation)
  | branch (a b : Relation) (exit : LocationId)
  | sequence (ops : List OperationId)
  | removeEpsilons (r : Relation)

namespace Application

/-- The relations that a combinator is applied to. -/
def arguments : Application → List Relation
  | concat a b | branch a b _ => [a, b]
  | append r _ _ | prepend _ _ r | removeEpsilons r => [r]
  | sequence _ => []

/-- The location that a combinator is given as a new one. -/
def given : Application → Option LocationId
  | append _ _ l | prepend l _ _ | branch _ _ l => some l
  | concat _ _ | sequence _ | removeEpsilons _ => none

/-- The location that a combinator draws and composes with its arguments. Those of a sequence have
    no arguments to be composed with. -/
def drawn (s : IdSupply) : Application → Option LocationId
  | branch _ _ _ => some s.next
  | _ => none

/-- What the combinator makes. -/
def outcome : Application → Drawing Relation
  | concat a b => a.concat b
  | append r op goto => r.append op goto
  | prepend start op r => Relation.prepend start op r
  | branch a b exit => a.branch b exit
  | sequence ops => Relation.sequence ops
  | removeEpsilons r => r.removeEpsilons

variable (c : Application)

/-- The location that is given belongs to an argument. -/
def Taken (l : LocationId) : Prop := c.given = some l ∧ ∃ a ∈ c.arguments, l ∈ a.locations

/-- What a combinator makes is well formed, whatever it was applied to. -/
theorem wellFormed_of_gives (s s' : IdSupply) (r : Relation) (h : Gives c.outcome s r s') :
    r.WellFormed := by
  cases c with
  | concat a b => exact wellFormed_of_make none _ s s' r h
  | append r₀ op goto =>
      exact wellFormed_of_make none _ s s' r ((gives_append_iff r₀ op goto s s' r).mp h).2
  | prepend start op r₀ =>
      exact wellFormed_of_make none _ s s' r ((gives_prepend_iff r₀ op start s s' r).mp h).2
  | branch a b exit =>
      exact wellFormed_of_make none _ _ s' r ((gives_branch_iff a b exit s s' r).mp h).2
  | sequence ops => exact wellFormed_of_gives_sequence ops r s s' h
  | removeEpsilons r₀ => exact wellFormed_of_make _ _ s s' r h

/-- A location that is taken is refused. -/
theorem outcome_of_taken (l : LocationId) (h : c.Taken l) (s : IdSupply) :
    c.outcome.run s = (.error (.circularCombinator l), s) := by
  -- Only three combinators are given a location. They look for it before they do anything else.
  rcases h with ⟨hgiven, a, ha, hl⟩
  cases c with
  | append r₀ op goto =>
      cases hgiven
      cases List.mem_singleton.mp ha
      exact run_guarded _ _ _ hl s
  | prepend start op r₀ =>
      cases hgiven
      cases List.mem_singleton.mp ha
      exact run_guarded _ _ _ hl s
  | branch a₁ a₂ exit =>
      cases hgiven
      refine run_guarded _ _ _ ?_ s
      rcases List.mem_pair.mp ha with rfl | rfl
      · exact Or.inl hl
      · exact Or.inr hl
  | concat a₁ a₂ => cases hgiven
  | sequence ops => cases hgiven
  | removeEpsilons r₀ => cases hgiven

/-- Nothing else stands in the way: what is composed of well-formed relations passes the check. -/
theorem exists_gives_outcome (hargs : ∀ a ∈ c.arguments, a.WellFormed) (hfree : ∀ l, ¬ c.Taken l)
    (s : IdSupply) : ∃ r s', Gives c.outcome s r s' := by
  -- In each case the flow that is made is well formed because the arguments are, so the check of
  -- what is mentioned finds nothing.
  cases c with
  | concat a b =>
      have ha := hargs a (List.mem_pair.mpr (Or.inl rfl))
      have hb := hargs b (List.mem_pair.mpr (Or.inr rfl))
      rcases exists_gives_make none _ s (Flow.wellFormed_concat a.toFlow b.toFlow ha hb) with
        ⟨r, s', hmade, _⟩
      exact ⟨r, s', hmade⟩
  | append r₀ op goto =>
      have hwell := r₀.toFlow.wellFormed_append op goto (hargs r₀ (List.mem_singleton_self r₀))
      rcases exists_gives_make none _ s hwell with ⟨r, s', hmade, _⟩
      refine ⟨r, s', (gives_append_iff r₀ op goto s s' r).mpr ⟨fun hl => ?_, hmade⟩⟩
      exact hfree goto ⟨rfl, r₀, List.mem_singleton_self r₀, hl⟩
  | prepend start op r₀ =>
      have hwell := r₀.toFlow.wellFormed_prepend op (hargs r₀ (List.mem_singleton_self r₀)) start
      rcases exists_gives_make none _ s hwell with ⟨r, s', hmade, _⟩
      refine ⟨r, s', (gives_prepend_iff r₀ op start s s' r).mpr ⟨fun hl => ?_, hmade⟩⟩
      exact hfree start ⟨rfl, r₀, List.mem_singleton_self r₀, hl⟩
  | branch a b exit =>
      have ha := hargs a (List.mem_pair.mpr (Or.inl rfl))
      have hb := hargs b (List.mem_pair.mpr (Or.inr rfl))
      have hwell := Flow.wellFormed_branch a.toFlow b.toFlow ha hb s.next exit
      rcases exists_gives_make none _ ⟨s.next + 1⟩ hwell with ⟨r, s', hmade, _⟩
      refine ⟨r, s', (gives_branch_iff a b exit s s' r).mpr ⟨?_, hmade⟩⟩
      rintro (hl | hl)
      · exact hfree exit ⟨rfl, a, List.mem_pair.mpr (Or.inl rfl), hl⟩
      · exact hfree exit ⟨rfl, b, List.mem_pair.mpr (Or.inr rfl), hl⟩
  | sequence ops => exact exists_gives_sequence ops s
  | removeEpsilons r₀ =>
      rcases exists_gives_make (some r₀.name) _ s r₀.toFlow.plain_removeEpsilons.wellFormed with
        ⟨r, s', hmade, _⟩
      exact ⟨r, s', hmade⟩

/-- An application to well-formed relations fails exactly if the given location is taken, and says
    which one it is. -/
theorem outcome_error_iff (hargs : ∀ a ∈ c.arguments, a.WellFormed) (s : IdSupply)
    (e : ModelError) :
    (c.outcome.run s).1 = .error e ↔ ∃ l, c.Taken l ∧ e = .circularCombinator l := by
  constructor
  · intro hfails
    -- If no location is taken the application succeeds, so it is not the one that has failed.
    by_cases htaken : ∃ l, c.Taken l
    · rcases htaken with ⟨l, hl⟩
      rw [c.outcome_of_taken l hl s] at hfails
      cases hfails
      exact ⟨l, hl, rfl⟩
    · rcases c.exists_gives_outcome hargs (not_exists.mp htaken) s with ⟨r, s', hgives⟩
      unfold Gives at hgives
      rw [hgives] at hfails
      cases hfails
  · rintro ⟨l, hl, rfl⟩
    rw [c.outcome_of_taken l hl s]

end Application

end Relation

end ActorCheck

import ActorCheck.Proofs.Data.Sequences
import ActorCheck.Proofs.Flow.Extensions
import ActorCheck.Proofs.Relation.Words

/-!
# Words of Extended Relations

An operation can be put behind a relation or in front of it, on the way to or from a location that
is new, and the words change at that end. Many operations in a row, each behind the one before,
make a straight line, whose only word they are. That the operation which does nothing leaves no
trace is part of what a word is, so it needs no case of its own.

Nothing but a location that the relation already has is an obstacle. It is refused before a number
is drawn, and whether or not the relation is well formed. The locations of a sequence are drawn one
by one, so a sequence is never refused.

## Theorems

* `Relation.gives_append_iff`, `Relation.gives_prepend_iff`: When an operation can be put behind a
  relation, or in front of it.
* `Relation.language_of_gives_sequence`: The only word of a sequence.
* `Relation.words_of_extensions`: Operations behind a relation, in front of it, and in a row.
-/

namespace ActorCheck

namespace Flow

theorem toList_eq_singleton (set : LocationSet) (l : LocationId) (h : ∀ m, m ∈ set ↔ m = l) :
    set.toList = [l] := by
  have hsame : set = (∅ : LocationSet).insert l :=
    Std.ExtTreeSet.ext_mem fun m => (h m).trans (mem_singleton_iff l m).symm
  rw [hsame, toList_singleton]

/-- A line from its only entry to its only exit accepts the operations along it. -/
theorem language_of_line (g : Flow) (entry last : LocationId) (ops : List OperationId)
    (hentry : g.entries.toList = [entry]) (hexit : ∀ l, l ∈ g.exits ↔ l = last)
    (hline : g.Line last entry ops) : g.language = {word ops} := by
  have hin : ∀ l, l ∈ g.entries ↔ l = entry := by
    intro l
    rw [← Std.ExtTreeSet.mem_toList, hentry, List.mem_singleton]
  refine Set.ext fun w => ⟨?_, ?_⟩
  · rintro ⟨first, hfirst, exit, hlast, walked, hwalk, rfl⟩
    cases (hin first).mp hfirst
    cases (hexit exit).mp hlast
    -- A walk from the entry takes operations off the front of the line.
    rcases g.ahead_of_walk last entry last ops walked hline hwalk with ⟨rest, rfl, hrest⟩
    -- At its end nothing is ahead any more.
    rw [g.line_unique last last rest [] hrest ⟨rfl, g.edgesFrom_of_line last entry _ hline⟩,
      List.append_nil]
    rfl
  · rintro rfl
    exact ⟨entry, (hin entry).mpr rfl, last, (hexit last).mpr rfl, ops,
      g.walk_of_line last entry ops hline, rfl⟩

end Flow

namespace Relation

section Guards

variable {α : Type} (p : Prop) [Decidable p] (e : ModelError) (x : Drawing α)

/-- A computation behind a guard gives a result exactly if the guard lets it pass. -/
theorem gives_guarded_iff (s s' : IdSupply) (a : α) :
    Gives (if p then throw e else x) s a s' ↔ ¬ p ∧ Gives x s a s' := by
  -- The guard throws before anything is drawn, so nothing is given.
  by_cases h : p
  · rw [if_pos h]
    exact iff_of_false (not_gives_throw _ _ _ _) fun hboth => hboth.1 h
  · rw [if_neg h]
    exact (and_iff_right h).symm

/-- What a guard refuses is not begun. -/
theorem run_guarded (h : p) (s : IdSupply) :
    (if p then throw e else x : Drawing α).run s = (.error e, s) := by
  rw [if_pos h]
  rfl

variable (r : Relation) (op : OperationId) (l : LocationId) (s s' : IdSupply) (r' : Relation)

theorem gives_append_iff : Gives (r.append op l) s r' s'
    ↔ l ∉ r.locations ∧ Gives (make none (r.toFlow.append op l)) s r' s' :=
  gives_guarded_iff _ _ _ s s' r'

theorem gives_prepend_iff : Gives (prepend l op r) s r' s'
    ↔ l ∉ r.locations ∧ Gives (make none (Flow.prepend l op r.toFlow)) s r' s' :=
  gives_guarded_iff _ _ _ s s' r'

end Guards

/-- A sequence has one word, the operations in their order, one entry and one exit. -/
theorem language_of_gives_sequence (ops : List OperationId) (r : Relation) (s s' : IdSupply)
    (h : Gives (sequence ops) s r s') :
    r.language = {Flow.word ops}
      ∧ ∃ entry exit, r.entries.toList = [entry] ∧ r.exits.toList = [exit] := by
  rcases line_of_gives_sequence ops r s s' h with ⟨entry, last, hentry, hexit, hline⟩
  exact ⟨r.language_of_line entry last ops hentry hexit hline, entry, last, hentry,
    Flow.toList_eq_singleton _ last hexit⟩

/-- An operation behind a well-formed relation follows all its words, and leads to the only exit if
    there was one. An operation in front of it precedes all its words, and leads away from the only
    entry. A location that the relation has is refused in both places. Any operations in a row make
    a relation with one entry, one exit and one word. -/
theorem words_of_extensions (r : Relation) :
    (r.WellFormed → ∀ op l s, l ∉ r.locations →
        (∃ r' s', Gives (r.append op l) s r' s' ∧ r'.language = r.language * {Flow.word [op]}
            ∧ ((∃ exit, exit ∈ r.exits) → r'.exits.toList = [l]))
          ∧ ∃ r' s', Gives (prepend l op r) s r' s'
            ∧ r'.language = {Flow.word [op]} * r.language ∧ r'.entries.toList = [l])
      ∧ (∀ op l s, l ∈ r.locations →
          (r.append op l).run s = (.error (.circularCombinator l), s)
            ∧ (prepend l op r).run s = (.error (.circularCombinator l), s))
      ∧ ∀ ops s, ∃ r' s', Gives (sequence ops) s r' s' ∧ r'.language = {Flow.word ops}
          ∧ ∃ entry exit, r'.entries.toList = [entry] ∧ r'.exits.toList = [exit] := by
  refine ⟨fun h op l s hnew => ⟨?_, ?_⟩, fun op l s hold => ⟨?_, ?_⟩, fun ops s => ?_⟩
  -- What is made has the flow that was asked for, which is all that words and locations depend on.
  · rcases exists_gives_make none _ s (r.toFlow.wellFormed_append op l h) with
      ⟨r', s', hmade, hflow⟩
    refine ⟨r', s', (gives_append_iff r op l s s' r').mpr ⟨hnew, hmade⟩, ?_,
      fun ⟨exit, hexit⟩ => ?_⟩
    · rw [hflow]
      exact r.toFlow.language_append op h l hnew
    · rw [hflow, r.toFlow.exits_append op l exit hexit]
      exact Flow.toList_singleton l
  · rcases exists_gives_make none _ s (r.toFlow.wellFormed_prepend op h l) with
      ⟨r', s', hmade, hflow⟩
    refine ⟨r', s', (gives_prepend_iff r op l s s' r').mpr ⟨hnew, hmade⟩, ?_, ?_⟩
    · rw [hflow]
      exact r.toFlow.language_prepend op h l hnew
    · rw [hflow]
      exact Flow.toList_singleton l
  · exact run_guarded _ _ _ hold s
  · exact run_guarded _ _ _ hold s
  · rcases exists_gives_sequence ops s with ⟨r', s', hmade⟩
    exact ⟨r', s', hmade, language_of_gives_sequence ops r' s s' hmade⟩

/-- Something new can follow after the repetitions. A location of the relation is refused, and no
    number is drawn then. -/
theorem words_of_extensions_repeating :
    (∃ r s', Gives ((repeating 10 3 4 7).append 8 5) ⟨20⟩ r s' ∧ [7, 7, 8] ∈ r.language
        ∧ r.exits.toList = [5])
      ∧ ((repeating 10 3 4 7).append 8 3).run ⟨20⟩ = (.error (.circularCombinator 3), ⟨20⟩) := by
  rcases words_of_extensions (repeating 10 3 4 7) with ⟨hnew, hold, _⟩
  rcases hnew (by decide) 8 5 ⟨20⟩ (by decide) with ⟨⟨r, s', hmade, hwords, hexit⟩, _⟩
  refine ⟨⟨r, s', hmade, ?_, hexit ⟨4, by decide⟩⟩, (hold 8 3 ⟨20⟩ (by decide)).1⟩
  rw [hwords]
  exact ⟨[7, 7], accepts_repeating 10 3 4 7 (by decide), [8], rfl, rfl⟩

end Relation

end ActorCheck

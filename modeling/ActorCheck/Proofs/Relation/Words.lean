import ActorCheck.Proofs.Program.Judges

/-!
# Words of Relations

What the combinators of relations do to words. A combinator composes flows and checks the result,
and the check finds nothing, since a flow composed of well-formed flows is well formed. So each of
these results says that a relation is made, and which words it has.

Nothing is assumed about the relations but that they are well formed. They may have any number of
entries and exits, none included, edges may lead back to entries and on from exits, and there may be
cycles of edges that do nothing.

## Main definitions

* `Relation.repeating`: A relation that repeats an operation.

## Theorems

* `Relation.removeEpsilons_preserves_words`: Elimination of edges that do nothing.
* `Relation.words_of_combinations`: One relation after the other, and a choice of two.
-/

namespace ActorCheck

namespace Relation

theorem exists_gives_make (name : Option String) (g : Flow) (s : IdSupply) (h : g.WellFormed) :
    ∃ r s', Gives (make name g) s r s' ∧ r.toFlow = g :=
  ⟨_, _, (gives_make_iff name g s _ _).mpr ⟨h, rfl, rfl⟩, rfl⟩

/-- A relation that repeats an operation, and does nothing any number of times in between. -/
def repeating (id : RelationId) (first second : LocationId) (op : OperationId) : Relation where
  toFlow := ((((Flow.empty.addEntry first).addExit second).addEdge first op second).addEdge
    second epsilonId first).addEdge first epsilonId first
  id := id
  name := relationText id

theorem accepts_repeating (id : RelationId) (first second : LocationId) (op : OperationId)
    (h : op ≠ epsilonId) : (repeating id first second op).Accepts [op, op] := by
  let g : Flow := (repeating id first second op).toFlow
  have hback : ⟨second, first, epsilonId⟩ ∈ g.edges :=
    Std.ExtTreeSet.mem_insert.mpr (Or.inr Std.ExtTreeSet.mem_insert_self)
  have hforth : ⟨first, second, op⟩ ∈ g.edges :=
    Std.ExtTreeSet.mem_insert.mpr (Or.inr (Std.ExtTreeSet.mem_insert.mpr
      (Or.inr Std.ExtTreeSet.mem_insert_self)))
  -- There, back without doing anything, and there again.
  refine ⟨first, ?_, second, ?_, [op, epsilonId, op],
    .cons hforth (.cons hback (.cons hforth (.nil second))), ?_⟩
  · exact (Flow.mem_singleton_iff first first).mpr rfl
  · exact (Flow.mem_singleton_iff second second).mpr rfl
  · rw [Flow.word_cons op _ h, Flow.word_silent, Flow.word_cons op _ h, Flow.word_nil]

/-- A well-formed relation has an equivalent one in which every edge does something. It has the same
    entries and only locations that some entry leads to, its walks from an entry to an exit carry
    the words of the relation, and it is not changed any further. -/
theorem removeEpsilons_preserves_words (r : Relation) (h : r.WellFormed) (s : IdSupply) :
    ∃ r' s', Gives r.removeEpsilons s r' s' ∧ r'.entries = r.entries
      ∧ (∀ e ∈ r'.edges, e.op ≠ epsilonId)
      ∧ (∀ l ∈ r'.locations, ∃ entry ∈ r'.entries, ∃ ops, r'.Walk entry ops l)
      ∧ (∀ w, (∃ entry ∈ r'.entries, ∃ exit ∈ r'.exits, r'.Walk entry w exit) ↔ r.Accepts w)
      ∧ ∀ t, ∃ r'' t', Gives r'.removeEpsilons t r'' t' ∧ r''.toFlow = r'.toFlow := by
  have hplain := r.toFlow.plain_removeEpsilons
  rcases exists_gives_make (some r.name) _ s hplain.wellFormed with ⟨r', s', hmade, hflow⟩
  refine ⟨r', s', hmade, ?_⟩
  rw [hflow]
  refine ⟨rfl, hplain.acts, hplain.reached, r.toFlow.walk_removeEpsilons_iff h, fun t => ?_⟩
  -- Elimination for the second time meets a flow in which every edge does something and everything
  -- is reached, and leaves it alone.
  have hsame : r'.toFlow.removeEpsilons = r.toFlow.removeEpsilons := by
    rw [hflow]
    exact Flow.removeEpsilons_of_plain _ hplain
  rcases exists_gives_make (some r'.name) r'.toFlow.removeEpsilons t
    (hsame ▸ hplain.wellFormed) with ⟨r'', t', hagain, hflow'⟩
  exact ⟨r'', t', hagain, hflow'.trans hsame⟩

/-- The operation can still be repeated when nothing is done in between any more. -/
theorem removeEpsilons_preserves_words_repeating :
    ∃ r' s', Gives (repeating 10 3 4 7).removeEpsilons ⟨20⟩ r' s'
      ∧ (∀ e ∈ r'.edges, e.op ≠ epsilonId)
      ∧ ∃ entry ∈ r'.entries, ∃ exit ∈ r'.exits, r'.Walk entry [7, 7] exit := by
  rcases removeEpsilons_preserves_words (repeating 10 3 4 7) (by decide) ⟨20⟩ with
    ⟨r', s', hmade, _, hacts, _, hwords, _⟩
  exact ⟨r', s', hmade, hacts, (hwords [7, 7]).mpr (accepts_repeating 10 3 4 7 (by decide))⟩

/-- For two well-formed relations without common locations: one after the other has the
    concatenations of their words, and a choice between new locations has the words of both, with
    one entry and one exit. -/
theorem words_of_combinations (a b : Relation) (ha : a.WellFormed) (hb : b.WellFormed)
    (hdisjoint : ∀ l ∈ a.locations, l ∉ b.locations) :
    (∀ s, ∃ r s', Gives (a.concat b) s r s' ∧ r.language = a.language * b.language)
      ∧ ∀ exit s, exit ∉ a.locations → exit ∉ b.locations →
        s.next ∉ a.locations → s.next ∉ b.locations → s.next ≠ exit →
        ∃ r s', Gives (a.branch b exit) s r s' ∧ r.language = a.language + b.language
          ∧ r.entries.toList = [s.next] ∧ r.exits.toList = [exit] := by
  constructor
  · intro s
    rcases exists_gives_make none _ s (Flow.wellFormed_concat a.toFlow b.toFlow ha hb) with
      ⟨r, s', hmade, hflow⟩
    refine ⟨r, s', hmade, ?_⟩
    rw [hflow]
    exact Flow.language_concat a.toFlow b.toFlow ha hb hdisjoint
  · intro exit s hexit hexit' hentry hentry' hapart
    have hwell := Flow.wellFormed_branch a.toFlow b.toFlow ha hb s.next exit
    rcases exists_gives_make none _ ⟨s.next + 1⟩ hwell with ⟨r, s', hmade, hflow⟩
    refine ⟨r, s', ?_, ?_⟩
    -- The check for the given exit is passed. The entry is drawn before the flow is made.
    · unfold branch
      rw [if_neg (not_or.mpr ⟨hexit, hexit'⟩)]
      exact (gives_bind _ _ _ _ _).mpr ⟨s.next, ⟨s.next + 1⟩, rfl, hmade⟩
    · rw [hflow]
      refine ⟨?_, Flow.toList_singleton s.next, Flow.toList_singleton exit⟩
      exact Flow.language_branch a.toFlow b.toFlow ha hb hdisjoint s.next exit
        ⟨hentry, hentry'⟩ ⟨hexit, hexit'⟩ hapart

/-- Two relations that repeat an operation each, in a row and as a choice. -/
theorem words_of_combinations_repeating :
    (∃ r s', Gives ((repeating 10 3 4 7).concat (repeating 11 5 6 8)) ⟨20⟩ r s'
        ∧ [7, 7, 8, 8] ∈ r.language)
      ∧ ∃ r s', Gives ((repeating 10 3 4 7).branch (repeating 11 5 6 8) 12) ⟨20⟩ r s'
        ∧ [8, 8] ∈ r.language ∧ r.entries.toList = [20] := by
  have hdisjoint : ∀ l ∈ (repeating 10 3 4 7).locations.toList,
      l ∉ (repeating 11 5 6 8).locations := by decide
  rcases words_of_combinations (repeating 10 3 4 7) (repeating 11 5 6 8) (by decide) (by decide)
    fun l hl => hdisjoint l (Std.ExtTreeSet.mem_toList.mpr hl) with ⟨hconcat, hbranch⟩
  constructor
  · rcases hconcat ⟨20⟩ with ⟨r, s', hmade, hwords⟩
    refine ⟨r, s', hmade, ?_⟩
    rw [hwords]
    exact ⟨[7, 7], accepts_repeating 10 3 4 7 (by decide), [8, 8],
      accepts_repeating 11 5 6 8 (by decide), rfl⟩
  · rcases hbranch 12 ⟨20⟩ (by decide) (by decide) (by decide) (by decide) (by decide) with
      ⟨r, s', hmade, hwords, hentries, _⟩
    refine ⟨r, s', hmade, ?_, hentries⟩
    rw [hwords]
    exact Or.inr (accepts_repeating 11 5 6 8 (by decide))

end Relation

end ActorCheck

import ActorCheck.Proofs.Flow.Walks
import ActorCheck.Proofs.Flow.WellFormed
import ActorCheck.Relation.Memo
import Mathlib.Data.List.Nodup

/-!
# Flows Turned Round

The reversed flow has an edge for every edge of the flow, with its ends exchanged. So what reaches a
location in the flow is what leaves it in the reversed one, and turning round twice changes nothing.

A walk is read backwards by putting its last edge first. Whatever cycles there are, a walk has
finitely many edges, so this is an induction on the walk in which the edge in front goes to the end.
Entries and exits change roles, and operations that do nothing are dropped in either order. So the
words of the reversed flow are the words of the flow read backwards.

A relation in use keeps its reversed view once somebody has asked for it. Questions do not change
the relation, and the view that is kept is the one that would be made anew. So the answers about
predecessors are those of the reversed flow, whatever was asked before.

## Main definitions

* `Memo.afterAsking`: A relation in use after some questions.

## Theorems

* `Flow.mem_edgesFrom`, `Flow.nodup_edgesFrom`: The edges that leave a location.
* `Flow.mem_edges_reverse`, `Flow.reverse_reverse`: The edges of the reversed flow.
* `Flow.wellFormed_reverse_iff`: Turning round leaves nothing dangling.
* `Flow.walk_reverse`: A walk read backwards.
* `Flow.language_reverse`: The words read backwards.
* `Memo.edgesTo_afterAsking`, `Memo.reversed_afterAsking`: Answers of a relation in use.
* `Relation.reverse_converse`: The reversed view is the exact converse.
-/

namespace ActorCheck

namespace Flow

variable (g : Flow)

/-- The edges that leave a location. -/
theorem mem_edgesFrom (l target : LocationId) (op : OperationId) :
    (op, target) ∈ g.edgesFrom l ↔ (⟨l, target, op⟩ : Edge) ∈ g.edges := by
  unfold edgesFrom
  rw [List.mem_map]
  constructor
  · rintro ⟨⟨source, target', op'⟩, he, heq⟩
    rcases List.mem_filter.mp he with ⟨hmem, hsource⟩
    cases heq
    rw [beq_iff_eq] at hsource
    cases hsource
    exact Std.ExtTreeSet.mem_toList.mp hmem
  · intro he
    exact ⟨⟨l, target, op⟩,
      List.mem_filter.mpr ⟨Std.ExtTreeSet.mem_toList.mpr he, beq_self_eq_true l⟩, rfl⟩

/-- Each of them is listed once. -/
theorem nodup_edgesFrom (l : LocationId) : (g.edgesFrom l).Nodup := by
  have hdistinct : g.edges.toList.Nodup := by
    refine (Std.ExtTreeSet.distinct_toList (t := g.edges)).imp fun hne heq => ?_
    exact hne (heq ▸ Std.ReflCmp.compare_self)
  unfold edgesFrom
  -- All these edges have the same source, so they differ in what is listed of them.
  refine List.Nodup.map_on (fun e he e' he' heq => ?_) (hdistinct.filter _)
  have hsource := beq_iff_eq.mp (List.mem_filter.mp he).2
  have hsource' := beq_iff_eq.mp (List.mem_filter.mp he').2
  rcases e with ⟨source, target, op⟩
  rcases e' with ⟨source', target', op'⟩
  cases heq
  cases hsource
  cases hsource'
  rfl

theorem mem_edges_reverse (l m : LocationId) (op : OperationId) :
    (⟨l, m, op⟩ : Edge) ∈ g.reverse.edges ↔ (⟨m, l, op⟩ : Edge) ∈ g.edges := by
  unfold reverse
  rw [Std.ExtTreeSet.mem_ofList, List.contains_iff_mem, List.mem_map]
  constructor
  · rintro ⟨e, he, heq⟩
    cases heq
    exact Std.ExtTreeSet.mem_toList.mp he
  · intro he
    exact ⟨_, Std.ExtTreeSet.mem_toList.mpr he, rfl⟩

/-- Turning round twice changes nothing. -/
theorem reverse_reverse : g.reverse.reverse = g := by
  -- Only the edges are to be compared. Entries and exits have changed places twice.
  have hedges : g.reverse.reverse.edges = g.edges := Std.ExtTreeSet.ext_mem fun e =>
    (g.reverse.mem_edges_reverse e.source e.target e.op).trans
      (g.mem_edges_reverse e.target e.source e.op)
  exact congrArg (Flow.mk g.locations g.entries g.exits) hedges

/-- What reaches a location is what leaves it in the reversed flow. -/
theorem mem_edgesTo_iff (l source : LocationId) (op : OperationId) :
    (op, source) ∈ g.edgesTo l ↔ (⟨source, l, op⟩ : Edge) ∈ g.edges := by
  unfold edgesTo
  rw [mem_edgesFrom, mem_edges_reverse]

theorem nodup_edgesTo (l : LocationId) : (g.edgesTo l).Nodup := g.reverse.nodup_edgesFrom l

theorem wellFormed_reverse (h : g.WellFormed) : g.reverse.WellFormed := by
  rcases g.wellFormed_iff.mp h with ⟨hedges, hentries, hexits⟩
  refine g.reverse.wellFormed_iff.mpr ⟨fun e he => ?_, hexits, hentries⟩
  exact (hedges _ ((g.mem_edges_reverse e.source e.target e.op).mp he)).symm

/-- Turning round leaves nothing dangling that was not dangling before. -/
theorem wellFormed_reverse_iff : g.reverse.WellFormed ↔ g.WellFormed :=
  ⟨fun h => g.reverse_reverse ▸ g.reverse.wellFormed_reverse h, g.wellFormed_reverse⟩

/-- A walk read backwards leads through the reversed flow. By induction on the walk, whose first
    edge is the last one backwards. -/
theorem walk_reverse (l m : LocationId) (ops : List OperationId) (h : g.Walk l ops m) :
    g.reverse.Walk m ops.reverse l := by
  induction h with
  | nil l => exact .nil l
  | @cons l n m op ops edge _ ih =>
      rw [List.reverse_cons]
      have hlast : g.reverse.Walk n [op] l := .cons ((g.mem_edges_reverse n l op).mpr edge) (.nil l)
      exact g.reverse.walk_trans m n l _ _ ih hlast

theorem word_reverse (ops : List OperationId) : word ops.reverse = (word ops).reverse :=
  List.filter_reverse

theorem accepts_reverse (w : List OperationId) (h : g.Accepts w) : g.reverse.Accepts w.reverse := by
  rcases h with ⟨entry, hentry, exit, hexit, ops, hwalk, rfl⟩
  exact ⟨exit, hexit, entry, hentry, ops.reverse, g.walk_reverse _ _ _ hwalk, word_reverse ops⟩

/-- The words of the reversed flow are the words of the flow read backwards. -/
theorem language_reverse : g.reverse.language = g.language.reverse := by
  ext w
  refine ⟨fun h => ?_, fun h => ?_⟩
  -- One direction is the other one for the reversed flow.
  · exact g.reverse_reverse ▸ g.reverse.accepts_reverse w h
  · exact w.reverse_reverse ▸ g.accepts_reverse w.reverse h

end Flow

namespace Memo

/-- A relation in use after some questions, of which nothing had been asked before. -/
def afterAsking (r : Relation) (asked : List Query) : Memo :=
  asked.foldl (fun m q => ((ask q).run m).2) (ofRelation r)

/-- Keeping the view does not change it. -/
theorem view_remember (m : Memo) : m.remember.view = m.view := rfl

theorem view_afterLoops (m : Memo) : m.afterLoops.view = m.view := by
  unfold afterLoops
  split
  · rfl
  · dsimp only
    split <;> rfl

theorem relation_afterLoops (m : Memo) : m.afterLoops.relation = m.relation := by
  unfold afterLoops
  split
  · rfl
  · dsimp only
    split <;> rfl

/-- A question changes neither the relation nor the view that a later question meets. -/
theorem unchanged_of_ask (q : Query) (m : Memo) :
    ((ask q).run m).2.relation = m.relation ∧ ((ask q).run m).2.view = m.view := by
  -- Three kinds of questions fill the table of loops and two the place of the view. Both are kept
  -- apart from the relation, and a view that is kept is the one that would be made.
  cases q with
  | edgesTo l => exact ⟨rfl, m.view_remember⟩
  | reversed => exact ⟨rfl, m.view_remember⟩
  | hasLoops => exact ⟨m.relation_afterLoops, m.view_afterLoops⟩
  | loopBody h => exact ⟨m.relation_afterLoops, m.view_afterLoops⟩
  | innermost l => exact ⟨m.relation_afterLoops, m.view_afterLoops⟩

theorem view_afterAsking (r : Relation) (asked : List Query) :
    (afterAsking r asked).view = ofRelation r.reverse := by
  unfold afterAsking
  -- All that is used of the fresh relation is its view, and no question changes that.
  generalize hm : ofRelation r = m
  have hview : m.view = ofRelation r.reverse := hm ▸ rfl
  clear hm
  induction asked generalizing m with
  | nil => exact hview
  | cons q asked ih => exact ih _ ((unchanged_of_ask q m).2.trans hview)

/-- What reaches a location is answered by the reversed flow, whatever was asked before. -/
theorem edgesTo_afterAsking (r : Relation) (asked : List Query) (l : LocationId) :
    ((edgesTo l).run (afterAsking r asked)).1 = r.edgesTo l := by
  change (afterAsking r asked).view.relation.edgesFrom l = _
  rw [view_afterAsking]
  rfl

theorem reversed_afterAsking (r : Relation) (asked : List Query) :
    (reversed.run (afterAsking r asked)).1 = r.reverse := by
  change (afterAsking r asked).view.relation = _
  rw [view_afterAsking]
  rfl

/-- The view of the view, whatever was asked before. -/
theorem onReversed_afterAsking (r : Relation) (asked : List Query) :
    ((onReversed reversed).run (afterAsking r asked)).1 = r.reverse.reverse := by
  change (afterAsking r asked).view.view.relation = _
  rw [view_afterAsking]
  rfl

end Memo

/-- The reversed view of a relation is its exact converse, whatever was asked of the relation
    before. An edge reaches a location exactly if it leaves its source, and no list of edges has
    repetitions. The view has the same locations, entries and exits with their roles exchanged, and
    is well formed exactly if the relation is. It has the words of the relation read backwards, and
    its own reversed view is the flow of the relation again. -/
theorem Relation.reverse_converse (r : Relation) (asked : List Memo.Query) :
    (∀ s t op, (op, s) ∈ ((Memo.edgesTo t).run (Memo.afterAsking r asked)).1
        ↔ (op, t) ∈ r.edgesFrom s)
      ∧ (∀ l, ((Memo.edgesTo l).run (Memo.afterAsking r asked)).1.Nodup ∧ (r.edgesFrom l).Nodup)
      ∧ (Memo.reversed.run (Memo.afterAsking r asked)).1 = r.reverse
      ∧ (r.reverse.WellFormed ↔ r.WellFormed)
      ∧ r.reverse.locations = r.locations
      ∧ r.reverse.entries = r.exits ∧ r.reverse.exits = r.entries
      ∧ r.reverse.language = r.language.reverse
      ∧ ((Memo.onReversed Memo.reversed).run (Memo.afterAsking r asked)).1.toFlow = r.toFlow := by
  refine ⟨fun s t op => ?_, fun l => ?_, Memo.reversed_afterAsking r asked,
    r.wellFormed_reverse_iff, rfl, rfl, rfl, r.language_reverse, ?_⟩
  · rw [Memo.edgesTo_afterAsking, r.mem_edgesTo_iff, r.mem_edgesFrom]
  · rw [Memo.edgesTo_afterAsking]
    exact ⟨r.nodup_edgesTo l, r.nodup_edgesFrom l⟩
  · rw [Memo.onReversed_afterAsking]
    exact r.reverse_reverse

end ActorCheck

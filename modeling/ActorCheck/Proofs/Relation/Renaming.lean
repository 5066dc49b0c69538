import ActorCheck.Proofs.Flow.Nesting
import ActorCheck.Proofs.Flow.Reversal
import Mathlib.Data.List.Basic

/-!
# Relations Under Another Name

A relation in use keeps its reversed view and the table of its loops, and both stay with it when it
is given another name. Is that noticed?

An answer depends on the memory through two things only, the view and the table, and a question
changes neither of them: what was not kept is afterwards kept as it would have been made anew. So
earlier questions do not matter for later ones. A question to the view changes the memory of the
view, which is the same case one level down, by induction on the question.

A new name does matter. The table is made from the flow alone, and so is all that the view tells
about edges and loops, but the view has a name of its own. A view that is kept has it from the name
at the first look back, a view that is made later from the present one. A look back is any question
to the view or about predecessors, and one about loops if some reachable location is no entry.

The history of a relation is therefore in one of two states. Before the first look back everything
is answered as for the relation under its present name. From then on everything is answered as for
the relation under the name it had at that moment, whatever it is called later.

## Main definitions

* `Memo.Query.tell`: The answer that the view and the table give.
* `Memo.Question`: A question to a relation, to its view, to the view of the view and so on.
* `Memo.Question.answer`: The answer without any memory.
* `Memo.Event`, `Memo.after`: What happens to a relation in use.
* `Memo.viewedAs`: The name at the first look back.
* `Memo.Unviewed`, `Memo.Viewed`: The two states of a history.

## Theorems

* `Flow.body?_loopTable`, `Flow.innermostHead?_loopTable`: The table tells about loops.
* `Memo.run_direct`: What a question does.
* `Memo.answer_after_question`, `Memo.answers_eq_map`: Questions do not matter for later ones.
* `Memo.answer_rename_iff`: Which answers tell a name.
* `Memo.unviewed_of_question`, `Memo.viewed_of_question`: What a question does to the two states.
* `Memo.states_of_history`, `Memo.answer_after_rename`: The state after a history.
* `Memo.renaming_transparent_iff`: When a new name is the only thing that changes.
-/

namespace ActorCheck

namespace Flow

variable (g : Flow)

/-- The table has an entry for every head, with the body of its loop. -/
theorem body?_loopTable (h : LocationId) : g.loopTable.body? h = g.loopBody? h := by
  unfold LoopTable.body? loopTable loopBody?
  split
  next hhead =>
    -- The table is the graph of the bodies over the heads, so a head is found with its body and
    -- anything else is not found.
    have hmem : h ∈ g.loopHeads := (g.mem_loopHeads_iff h).mpr ((g.isLoopHead_iff h).mp hhead)
    exact List.lookup_graph _ hmem
  next hhead =>
    refine List.lookup_eq_none_iff.mpr fun loop hloop => ?_
    rcases List.mem_map.mp hloop with ⟨k, hk, rfl⟩
    rw [bne_iff_ne]
    rintro rfl
    exact hhead ((g.isLoopHead_iff h).mpr ((g.mem_loopHeads_iff h).mp hk))

/-- The smallest loop is looked for among the entries as it is among the heads. -/
theorem smallest_map (hs : List LocationId) :
    LoopTable.smallest (hs.map fun h => (h, g.loopBody h))
      = (g.smallestLoop hs).map fun h => (h, g.loopBody h) := by
  induction hs with
  | nil => rfl
  | cons h hs ih =>
      rw [List.map_cons, LoopTable.smallest, ih, smallestLoop]
      -- The two searches take the same branch, as they compare the same bodies.
      cases g.smallestLoop hs with
      | none => rfl
      | some k =>
          dsimp only [Option.map_some]
          split <;> rfl

theorem innermostHead?_loopTable (l : LocationId) :
    g.loopTable.innermostHead? l = g.innermostHead? l := by
  unfold LoopTable.innermostHead? loopTable innermostHead?
  -- The filter goes inside the map, and what is found is reduced to its head.
  rw [List.filter_map, smallest_map, Option.map_map]
  exact Option.map_id'

theorem isEmpty_loopTable : (!g.loopTable.isEmpty) = g.hasLoops := by
  unfold loopTable hasLoops
  rw [List.isEmpty_map]

end Flow

namespace Memo

/-- A question about loops, and not about predecessors or the view. -/
def Query.aboutLoops : Query → Bool
  | .edgesTo _ => false
  | .reversed => false
  | .hasLoops => true
  | .loopBody _ => true
  | .innermost _ => true

/-- The answer that the reversed view and the table of loops give. -/
def Query.tell (view : Relation) (table : LoopTable) : Query → Answer
  | .edgesTo l => .edges (view.edgesFrom l)
  | .reversed => .relation view
  | .hasLoops => .flag (!table.isEmpty)
  | .loopBody h => .body (table.body? h)
  | .innermost l => .head (table.innermostHead? l)

/-- A question to a relation itself, to its reversed view, to the view of the view and so on. -/
inductive Question where
  | direct (q : Query)
  | ofView (q : Question)

namespace Question

/-- Ask a question, at the level it is meant for. -/
def ask : Question → StateM Memo Answer
  | direct q => Memo.ask q
  | ofView q => onReversed q.ask

/-- The answer for a relation, without any memory. -/
def answer (r : Relation) : Question → Answer
  | direct (.edgesTo l) => .edges (r.edgesTo l)
  | direct .reversed => .relation r.reverse
  | direct .hasLoops => .flag r.hasLoops
  | direct (.loopBody h) => .body (r.loopBody? h)
  | direct (.innermost l) => .head (r.innermostHead? l)
  | ofView q => q.answer r.reverse

/-- The question needs the reversed view. Those about loops do if some reachable location is no
    entry. -/
def looksBack (g : Flow) : Question → Bool
  | direct q => !q.aboutLoops || Memo.looksBack g
  | ofView _ => true

/-- The answer is a view, which has a name. -/
def tellsName : Question → Bool
  | direct .reversed => true
  | direct _ => false
  | ofView q => q.tellsName

end Question

/-- What can happen to a relation in use. -/
inductive Event where
  | asked (q : Question)
  | renamed (name : String)

/-- The memory after something has happened. -/
def happens (m : Memo) : Event → Memo
  | .asked q => (q.ask.run m).2
  | .renamed name => m.rename name

/-- A relation of which nothing had been asked, after some events. -/
def after (r : Relation) (history : List Event) : Memo := history.foldl happens (ofRelation r)

/-- The answers to questions that are asked one after the other. -/
def answers (m : Memo) : List Question → List Answer
  | [] => []
  | q :: qs => (q.ask.run m).1 :: answers (q.ask.run m).2 qs

/-- The name of a relation at the first look back, if there is one. -/
def viewedAs (g : Flow) (name : String) : List Event → Option String
  | [] => none
  | .asked q :: history => if q.looksBack g then some name else viewedAs g name history
  | .renamed other :: history => viewedAs g other history

section Parts

/-- What a question to the relation itself does: it is answered from the view or the table, and
    what it was answered from is kept. -/
theorem run_direct (q : Query) (m : Memo) : (Question.direct q).ask.run m
    = (q.tell m.view.relation m.table, if q.aboutLoops then m.afterLoops else m.remember) := by
  cases q <;> rfl

theorem table_afterLoops (m : Memo) : m.afterLoops.table = m.table := by
  unfold afterLoops
  -- If a table is kept it stays; otherwise the one that is kept is the one that would have been
  -- made.
  split
  · rfl
  · exact Option.getD_some

/-- A question changes neither the relation nor the table that a later question meets. -/
theorem unchanged_of_question (q : Question) (m : Memo) :
    (q.ask.run m).2.relation = m.relation ∧ (q.ask.run m).2.table = m.table := by
  -- A question to the view changes the view's own memory, which has no part in either.
  cases q with
  | ofView q => exact ⟨rfl, rfl⟩
  | direct q =>
      refine ⟨(unchanged_of_ask q m).1, ?_⟩
      rw [run_direct]
      dsimp only
      split
      · exact m.table_afterLoops
      · rfl

/-- An answer depends on the view and the table only. -/
theorem answer_of_parts (q : Question) (m m' : Memo) (hview : m.view = m'.view)
    (htable : m.table = m'.table) : (q.ask.run m).1 = (q.ask.run m').1 := by
  cases q with
  | ofView q => exact congrArg (fun v => (q.ask.run v).1) hview
  | direct q => rw [run_direct, run_direct, hview, htable]

/-- A question does not matter for a later one. By induction on the earlier question: one to the
    view leaves a view of which the later question meets the same. -/
theorem answer_after_question (q later : Question) (m : Memo) :
    (later.ask.run (q.ask.run m).2).1 = (later.ask.run m).1 := by
  -- The later question is generalized because it is passed down one level together with the earlier
  -- one.
  induction q generalizing later m with
  | direct q =>
      exact answer_of_parts later _ m (unchanged_of_ask q m).2
        (unchanged_of_question (.direct q) m).2
  | ofView q ih =>
      cases later with
      | ofView later => exact ih later m.view
      -- A direct question looks at the view only as a relation, which the earlier question has not
      -- changed.
      | direct later =>
          have hview := (unchanged_of_question q m.view).1
          rw [run_direct, run_direct]
          exact congrArg (fun view => later.tell view m.table) hview

/-- Questions asked one after the other are answered like each of them alone. -/
theorem answers_eq_map (m : Memo) (qs : List Question) :
    answers m qs = qs.map fun q => (q.ask.run m).1 := by
  induction qs generalizing m with
  | nil => rfl
  | cons q qs ih =>
      rw [answers, ih, List.map_cons]
      simp only [answer_after_question]

/-- A relation of which nothing was asked is answered for as it is. -/
theorem answer_ofRelation (q : Question) (r : Relation) :
    (q.ask.run (ofRelation r)).1 = q.answer r := by
  -- One level down the relation is the reversed one, of which nothing was asked either.
  induction q generalizing r with
  | ofView q ih => exact ih r.reverse
  | direct q =>
      cases q with
      | edgesTo l => rfl
      | reversed => rfl
      | hasLoops => exact congrArg Answer.flag r.isEmpty_loopTable
      | loopBody h => exact congrArg Answer.body (r.body?_loopTable h)
      | innermost l => exact congrArg Answer.head (r.innermostHead?_loopTable l)

end Parts

section Names

theorem reverse_rename (r : Relation) (n : String) :
    (r.rename n).reverse = r.reverse.rename (n ++ "~") := rfl

/-- Only answers with a name tell one name of a relation from another. -/
theorem answer_rename_iff (q : Question) (r : Relation) (n n' : String) :
    q.answer (r.rename n) = q.answer (r.rename n') ↔ n = n' ∨ q.tellsName = false := by
  -- A mark is added with every level, and names with one mark more are the same exactly if the
  -- names are.
  induction q generalizing r n n' with
  | ofView q ih =>
      unfold Question.answer Question.tellsName
      rw [reverse_rename, reverse_rename, ih, String.append_left_inj]
  | direct q =>
      cases q with
      -- The only direct answer that has a name in it.
      | reversed =>
          unfold Question.answer Question.tellsName
          rw [Answer.relation.injEq, reverse_rename, reverse_rename]
          refine ⟨fun h => Or.inl ?_, ?_⟩
          · exact (String.append_left_inj "~").mp (congrArg Relation.name h)
          · rintro (rfl | h)
            · rfl
            · cases h
      | edgesTo l => exact ⟨fun _ => Or.inr rfl, fun _ => rfl⟩
      | hasLoops => exact ⟨fun _ => Or.inr rfl, fun _ => rfl⟩
      | loopBody h => exact ⟨fun _ => Or.inr rfl, fun _ => rfl⟩
      | innermost l => exact ⟨fun _ => Or.inr rfl, fun _ => rfl⟩

end Names

section Histories

/-- Nothing has needed the view yet. The loops may be kept if they were found without it. -/
structure Unviewed (r : Relation) (m : Memo) : Prop where
  relation : m.relation = r
  kept : m.kept = none
  loops : ∀ t, m.loops = some t → t = r.loopTable ∧ looksBack r.toFlow = false

/-- The view is kept, and all is answered as for the relation under the name it had when the view
    was made. -/
structure Viewed (r : Relation) (m : Memo) : Prop where
  relation : ∃ n, m.relation = r.rename n
  kept : m.kept ≠ none
  answer : ∀ q : Question, (q.ask.run m).1 = q.answer r

variable (r : Relation) (m : Memo)

theorem unviewed_ofRelation : Unviewed r (ofRelation r) := ⟨rfl, rfl, nofun⟩

theorem answer_of_unviewed (h : Unviewed r m) (q : Question) : (q.ask.run m).1 = q.answer r := by
  -- Neither the view nor the table differs from what would be made for a relation of which nothing
  -- was asked.
  have hview : m.view = (ofRelation r).view := by
    unfold view
    rw [h.kept, h.relation]
    rfl
  have htable : m.table = (ofRelation r).table := by
    unfold table
    cases hloops : m.loops with
    | none => exact congrArg (fun r : Relation => r.loopTable) h.relation
    | some t => exact (h.loops t hloops).1
  rw [answer_of_parts q m (ofRelation r) hview htable, answer_ofRelation]

theorem unviewed_afterLoops (h : Unviewed r m) (hback : looksBack r.toFlow = false) :
    Unviewed r m.afterLoops := by
  have htable := m.table_afterLoops
  unfold afterLoops at htable ⊢
  -- If the table is kept already nothing happens. Otherwise it is made, and no view with it as none
  -- is looked back at.
  split
  next => exact h
  next hnone =>
    dsimp only
    rw [h.relation, hback, if_neg Bool.false_ne_true]
    refine ⟨h.relation, h.kept, fun t ht => ⟨?_, hback⟩⟩
    cases ht
    unfold table
    rw [hnone, h.relation]
    rfl

/-- A look back makes the view, also in a search for loops: they cannot be kept already if they need
    the view. -/
theorem kept_afterLoops (h : Unviewed r m) (hback : looksBack r.toFlow = true) :
    m.afterLoops.kept ≠ none := by
  unfold afterLoops
  split
  next t hloops =>
    rw [(h.loops t hloops).2] at hback
    cases hback
  next =>
    dsimp only
    rw [h.relation, hback, if_pos rfl]
    exact Option.some_ne_none _

/-- A question that needs no view leaves everything as it is but the table. -/
theorem unviewed_of_question (q : Question) (h : Unviewed r m)
    (hback : q.looksBack r.toFlow = false) : Unviewed r (q.ask.run m).2 := by
  cases q with
  | ofView q => cases hback
  | direct q =>
      rw [Question.looksBack, Bool.or_eq_false_iff, Bool.not_eq_false'] at hback
      rw [run_direct, hback.1, if_pos rfl]
      exact unviewed_afterLoops r m h hback.2

/-- The first look back. The view that is kept from now on has the present name of the relation. -/
theorem viewed_of_lookBack (q : Question) (h : Unviewed r m)
    (hback : q.looksBack r.toFlow = true) : Viewed r (q.ask.run m).2 := by
  refine ⟨⟨r.name, (unchanged_of_question q m).1.trans h.relation⟩, ?_, fun later => ?_⟩
  -- A question to the view keeps it, and so does any direct one but those about loops. These look
  -- back here, by assumption.
  · cases q with
    | ofView q => exact Option.some_ne_none _
    | direct q =>
        rw [run_direct]
        dsimp only
        split
        next hloops =>
          rw [Question.looksBack, hloops] at hback
          exact kept_afterLoops r m h hback
        next => exact Option.some_ne_none _
  -- The question itself does not matter, so the answers are those from before it.
  · rw [answer_after_question, answer_of_unviewed r m h]

theorem kept_of_question (q : Question) (h : m.kept ≠ none) : (q.ask.run m).2.kept ≠ none := by
  cases q with
  | ofView q => exact Option.some_ne_none _
  | direct q =>
      -- No branch of a question gives up a view that is kept.
      rw [run_direct]
      dsimp only
      split
      next =>
        unfold afterLoops
        split
        · exact h
        · dsimp only
          split
          · exact Option.some_ne_none _
          · exact h
      next => exact Option.some_ne_none _

theorem viewed_of_question (q : Question) (h : Viewed r m) : Viewed r (q.ask.run m).2 := by
  rcases h.relation with ⟨n, hn⟩
  refine ⟨⟨n, (unchanged_of_question q m).1.trans hn⟩, kept_of_question m q h.kept, fun later => ?_⟩
  rw [answer_after_question, h.answer]

theorem unviewed_rename (n : String) (h : Unviewed r m) : Unviewed (r.rename n) (m.rename n) :=
  ⟨congrArg (fun r : Relation => r.rename n) h.relation, h.kept, h.loops⟩

/-- A view that is kept is not made anew, so a new name changes no answer. -/
theorem viewed_rename (n : String) (h : Viewed r m) : Viewed r (m.rename n) := by
  rcases h.relation with ⟨old, hold⟩
  refine ⟨⟨n, ?_⟩, h.kept, fun q => ?_⟩
  · change m.relation.rename n = r.rename n
    rw [hold]
    rfl
  -- The kept view is handed on as it is, and the table has no name in it.
  · have hview : (m.rename n).view = m.view := by
      rcases Option.ne_none_iff_exists'.mp h.kept with ⟨v, hv⟩
      change m.kept.getD _ = m.kept.getD _
      rw [hv]
      rfl
    rw [answer_of_parts q (m.rename n) m hview rfl, h.answer]

theorem viewed_of_history (history : List Event) (h : Viewed r m) :
    Viewed r (history.foldl happens m) := by
  -- Once there is a view the state stays what it is, event by event.
  induction history generalizing m with
  | nil => exact h
  | cons event history ih =>
      cases event with
      | asked q => exact ih _ (viewed_of_question r m q h)
      | renamed n => exact ih _ (viewed_rename r m n h)

/-- A history ends in one of the two states, by induction from its first event. -/
theorem states_of_history (history : List Event) (h : Unviewed r m) :
    (viewedAs r.toFlow r.name history = none
        ∧ ∃ n, Unviewed (r.rename n) (history.foldl happens m))
      ∨ ∃ n, viewedAs r.toFlow r.name history = some n
        ∧ Viewed (r.rename n) (history.foldl happens m) := by
  -- From the first event on, as a new name before the first look back is a new relation to start
  -- from. At the look back the rest of the history falls under the second state.
  induction history generalizing r m with
  | nil => exact Or.inl ⟨rfl, r.name, h⟩
  | cons event history ih =>
      cases event with
      | renamed n => exact ih _ _ (unviewed_rename r m n h)
      | asked q =>
          unfold viewedAs
          cases hback : q.looksBack r.toFlow with
          | false => exact ih r _ (unviewed_of_question r m q h hback)
          | true =>
              refine Or.inr ⟨r.name, rfl, ?_⟩
              exact viewed_of_history r _ history (viewed_of_lookBack r m q h hback)

/-- The relation itself has the new name. Its view has the name at the first look back or, if there
    has been none, the new name as well. -/
theorem answer_after_rename (r : Relation) (history : List Event) (n : String) :
    ((after r history).rename n).relation = r.rename n
      ∧ ∀ q : Question, (q.ask.run ((after r history).rename n)).1
        = q.answer (r.rename ((viewedAs r.toFlow r.name history).getD n)) := by
  unfold after
  -- Without a look back the new name counts as if nothing had happened, and after one it changes
  -- only the relation itself.
  rcases states_of_history r (ofRelation r) history (unviewed_ofRelation r)
    with ⟨hname, old, h⟩ | ⟨old, hname, h⟩
  · have hnew := unviewed_rename _ _ n h
    rw [hname]
    exact ⟨hnew.relation, fun q => answer_of_unviewed _ _ hnew q⟩
  · rw [hname]
    rcases h.relation with ⟨own, hown⟩
    refine ⟨?_, (viewed_rename _ _ n h).answer⟩
    exact (congrArg (fun r : Relation => r.rename n) hown).trans rfl

end Histories

/-- A relation that is given a name after any questions and other names has that name and the
    contents it always had. Every later question to it, to its view, to the view of the view and so
    on is answered as for a relation that was never asked anything, and had the name at the first
    look back, if there has been one, or else the new name. In particular the name of the view is
    that name with its mark. The answers are those for a relation of the new name of which nothing
    was asked before exactly if both names are the same or no answer is a view. -/
theorem renaming_transparent_iff (r : Relation) (history : List Event) (n : String)
    (later : List Question) :
    ((after r history).rename n).relation = r.rename n
      ∧ answers ((after r history).rename n) later
        = later.map (Question.answer (r.rename ((viewedAs r.toFlow r.name history).getD n)))
      ∧ (reversed.run ((after r history).rename n)).1.name
        = (viewedAs r.toFlow r.name history).getD n ++ "~"
      ∧ (answers ((after r history).rename n) later = answers (ofRelation (r.rename n)) later
        ↔ (viewedAs r.toFlow r.name history).getD n = n ∨ ∀ q ∈ later, q.tellsName = false) := by
  rcases answer_after_rename r history n with ⟨hrelation, hanswer⟩
  generalize (viewedAs r.toFlow r.name history).getD n = old at *
  -- The answers are independent of each other, so it is enough to compare them one by one.
  have hlater : answers ((after r history).rename n) later
      = later.map (Question.answer (r.rename old)) := by
    rw [answers_eq_map]
    exact List.map_congr_left fun q _ => hanswer q
  refine ⟨hrelation, hlater, ?_, ?_⟩
  · have hview := hanswer (.direct .reversed)
    exact congrArg Relation.name (Answer.relation.inj hview)
  · rw [hlater, answers_eq_map, List.map_inj_left]
    simp only [answer_ofRelation, answer_rename_iff]
    -- With equal names nothing can be told apart. Otherwise each question has to be one that tells
    -- no name.
    by_cases hold : old = n
    · exact ⟨fun _ => Or.inl hold, fun _ _ _ => Or.inl hold⟩
    · refine ⟨fun h => Or.inr fun q hq => (h q hq).resolve_left hold, ?_⟩
      exact fun h q hq => Or.inr (h.resolve_left hold q hq)

/-- A view that was looked at before its relation got another name keeps the mark of the old one. -/
theorem stale_view_name :
    answers ((after ⟨Flow.singleton 1, 1, "old"⟩ [.asked (.direct .reversed)]).rename "new")
        [.direct .reversed]
      ≠ answers (ofRelation (Relation.rename ⟨Flow.singleton 1, 1, "old"⟩ "new"))
        [.direct .reversed] := by
  intro h
  have hname : "old" ++ "~" = "new" ++ "~" :=
    congrArg Relation.name (Answer.relation.inj (List.cons.inj h).1)
  exact absurd ((String.append_left_inj "~").mp hname) (by decide)

end Memo

end ActorCheck

import ActorCheck.Relation.Basic

/-!
# Remembered Views

Turning a relation round costs a pass over all its edges, and the search for
loops asks for predecessors again and again. A relation in use therefore keeps
the reversed view once somebody has asked for it, and a table of its loops once
somebody has asked about loops.

The view belongs to the moment of the first question. It carries the name the
relation had then, and a later change of name does not reach it. What else a
view tells depends on the flow alone, which never changes, and so does the
table of loops. The name of the view is the only thing through which the memory
can be noticed.

Questions are transitions on the memory. The first one about loops makes the
table, and asks for predecessors only if some reachable location is not an
entry; an entry has no dominator but itself, and a loop from an entry to itself
has no further body.

## Main definitions

* `LoopTable`: The loops of a flow by their heads, and what it tells.
* `Memo`: A relation and, perhaps, its reversed view and its loops.
* `Memo.view`, `Memo.table`: What is kept, from memory or new.
* `Memo.edgesTo`, `Memo.reversed`, `Memo.hasLoops`, `Memo.loopBody?`,
  `Memo.innermostHead?`: Questions and their effect.
* `Memo.Query`, `Memo.Answer`, `Memo.ask`: The same as data, for histories.
* `Memo.onReversed`: Ask the view itself.
* `Memo.rename`: Change the name.
-/

namespace ActorCheck

/-- The loops of a flow: their heads, ascending, each with its body. -/
abbrev LoopTable : Type := List (LocationId × LocationSet)

namespace LoopTable

/-- The body of the loop with a head. -/
def body? (t : LoopTable) (h : LocationId) : Option LocationSet := t.lookup h

/-- The first of the loops with the fewest locations. -/
def smallest : LoopTable → Option (LocationId × LocationSet)
  | [] => none
  | loop :: rest =>
    match smallest rest with
    | none => some loop
    | some other => if other.2.size < loop.2.size then some other else some loop

/-- The head of the smallest loop around a location. -/
def innermostHead? (t : LoopTable) (l : LocationId) : Option LocationId :=
  (smallest (t.filter fun loop => loop.2.contains l)).map Prod.fst

end LoopTable

/-- The table of the loops of a flow. -/
def Flow.loopTable (g : Flow) : LoopTable := g.loopHeads.map fun h => (h, g.loopBody h)

/-- A relation together with its reversed view and with its loops, if those
    were asked for. -/
inductive Memo where
  | mk (relation : Relation) (kept : Option Memo) (loops : Option LoopTable)

namespace Memo

/-- The relation itself. -/
def relation : Memo → Relation
  | mk r _ _ => r

/-- The reversed view, if it was asked for. -/
def kept : Memo → Option Memo
  | mk _ k _ => k

/-- The loops, if somebody asked about them. -/
def loops : Memo → Option LoopTable
  | mk _ _ t => t

/-- A relation of which nothing has been asked. -/
def ofRelation (r : Relation) : Memo := mk r none none

/-- The reversed view, from memory or new. -/
def view (m : Memo) : Memo := m.kept.getD (ofRelation m.relation.reverse)

/-- The loops, from memory or new. -/
def table (m : Memo) : LoopTable := m.loops.getD m.relation.loopTable

/-- Keep the reversed view. -/
def remember (m : Memo) : Memo := mk m.relation (some m.view) m.loops

/-- Change the name of the relation. What is kept stays as it is. -/
def rename (m : Memo) (name : String) : Memo := mk (m.relation.rename name) m.kept m.loops

/-- Finding the loops of a flow takes a look at predecessors. -/
def looksBack (g : Flow) : Bool := g.reachable.toList.any fun l => !g.entries.contains l

/-- The memory after a question about loops. Only loops that are not kept yet
    have to be found. -/
def afterLoops (m : Memo) : Memo :=
  match m.loops with
  | some _ => m
  | none =>
    let looked := if looksBack m.relation.toFlow then m.remember else m
    mk looked.relation looked.kept (some m.table)

/-- The edges that reach a location. -/
def edgesTo (l : LocationId) : StateM Memo (List (OperationId × LocationId)) :=
  modifyGet fun m => (m.view.relation.edgesFrom l, m.remember)

/-- The relation turned round. -/
def reversed : StateM Memo Relation :=
  modifyGet fun m => (m.view.relation, m.remember)

/-- There are loops. -/
def hasLoops : StateM Memo Bool :=
  modifyGet fun m => (!m.table.isEmpty, m.afterLoops)

/-- The body of the loop with a head. -/
def loopBody? (h : LocationId) : StateM Memo (Option LocationSet) :=
  modifyGet fun m => (m.table.body? h, m.afterLoops)

/-- The head of the smallest loop around a location. -/
def innermostHead? (l : LocationId) : StateM Memo (Option LocationId) :=
  modifyGet fun m => (m.table.innermostHead? l, m.afterLoops)

/-- What can be asked. -/
inductive Query where
  | edgesTo (l : LocationId)
  | reversed
  | hasLoops
  | loopBody (h : LocationId)
  | innermost (l : LocationId)
  deriving DecidableEq

/-- What is answered. -/
inductive Answer where
  | edges (found : List (OperationId × LocationId))
  | relation (r : Relation)
  | flag (b : Bool)
  | body (found : Option LocationSet)
  | head (found : Option LocationId)
  deriving DecidableEq

/-- Ask a question. -/
def ask : Query → StateM Memo Answer
  | .edgesTo l => .edges <$> edgesTo l
  | .reversed => .relation <$> reversed
  | .hasLoops => .flag <$> hasLoops
  | .loopBody h => .body <$> loopBody? h
  | .innermost l => .head <$> innermostHead? l

/-- Ask the reversed view itself, which is kept with its own memory. -/
def onReversed {α : Type} (x : StateM Memo α) : StateM Memo α :=
  modifyGet fun m =>
    let (a, asked) := x.run m.view
    (a, mk m.relation (some asked) m.loops)

end Memo

end ActorCheck

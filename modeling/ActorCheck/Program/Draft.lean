import ActorCheck.Program.App

/-!
# Drafts of Programs

Parts of a program refer to each other by number, and the numbers are not
known before they are drawn. A draft describes a part without them: locations
are counted from zero within a graph, relations are counted in the order in
which the program has them, and edges carry statements that still have to
become operations.

Building a draft draws the numbers, always in the same order: the operations of
a sequence before its locations, the locations of a graph before the
operations on its edges, both arguments of a combinator before the location at
which it joins them, and the number of a relation after everything it consists
of.

A count beyond what there is stands for itself. So a draft can also mention a
location or a relation by its number, one that does not exist included, and
what comes of it is up to the checks of the model.

## Main definitions

* `RelationDraft`, `ActorDraft`, `AppDraft`: Descriptions without numbers.
* `RelationDraft.build`, `ActorDraft.build`, `AppDraft.build`: What they
  describe.
* `RelationDraft.register`, `ActorDraft.register`: Additions to a program.
-/

namespace ActorCheck

/-- What an edge of a draft carries. -/
inductive DraftLabel where
  /-- A statement, which becomes an operation of the program. -/
  | statement (s : Statement)
  /-- An operation by its number. -/
  | operation (id : OperationId)

/-- The number of the operation on an edge. -/
def DraftLabel.number : DraftLabel → StateM App OperationId
  | .statement s => do return (← App.newOperation s).id
  | .operation id => return id

/-- An edge between counted locations. -/
structure DraftEdge where
  source : Nat
  label : DraftLabel
  target : Nat

/-- A relation without numbers. -/
inductive RelationDraft where
  /-- Statements on a straight line. -/
  | sequence (statements : List Statement)
  | concat (first second : RelationDraft)
  | branch (left right : RelationDraft)
  | eliminate (draft : RelationDraft)
  /-- A graph with a number of locations. -/
  | graph (count : Nat) (entries exits : List Nat) (edges : List DraftEdge)
  | named (name : String) (draft : RelationDraft)
  deriving Inhabited

/-- What a count stands for: the thing in that place, or else itself. -/
def counted (things : List Nat) (n : Nat) : Nat := things.getD n n

/-- The flow of a graph whose locations were drawn. -/
def draftFlow (locations : List LocationId) (entries exits : List Nat)
    (edges : List DraftEdge) : StateM App Flow :=
  let place := counted locations
  let bare := locations.foldl Flow.addLocation Flow.empty
  let entered := (entries.map place).foldl Flow.addEntry bare
  let closed := (exits.map place).foldl Flow.addExit entered
  edges.foldlM (fun g e => do
    return g.addEdge (place e.source) (← e.label.number) (place e.target)) closed

/-- The relation that a draft describes. -/
def RelationDraft.build : RelationDraft → Modelling Relation
  | .sequence statements => do
    let ops ← statements.mapM fun s => (App.newOperation s : StateM App Operation)
    App.building (Relation.sequence (ops.map Operation.id))
  | .concat first second => do
    let a ← first.build
    let b ← second.build
    App.building (a.concat b)
  | .branch left right => do
    let a ← left.build
    let b ← right.build
    let exit ← App.fresh
    App.building (a.branch b exit)
  | .eliminate draft => do
    let r ← draft.build
    App.building r.removeEpsilons
  | .graph count entries exits edges => do
    let locations ← (List.range count).mapM fun _ => (App.fresh : StateM App Nat)
    let g ← draftFlow locations entries exits edges
    App.building (Relation.make none g)
  | .named name draft => do return (← draft.build).rename name

/-- Build the relation that a draft describes and make it known. -/
def RelationDraft.register (draft : RelationDraft) : Modelling Relation := do
  let r ← draft.build
  (App.addRelation r : StateM App Unit)
  return r

/-- An actor whose methods and scripts count their relations. -/
structure ActorDraft where
  name : ActorName
  concern : Concern
  /-- Whether the actor is an observer, if its concern does not decide. -/
  isObserver : Option Bool
  ownVariables : List String
  externals : List String
  methods : List Method
  scripts : List (Event × Nat)

/-- The actor that a draft describes, where the program has some relations. -/
def ActorDraft.build (relations : List RelationId) (draft : ActorDraft) : Modelling Actor := do
  let bare := Actor.new draft.name draft.concern
  let placed := { bare with isObserver := draft.isObserver.getD bare.isObserver }
  let owning := draft.ownVariables.foldl Actor.addVariable placed
  let linked := draft.externals.foldl Actor.addExternal owning
  let callable ← draft.methods.foldlM (fun a m =>
    (a.addMethod { m with relation := counted relations m.relation } : Except ModelError Actor))
    linked
  draft.scripts.foldlM (fun a (event, n) => do
    let script ← (App.newScript event (counted relations n) : StateM App Script)
    return a.addScript script) callable

/-- Build the actor that a draft describes and add it to the program. -/
def ActorDraft.register (relations : List RelationId) (draft : ActorDraft) : Modelling Unit := do
  App.addActor (← draft.build relations)

/-- A program without numbers. -/
structure AppDraft where
  name : String
  relations : List RelationDraft
  actors : List ActorDraft

namespace AppDraft

/-- Fill a program with what a draft describes and answer the numbers of its
    relations. -/
def build (draft : AppDraft) : Modelling (List RelationId) := do
  let relations ← draft.relations.mapM fun r => Relation.id <$> r.register
  for actor in draft.actors do
    actor.register relations
  return relations

end AppDraft

end ActorCheck

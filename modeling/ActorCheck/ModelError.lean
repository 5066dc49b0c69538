import ActorCheck.Ident

/-!
# Errors of the Program Model

Everything that can be wrong with a model: names and numbers that denote
nothing, declarations that clash, and relations that are not what an operation
needs.

## Main definitions

* `ModelError`: The causes.
* `ModelError.kind`: A word for each.
* `ModelError.message`: Their texts.
-/

namespace ActorCheck

/-- What can be wrong with a program model. -/
inductive ModelError where
  | unknownActor (actor : ActorName)
  | duplicateActor (actor : ActorName)
  | unknownScript (actor : ActorName) (script : ScriptId)
  | unknownMethod (actor : ActorName) (method : String)
  | ambiguousMethod (actor : ActorName) (method : String)
  | unknownRelation (relation : RelationId)
  | unknownOperation (operation : OperationId)
  /-- A relation does not have exactly one entry. -/
  | entryLocationCount (relation : String) (count : Nat)
  /-- A transition leaves or reaches a location the relation does not have. -/
  | unregisteredLocation (relation : String) (location : LocationId)
  /-- Giving a relation new locations is not possible. -/
  | relabel (relation : String)
  /-- A combinator was given a location as new that is not. -/
  | circularCombinator (location : LocationId)
  deriving DecidableEq

/-- A word for the cause of an error of the model. -/
def ModelError.kind : ModelError → String
  | .unknownActor _ => "UnknownActor"
  | .duplicateActor _ => "DuplicateActor"
  | .unknownScript _ _ => "UnknownScript"
  | .unknownMethod _ _ => "UnknownMethod"
  | .ambiguousMethod _ _ => "AmbiguousMethod"
  | .unknownRelation _ => "UnknownRelation"
  | .unknownOperation _ => "UnknownOperation"
  | .entryLocationCount _ _ => "EntryLocationCount"
  | .unregisteredLocation _ _ => "UnregisteredLocation"
  | .relabel _ => "Relabel"
  | .circularCombinator _ => "CircularCombinator"

/-- The text of an error of the model. -/
def ModelError.message : ModelError → String
  | .unknownActor actor => "unknown actor '" ++ actor ++ "'"
  | .duplicateActor actor => "actor '" ++ actor ++ "' is declared twice"
  | .unknownScript actor script =>
    "actor '" ++ actor ++ "' has no script " ++ scriptText script
  | .unknownMethod actor method => "actor '" ++ actor ++ "' has no method '" ++ method ++ "'"
  | .ambiguousMethod actor method =>
    "actor '" ++ actor ++ "' declares method '" ++ method ++ "' more than once"
  | .unknownRelation relation => "unknown transition relation " ++ relationText relation
  | .unknownOperation operation => "unknown operation " ++ operationText operation
  | .entryLocationCount relation count =>
    "relation '" ++ relation ++ "' has " ++ toString count
      ++ " entry locations, expected exactly one"
  | .unregisteredLocation relation location =>
    "relation '" ++ relation ++ "' mentions unregistered location " ++ locationText location
  | .relabel relation =>
    "relabeling relation '" ++ relation ++ "' with fresh locations is not supported"
  | .circularCombinator location =>
    "location " ++ locationText location
      ++ " already belongs to the relation; cycles are not supported"

end ActorCheck

import ActorCheck.AnalysisError

/-!
# Configuration

Each part of the analysis reads its own section of one configuration. A
section that is missing or empty leaves everything at its default, and so does
a key that is missing from a section. A key that the section does not know is
refused, because a misspelt option must not be taken for an absent one; a
value of the wrong type is refused as well.

A section may also be given as a list of its values in their fixed order, cut
off where the defaults begin.

## Main definitions

* `Setting`: A value in a configuration.
* `RefinerConfig`, `ControlConfig`: The sections.
* `RefinerConfig.read`, `ControlConfig.read`: A section of a configuration.
-/

namespace ActorCheck

/-- A value in a configuration. What number it is never matters. -/
inductive Setting where
  | null
  | bool (value : Bool)
  | number
  | text (value : String)
  | list (items : List Setting)
  | object (entries : List (String × Setting))
  deriving Inhabited

namespace Setting

/-- The section of a configuration with a name, unless it is missing or
    empty. -/
def section? (config : Setting) (name : String) : Option Setting :=
  match config with
  | .object entries =>
    match entries.find? fun entry => entry.1 == name with
    | some (_, .null) => none
    | some (_, value) => some value
    | none => none
  | _ => none

/-- A switch. -/
def asBool : Setting → Except AnalysisError Bool
  | .bool b => .ok b
  | _ => .error .config

/-- A text. -/
def asText : Setting → Except AnalysisError String
  | .text s => .ok s
  | _ => .error .config

/-- The values of a section by key. A list gives them in the order of the
    keys and must not be longer than these. -/
def keyed (keys : List String) : Setting → Except AnalysisError (List (String × Setting))
  | .object entries =>
    if entries.all fun entry => keys.contains entry.1 then .ok entries else .error .config
  | .list items =>
    if items.length ≤ keys.length then .ok (keys.zip items) else .error .config
  | _ => .error .config

/-- The value of a key, or a default. -/
def valueOf {α : Type} (entries : List (String × Setting)) (key : String)
    (read : Setting → Except AnalysisError α) (default : α) : Except AnalysisError α :=
  match entries.find? fun entry => entry.1 == key with
  | some (_, value) => read value
  | none => .ok default

end Setting

/-- How abstractions are refined. -/
structure RefinerConfig where
  /-- Refine only where it is needed. Refinement refuses this. -/
  useLazyAbstraction : Bool
  /-- Write every trace that is checked to a file. -/
  dumpPathFormula : Bool
  dumpDirectory : String
  deriving DecidableEq

namespace RefinerConfig

/-- The section without any keys. -/
def default : RefinerConfig := ⟨false, false, "output"⟩

/-- The keys of the section, in order. -/
def keys : List String := ["use-lazy-abstraction", "dump-path-formula", "dump-directory"]

/-- The section of a configuration. -/
def read (config : Setting) : Except AnalysisError RefinerConfig :=
  match config.section? "AbstractionRefiner" with
  | none => .ok default
  | some value => do
    let entries ← value.keyed keys
    return {
      useLazyAbstraction :=
        ← Setting.valueOf entries "use-lazy-abstraction" Setting.asBool default.useLazyAbstraction
      dumpPathFormula :=
        ← Setting.valueOf entries "dump-path-formula" Setting.asBool default.dumpPathFormula
      dumpDirectory :=
        ← Setting.valueOf entries "dump-directory" Setting.asText default.dumpDirectory }

end RefinerConfig

/-- How threads are scheduled. -/
structure ControlConfig where
  /-- Merge the steps of an atomic block. The scheduler refuses this. -/
  aggregateAtomicTransitions : Bool
  deriving DecidableEq

namespace ControlConfig

/-- The section without any keys. -/
def default : ControlConfig := ⟨false⟩

/-- The keys of the section, in order. -/
def keys : List String := ["aggregate-atomic-transitions"]

/-- The section of a configuration. -/
def read (config : Setting) : Except AnalysisError ControlConfig :=
  match config.section? "ControlAnalysis" with
  | none => .ok default
  | some value => do
    let entries ← value.keyed keys
    return ⟨← Setting.valueOf entries "aggregate-atomic-transitions" Setting.asBool
      default.aggregateAtomicTransitions⟩

end ControlConfig

end ActorCheck

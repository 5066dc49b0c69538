import ActorCheck.Integer
import ActorCheck.Builtin

/-!
# Values and Stores

Concrete data. A store maps the names of cells to values; a cell that was
never written holds the default of the type it is read at. There is no default
actor, so a cell of actor type cannot be read.

The global clock is an ordinary cell. It stands at zero until it is written,
and a value of another type counts as not written.

## Main definitions

* `Value`: Concrete data.
* `Value.default?`: The value of a cell that was never written.
* `Store`: Cells with their values.
* `Store.time`: The time on the global clock.
-/

namespace ActorCheck

/-- Concrete data. Values of different types are never equal. -/
inductive Value where
  | int (n : Int64)
  | bool (b : Bool)
  | str (s : String)
  deriving DecidableEq

namespace Value

/-- The value of a cell of a type that was never written. -/
def default? : DataType → Option Value
  | .number => some (.int 0)
  | .boolean => some (.bool false)
  | .string => some (.str "")
  | .actor => none

/-- The text of a value. -/
def render : Value → String
  | .int n => toString n.toInt
  | .bool b => if b then "true" else "false"
  | .str s => quote s

end Value

/-- Cells, by their qualified names, with their values. -/
abbrev Store : Type := Std.ExtTreeMap String Value

namespace Store

/-- Write a value to the cell of a variable. -/
def write (s : Store) (v : Variable) (value : Value) : Store := s.insert v.cellName value

/-- The time on the global clock. -/
def time (s : Store) : Int64 :=
  match s[Builtin.clock.cellName]? with
  | some (.int t) => t
  | _ => 0

end Store

end ActorCheck

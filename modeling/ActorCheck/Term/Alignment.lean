import ActorCheck.Term.Basic
import ActorCheck.Term.Instance
import Std.Data.ExtTreeMap

/-!
# Alignment of Trace Formulas

Each block of a trace is written as if it were alone: its variables start at
instance 0, and a map records the highest instance the block reaches of each.
Before the blocks can be conjoined they have to share one numbering, in which
the exit instance of a block is the entry instance of the next. So block `i`
is shifted by the sum of the maps before it.

While no offset has been recorded a block is kept as it is, names included.
Afterwards every instance is read and written again, which also brings its
index into canonical form and reports a malformed name.

All sums are 32-bit sums that report an overflow instead of wrapping. Offsets
grow in the order of variable names, so of several overflows the one with the
least name is reported.

## Main definitions

* `InstanceMap`: An index for each variable.
* `shiftName`: Shift one name by the offset of its base.
* `Term.shift`: Shift all variables of a term.
* `InstanceMap.add`: Pointwise sum of offsets and a map.
* `align`: Bring a list of blocks onto one numbering.
-/

namespace ActorCheck

/-- An index for each variable; a variable without an entry has index 0. -/
abbrev InstanceMap : Type := Std.ExtTreeMap String UInt32

/-- The sum of two indices, if it fits. -/
def addIndex? (a b : UInt32) : Option UInt32 := indexOfNat? (a.toNat + b.toNat)

/-- Shift a variable name by the offset of its base. A name that is no
    instance stays. -/
def shiftName (offsets : InstanceMap) (name : String) : Except AlignmentError String := do
  match ← splitInstance name with
  | none => return name
  | some (base, index) =>
    match addIndex? index (offsets.getD base 0) with
    | some shifted => return instanceName base shifted
    | none => throw (.indexOverflow base)

/-- Shift every instance in a term by the offset of its base. -/
def Term.shift (offsets : InstanceMap) (t : Term) : Except AlignmentError Term :=
  t.traverse (shiftName offsets)

namespace InstanceMap

/-- Add an index to the offset of one variable. -/
def raise (offsets : InstanceMap) (base : String) (index : UInt32) :
    Except AlignmentError InstanceMap :=
  match addIndex? (offsets.getD base 0) index with
  | some sum => .ok (offsets.insert base sum)
  | none => .error (.indexOverflow base)

/-- Add a list of indices to the offsets, in order. -/
def raiseAll : InstanceMap → List (String × UInt32) → Except AlignmentError InstanceMap
  | offsets, [] => .ok offsets
  | offsets, (base, index) :: rest => do raiseAll (← offsets.raise base index) rest

/-- Add the indices of a map to the offsets, in the order of names. -/
def add (offsets map : InstanceMap) : Except AlignmentError InstanceMap :=
  offsets.raiseAll map.toList

end InstanceMap

/-- Shift one block, unless no offset has been recorded yet. -/
def shiftBlock (offsets : InstanceMap) (block : Term) : Except AlignmentError Term :=
  if offsets.isEmpty then .ok block else block.shift offsets

/-- Align the blocks that follow when `offsets` is the sum of the maps before
    them. -/
def alignFrom (offsets : InstanceMap) :
    List (Term × InstanceMap) → Except AlignmentError (List Term)
  | [] => .ok []
  | (block, map) :: rest => do
    let aligned ← shiftBlock offsets block
    let later ← alignFrom (← offsets.add map) rest
    return aligned :: later

/-- Bring independently numbered blocks onto one numbering: each block is
    shifted by the sum of the maps of the blocks before it. -/
def align (blocks : List Term) (maps : List InstanceMap) : Except AlignmentError (List Term) :=
  if blocks.length = maps.length then alignFrom ∅ (blocks.zip maps)
  else .error (.lengthMismatch blocks.length maps.length)

end ActorCheck

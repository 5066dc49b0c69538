/-!
# Instances of Program Variables

A trace formula speaks about a program variable at several moments. The value
of `x` after its `k`-th assignment is the solver variable `x@k`, and `x@0` is
the value on entry. A name without the separator is no instance; it means the
same at every moment.

Reading a name splits it at its last separator, so a base name may contain
separators of its own and still be read back. What follows the last separator
has to be an index: decimal digits, after at most one plus sign, whose value
fits 32 bits. Anything else, an empty base included, is malformed rather than
a name without an index, because a name with a separator that is silently left
alone would escape renumbering.

## Main definitions

* `instanceName`: The name of an instance.
* `splitLast`: Split a text at the last occurrence of a character.
* `readIndex`: The value of an index.
* `splitInstance`: Base name and index of an instance, if the name is one.
-/

namespace ActorCheck

/-- Why formulas cannot be renumbered. -/
inductive AlignmentError where
  /-- A name with a separator that is no instance. -/
  | malformedName (name : String)
  /-- The numbers of blocks and of maps differ. -/
  | lengthMismatch (blocks maps : Nat)
  /-- An index or an offset of a variable does not fit 32 bits. -/
  | indexOverflow (base : String)
  deriving DecidableEq

/-- A word for the cause of an error of alignment. -/
def AlignmentError.kind : AlignmentError → String
  | .malformedName _ => "MalformedSsaName"
  | .lengthMismatch _ _ => "LengthMismatch"
  | .indexOverflow _ => "IndexOverflow"

/-- The text of an error of alignment. -/
def AlignmentError.message : AlignmentError → String
  | .malformedName name => "malformed SSA variable name '" ++ name ++ "'"
  | .lengthMismatch blocks maps =>
    "trace has " ++ toString blocks ++ " block formulas but " ++ toString maps ++ " SSA maps"
  | .indexOverflow base => "SSA index of '" ++ base ++ "' overflows after alignment"

/-- The character between base name and index. -/
def instanceSeparator : Char := '@'

/-- The name of instance `index` of the variable `base`. -/
def instanceName (base : String) (index : UInt32) : String :=
  base ++ "@" ++ toString index.toNat

/-- Split a text at the last occurrence of a character, or `none` if it does
    not occur. -/
def splitLast (sep : Char) : List Char → Option (List Char × List Char)
  | [] => none
  | c :: cs =>
    match splitLast sep cs with
    | some (before, after) => some (c :: before, after)
    | none => if c = sep then some ([], cs) else none

/-- The value of a number in the range of indices. -/
def indexOfNat? (n : Nat) : Option UInt32 :=
  if h : n < UInt32.size then some (UInt32.ofNatLT n h) else none

/-- The value of decimal digits, of which there has to be at least one. -/
def readDigits (digits : List Char) : Option UInt32 :=
  if digits.isEmpty || !digits.all Char.isDigit then none
  else indexOfNat? (Nat.ofDigitChars 10 digits 0)

/-- The value of an index: decimal digits, after at most one plus sign. -/
def readIndex : List Char → Option UInt32
  | '+' :: digits => readDigits digits
  | digits => readDigits digits

/-- Base name and index of an instance, or `none` for a name without a
    separator. -/
def splitInstance (name : String) : Except AlignmentError (Option (String × UInt32)) :=
  match splitLast instanceSeparator name.toList with
  | none => .ok none
  | some (base, index) =>
    match base, readIndex index with
    | [], _ => .error (.malformedName name)
    | _, none => .error (.malformedName name)
    | base, some k => .ok (some (String.ofList base, k))

end ActorCheck

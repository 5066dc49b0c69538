import ActorCheck.Term.Basic

/-!
# The Text of a Term

Terms are written in the prefix notation of SMT-LIB: an operator and its
operands, separated by one blank, between parentheses.

A name is written bare when it is a simple symbol and between bars otherwise,
so a name may hold blanks and parentheses without the text becoming
ambiguous. Only a bar inside a name cannot be told from the closing one.

A negative literal is the application of unary minus to its absolute value,
since the notation has no negative numerals. An empty conjunction is `true`
and an empty disjunction `false`; with a single operand either is written as
that operand alone. Besides a variable that is called `true` or `false`, these
are the only places where different terms share a text.

## Main definitions

* `symbol`: The text of a name.
* `numeral`: The text of an integer literal.
* `Term.render`: The text of a term.
-/

namespace ActorCheck

namespace Term

/-- The characters, besides ASCII letters and digits, that a simple symbol may
    contain. -/
def symbolMarks : List Char :=
  ['~', '!', '@', '$', '%', '^', '&', '*', '_', '-', '+', '=', '<', '>', '.', '?', '/']

/-- A character may stand in a simple symbol. -/
def isSymbolChar (c : Char) : Bool :=
  c.isAlphanum || symbolMarks.contains c

/-- A name needs no bars: it is not empty, does not start with a digit and
    holds only characters of simple symbols. -/
def isSimpleSymbol (name : String) : Bool :=
  match name.toList with
  | [] => false
  | c :: cs => !c.isDigit && (c :: cs).all isSymbolChar

/-- The text of a name: bare if it is a simple symbol, else between bars. -/
def symbol (name : String) : String :=
  if isSimpleSymbol name then name else "|" ++ name ++ "|"

/-- The text of an integer literal. -/
def numeral (n : Int64) : String :=
  if n.toInt < 0 then "(- " ++ toString n.toInt.natAbs ++ ")" else toString n.toInt.natAbs

/-- An application: the operator and the texts of its operands. -/
def application (operator : String) (operands : List String) : String :=
  "(" ++ " ".intercalate (operator :: operands) ++ ")"

/-- The text of a connective with any number of operands. Without operands it
    is the connective's neutral element, with one it is that operand. -/
def junction (operator neutral : String) : List String → String
  | [] => neutral
  | [operand] => operand
  | operands => application operator operands

mutual

/-- The text of a term. -/
def render : Term → String
  | .var x => symbol x
  | .int n => numeral n
  | .bool b => if b then "true" else "false"
  | .arith o a b => application o.symbol [a.render, b.render]
  | .cmp o a b => application o.symbol [a.render, b.render]
  | .conj ts => junction "and" "true" (renderAll ts)
  | .disj ts => junction "or" "false" (renderAll ts)
  | .not a => application "not" [a.render]
  | .implies a b => application "=>" [a.render, b.render]
  | .ite a b c => application "ite" [a.render, b.render, c.render]

/-- The texts of a list of terms. -/
def renderAll : List Term → List String
  | [] => []
  | t :: ts => t.render :: renderAll ts

end

end Term

end ActorCheck

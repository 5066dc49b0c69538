/-!
# Operators

The arithmetic operations and comparisons that formulas and program
expressions share, with the symbols both are written with.

## Main definitions

* `ArithOp`: Arithmetic on integers.
* `Comparison`: Equality and order.
* `ArithOp.ofSymbol?`, `Comparison.ofSymbol?`: The operator with a symbol.

## Theorems

* `ArithOp.ofSymbol?_symbol`, `Comparison.ofSymbol?_symbol`: A symbol
  determines its operator.
-/

namespace ActorCheck

/-- Arithmetic on integers. -/
inductive ArithOp where
  | add
  | sub
  | mul
  deriving DecidableEq

/-- The symbol of an arithmetic operation. -/
def ArithOp.symbol : ArithOp → String
  | .add => "+"
  | .sub => "-"
  | .mul => "*"

/-- All arithmetic operations. -/
def ArithOp.all : List ArithOp := [.add, .sub, .mul]

/-- The arithmetic operation with a symbol. -/
def ArithOp.ofSymbol? (s : String) : Option ArithOp := all.find? fun o => o.symbol == s

theorem ArithOp.ofSymbol?_symbol (o : ArithOp) : ofSymbol? o.symbol = some o := by
  cases o <;> decide

/-- The value of an arithmetic operation on unbounded integers. -/
def ArithOp.apply : ArithOp → Int → Int → Int
  | .add => (· + ·)
  | .sub => (· - ·)
  | .mul => (· * ·)

/-- Comparisons. Equality compares values of any kind, the other four compare
    integers. -/
inductive Comparison where
  | eq
  | lt
  | le
  | gt
  | ge
  deriving DecidableEq

/-- The symbol of a comparison. -/
def Comparison.symbol : Comparison → String
  | .eq => "="
  | .lt => "<"
  | .le => "<="
  | .gt => ">"
  | .ge => ">="

/-- All comparisons. -/
def Comparison.all : List Comparison := [.eq, .lt, .le, .gt, .ge]

/-- The comparison with a symbol. -/
def Comparison.ofSymbol? (s : String) : Option Comparison := all.find? fun o => o.symbol == s

theorem Comparison.ofSymbol?_symbol (o : Comparison) : ofSymbol? o.symbol = some o := by
  cases o <;> decide

/-- The truth of a comparison between integers. -/
def Comparison.holds : Comparison → Int → Int → Bool
  | .eq, m, n => m == n
  | .lt, m, n => m < n
  | .le, m, n => m ≤ n
  | .gt, m, n => n < m
  | .ge, m, n => n ≤ m

end ActorCheck

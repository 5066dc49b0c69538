import ActorCheck.Text.Printable

/-!
# Quoted Texts

A text between double quotes, in which every character can be told apart. The
quote and the backslash get a backslash, the common control characters have
names of their own, and everything else that is not printable is written as
its code point in hexadecimal digits between braces. The single quote needs no
escape.

## Main definitions

* `hexadecimal`: A number in lower-case hexadecimal digits, without padding.
* `escapeChar`: How one character is written.
* `quote`: A text between quotes.
-/

namespace ActorCheck

/-- A number in lower-case hexadecimal digits, without leading zeros. -/
def hexadecimal (n : Nat) : List Char := Nat.toDigits 16 n

/-- How one character is written inside quotes. -/
def escapeChar (c : Char) : List Char :=
  match c with
  | '\x00' => ['\\', '0']
  | '\t' => ['\\', 't']
  | '\n' => ['\\', 'n']
  | '\r' => ['\\', 'r']
  | '"' => ['\\', '"']
  | '\\' => ['\\', '\\']
  | c =>
    if isPrintable c then [c]
    else ['\\', 'u', '\x7b'] ++ hexadecimal c.toNat ++ ['\x7d']

/-- A text between double quotes, with escapes. -/
def quote (s : String) : String :=
  String.ofList ('"' :: s.toList.flatMap escapeChar ++ ['"'])

end ActorCheck

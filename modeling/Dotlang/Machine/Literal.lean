import Dotlang.Machine.Value
import Dotlang.Text.Literal

/-!
# Literals

* `Value.literal?` : the value of an operand that is spelled as a literal; names have none;
* `Value.intOfText`, `Value.floatOfText`, `Value.boolOfText` : the typed readings of a line of input.
  A number is read from the longest leading part that looks like one, and anything else reads as zero.
-/

namespace Dotlang.Value

open Text (splitMinus unquote? isDigits)

/-- Digits, a point and digits. -/
def isDecimal (cs : List Char) : Bool :=
  isDigits (cs.takeWhile (· != '.')) && isDigits ((cs.dropWhile (· != '.')).drop 1)

/-- The integer that a sign and digits denote. -/
def signed (negative : Bool) (digits : List Char) : Int :=
  let n : Int := Nat.ofDigitChars 10 digits 0
  if negative then -n else n

/-- The value of a literal: a quoted text with nothing in it unescaped, an integer, a decimal or a truth
value. An integer beyond one word is read as a decimal. -/
def literal? (token : String) : Option Value :=
  let cs := token.toList
  let (negative, digits) := splitMinus cs
  match unquote? cs with
  | some inner => some (str (String.ofList inner))
  | none =>
    if isDigits digits then
      match Word.ofInt? (signed negative digits) with
      | some n => some (int n)
      | none => some (float ((Decimal.read? cs).getD 0.0))
    else if isDecimal digits then (Decimal.read? cs).map float
    else if token = "true" then some (bool true)
    else if token = "false" then some (bool false)
    else none

/-- The integer at the start of a line. The digits have to fit in a word before the sign applies. -/
def intOfText (s : String) : Int64 :=
  let (negative, rest) := match Text.trimStart s.toList with
    | '-' :: cs => (true, cs)
    | '+' :: cs => (false, cs)
    | cs => (false, cs)
  match Word.ofInt? (signed false (rest.takeWhile Char.isDigit)) with
  | some n => if negative then -n else n
  | none => 0

/-- The leading digits of a decimal with at most one point among them. -/
def decimalStart : List Char → List Char
  | [] => []
  | c :: cs =>
    if c.isDigit then c :: decimalStart cs
    else if c = '.' then '.' :: cs.takeWhile Char.isDigit
    else []

/-- The decimal at the start of a line. -/
def floatOfText (s : String) : Float :=
  let start := match Text.trimStart s.toList with
    | '-' :: cs => '-' :: decimalStart cs
    | '+' :: cs => '+' :: decimalStart cs
    | cs => decimalStart cs
  (Decimal.read? start).getD 0.0

/-- A line is true when it says `true`, in any case, or `1`. -/
def boolOfText (s : String) : Bool :=
  let word := String.ofList ((Text.trim s.toList).map Char.toLower)
  word = "true" || word = "1"

example : literal? "-9223372036854775808" = some (int Int64.minValue) := by decide +kernel
example : literal? "\"a, b\"" = some (str "a, b") := by decide +kernel
example : literal? "x1" = none := by decide +kernel

end Dotlang.Value

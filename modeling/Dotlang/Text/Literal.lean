/-!
# The spelling of literals

What the type checker and the machine look for in a word: a leading minus sign, digits, and quotes at
both ends.
-/

namespace Dotlang.Text

/-- A minus sign, if there is one, and what follows it. -/
def splitMinus : List Char → Bool × List Char
  | '-' :: cs => (true, cs)
  | cs => (false, cs)

/-- The text between two double quotes. -/
def unquote? : List Char → Option (List Char)
  | '"' :: cs => if cs.getLast? = some '"' then some cs.dropLast else none
  | _ => none

/-- One or more decimal digits. -/
def isDigits (cs : List Char) : Bool := cs != [] && cs.all Char.isDigit

theorem unquote?_quoted (cs : List Char) : unquote? ('"' :: cs ++ ['"']) = some cs := by
  simp [unquote?]

end Dotlang.Text

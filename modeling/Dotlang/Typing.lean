import Dotlang.Diagnostic
import Dotlang.SymbolTable
import Dotlang.Text.Literal

/-!
# Type checking

Types are checked on the token list. Every identifier must be in the symbol table; the token after `=.`
must have the declared type of the token before it; and the two neighbours of an arithmetic operator must
be numbers of one type. All findings are reported, one check after the other.
-/

namespace Dotlang

open Text (splitMinus unquote? isDigits)

namespace ValueType

def isInteger (cs : List Char) : Bool := isDigits (splitMinus cs).2

/-- Digits and a point, after which there may be digits. -/
def isDecimal (cs : List Char) : Bool :=
  let digits := (splitMinus cs).2
  isDigits (digits.takeWhile (· != '.')) && digits.contains '.' &&
    ((digits.dropWhile (· != '.')).drop 1).all Char.isDigit

/-- What the table says of a name. -/
def ofName? (table : SymbolTable) (name : String) : Option ValueType :=
  (table.get? name).map fun s =>
    match s.meaning with
    | .function _ => function
    | .variable (some t) _ => data t
    | .variable none _ => unknown

/-- The type of a word: by its spelling if that is a literal's, else by the table. -/
def ofLexeme (table : SymbolTable) (w : String) : ValueType :=
  let cs := w.toList
  if isInteger cs then data .integer
  else if isDecimal cs then data .decimal
  else if (unquote? cs).isSome then data .text
  else if w = "true" ∨ w = "false" then data .boolean
  else (ofName? table w).getD unknown

/-- The type of a neighbour, which may be missing. -/
def ofToken? (table : SymbolTable) (t : Option Token) : ValueType :=
  (t.map fun t => ofLexeme table t.lexeme).getD unknown

end ValueType

namespace Typing

/-- Identifiers that are not in the table. -/
def undeclared (table : SymbolTable) (tokens : List Token) : List Diagnostic :=
  (tokens.filter fun t => t.kind = .identifier ∧ !table.contains t.lexeme).map fun t =>
    ⟨.undeclared t.lexeme, some t.line⟩

/-- The finding at an assignment between two tokens. -/
def assignment? (table : SymbolTable) (before : Option Token) (t : Token) (after : Option Token) :
    Option Diagnostic := do
  let target ← ValueType.ofName? table (← before).lexeme
  let value := ValueType.ofToken? table after
  if t.kind = .assign ∧ target ≠ value then some ⟨.assigned value target, some t.line⟩ else none

/-- The finding at an arithmetic operator between two tokens. -/
def operands? (table : SymbolTable) (before : Option Token) (t : Token) (after : Option Token) :
    Option Diagnostic :=
  let left := ValueType.ofToken? table before
  let right := ValueType.ofToken? table after
  match t.kind, Operator.ofLexeme? t.lexeme with
  | .operator, some (.arith op) =>
    if !left.isNumeric || !right.isNumeric then some ⟨.nonNumericOperands op, some t.line⟩
    else if left ≠ right then some ⟨.mixedOperands op, some t.line⟩
    else none
  | _, _ => none

/-- Applies a check to every token and its neighbours, given the token before the first. -/
def scan (check : Option Token → Token → Option Token → Option Diagnostic) :
    Option Token → List Token → List Diagnostic
  | _, [] => []
  | before, t :: ts => (check before t ts.head?).toList ++ scan check (some t) ts

/-- All findings: undeclared names, then assignments, then operands. -/
def check (table : SymbolTable) (tokens : List Token) : List Diagnostic :=
  undeclared table tokens ++ scan (assignment? table) none tokens ++ scan (operands? table) none tokens

end Typing

end Dotlang

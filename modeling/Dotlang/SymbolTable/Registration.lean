import Dotlang.Statement.Parser
import Dotlang.SymbolTable

/-!
# Which names a token list registers

`registrations` reads the token list from left to right, without looking at its syntax:

* a data type registers the next identifier, however far away, as a variable of that type, with its
  initializer if that is a single literal;
* the header of a counting loop registers its variable with the literal or name it starts from;
* the declaration of a function registers it with its parameters;
* the prompt of a typed input registers the variable it fills.

A name may be registered several times, and also by several of these rules. The table keeps the first.
-/

namespace Dotlang

/-- The literal that is assigned by the tokens after a name. -/
def initializer? : List Token → Option String
  | eq :: value :: _ => if eq.kind = .assign ∧ value.kind.isLiteral then some value.lexeme else none
  | _ => none

/-- What the header of a counting loop registers, read after its keyword. -/
def loopVariable? : List Token → Option Symbol
  | paren :: type :: name :: eq :: value :: _ =>
    if paren.kind = .lparen ∧ type.kind = .dataType ∧ name.kind = .identifier ∧ eq.kind = .assign ∧
        (value.kind = .number ∨ value.kind = .identifier) then
      some ⟨name.lexeme, .variable type.dataType? (some value.lexeme), some name.line⟩
    else none
  | _ => none

/-- The tokens between the first opening parenthesis and the closing one after it. -/
def firstParens (ts : List Token) : List Token :=
  ((ts.dropWhile fun t => t.kind ≠ .lparen).drop 1).takeWhile Token.isInside

/-- What the declaration of a function registers, read after its keyword. -/
def declaredFunction? : List Token → Option Symbol
  | name :: ts =>
    if name.kind = .identifier then
      some ⟨name.lexeme, .function (parameterNames (firstParens ts)), some name.line⟩
    else none
  | [] => none

/-- What a typed input registers, read after its keyword. -/
def inputVariable? : List Token → Option Symbol
  | paren :: message :: comma :: type :: name :: _ =>
    if paren.kind = .lparen ∧ message.kind = .string ∧ comma.kind = .comma ∧ type.kind = .dataType ∧
        name.kind = .identifier then
      some ⟨name.lexeme, .variable type.dataType? none, some name.line⟩
    else none
  | _ => none

/-- What a keyword registers, given the tokens after it. -/
def keywordSymbol? (k : Option Keyword) (after : List Token) : Option Symbol :=
  match k with
  | some .first => loopVariable? after
  | some .ex => declaredFunction? after
  | some .enter => inputVariable? after
  | _ => none

/-- The symbols that a token list registers, given the data type that waits for its identifier. -/
def registrations : Option (Option DataType) → List Token → List Symbol
  | _, [] => []
  | pending, t :: ts =>
    match t.kind with
    | .dataType => registrations (some t.dataType?) ts
    | .identifier =>
      (pending.map fun type => ⟨t.lexeme, .variable type (initializer? ts), some t.line⟩).toList ++
        registrations none ts
    | _ => (keywordSymbol? t.keyword? ts).toList ++ registrations pending ts

/-- The names that exist without being declared. -/
def builtinNames : List String := [Keyword.ex, .rat, .enter, .printO].map Keyword.word

/-- A function without parameters and without a line. -/
def Symbol.ofBuiltin (name : String) : Symbol := ⟨name, .function [], none⟩

/-- The table of a token list: its own names first, and the built-in ones after them. -/
def SymbolTable.ofTokens (tokens : List Token) (builtins : List String) : SymbolTable :=
  empty.insertAll (registrations none tokens ++ builtins.map Symbol.ofBuiltin)

end Dotlang

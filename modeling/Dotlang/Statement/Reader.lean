import Dotlang.Diagnostic
import Dotlang.Statement

/-!
# Reading a token list

`Reader` is the state of reading: the tokens that are left, the lines of the blocks that are open, innermost
first, and the diagnostics so far. An action `Read α` reads some tokens and leaves the rest.

Reading never fails. `expect` takes whatever token comes next and complains if it is of the wrong kind;
at the end of the tokens it does nothing.
-/

namespace Dotlang

/-- Whether a token does not close a parenthesis. -/
def Token.isInside (t : Token) : Bool := t.kind ≠ .rparen

structure Reader where
  rest : List Token
  opened : List Nat
  diagnostics : List Diagnostic
  deriving DecidableEq, Repr

abbrev Read := StateM Reader

namespace Read

/-- The token that comes next. -/
def current : Read (Option Token) := return (← get).rest.head?

def advance : Read Unit := modify fun r => { r with rest := r.rest.tail }

def complain (cause : Cause) (line : Option Nat) : Read Unit :=
  modify fun r => { r with diagnostics := r.diagnostics ++ [⟨cause, line⟩] }

/-- Whether the next token is of a kind. -/
def startsWith (kind : TokenKind) : Read Bool := return (← current).any fun t => t.kind = kind

/-- Whether the next token is a keyword. -/
def startsWithKeyword (k : Keyword) : Read Bool := return (← current).any fun t => t.keyword? = some k

/-- Takes the next token, and returns it if it is of the wanted kind. -/
def expect (wanted : TokenKind) : Read (Option Token) := do
  let next ← current
  advance
  match next with
  | none => return none
  | some t =>
    if t.kind = wanted then return some t
    else
      complain (.expected wanted t.kind) t.line
      return none

/-- Takes a chain. -/
def chain : Read (Option Chain) := do
  let r ← get
  let (c, rest) := Chain.read r.rest
  set { r with rest }
  return c

/-- Takes the tokens before the next closing parenthesis, all of them if there is none. -/
def untilParen : Read (List Token) := do
  let r ← get
  set { r with rest := r.rest.dropWhile Token.isInside }
  return r.rest.takeWhile Token.isInside

/-- Notes the line on which a block begins, unless the tokens have ended. -/
def openBlock : Read Unit :=
  modify fun r => { r with opened := (r.rest.head?.map Token.line).toList ++ r.opened }

/-- Takes the closing brace of the innermost block. At the end of the tokens that brace is missing. -/
def closeBlock : Read Unit := do
  let r ← get
  match r.rest, r.opened with
  | [], [] => return
  | [], line :: outer =>
    set { r with opened := outer }
    complain .missingBrace line
  | _ :: rest, opened => set { r with rest, opened := opened.tail }

end Read

end Dotlang

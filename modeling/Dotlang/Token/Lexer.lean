import Dotlang.Operator
import Dotlang.Text.Character
import Dotlang.Token

/-!
# From text to tokens

A token never crosses the end of a line, and `//` ends its line early. `token?` reads the one token that a
text starts with; `scanLine` reads a line, skipping what is blank, and makes a token of kind `unknown` out
of every character that starts none.

* a word is as long as its characters allow, and its kind depends on what is reserved;
* a number is digits, or digits, a point and digits, and is followed by no word character;
* a string runs to the next quote that no backslash precedes, and its line must hold that quote;
* no operator begins another one, so their order does not matter.
-/

namespace Dotlang.Lexer

open Text (isBlank isWordStart isWordChar)

/-- The kind of a word. -/
def wordKind (w : String) : TokenKind :=
  if (DataType.ofWord? w).isSome then .dataType
  else if (Keyword.ofWord? w).isSome then .keyword
  else if w = "true" ∨ w = "false" then .boolean
  else .identifier

/-- Whether a number may end before this text. -/
def atBoundary : List Char → Bool
  | [] => true
  | c :: _ => !isWordChar c

/-- The number that a text starts with. A point that no digits follow, or after which the number would
run into a word, is left alone. -/
def number? (cs : List Char) : Option (List Char) :=
  let whole := cs.takeWhile Char.isDigit
  let rest := cs.dropWhile Char.isDigit
  let fraction := (rest.drop 1).takeWhile Char.isDigit
  if rest.head? = some '.' ∧ fraction ≠ [] ∧ atBoundary ((rest.drop 1).dropWhile Char.isDigit) then
    some (whole ++ '.' :: fraction)
  else if atBoundary rest then some whole
  else none

/-- What follows an opening quote, up to and with the closing one. -/
def closeQuote? : List Char → Option (List Char)
  | [] => none
  | '"' :: _ => some ['"']
  | '\\' :: c :: cs => (closeQuote? cs).map ('\\' :: c :: ·)
  | c :: cs => (closeQuote? cs).map (c :: ·)

/-- The signs that are neither words, numbers nor strings. -/
def signs : List (String × TokenKind) :=
  Operator.all.map (fun op => (op.lexeme, .operator)) ++
    [("=.", .assign), ("\x7b", .lcurly), ("\x7d", .rcurly), ("(", .lparen), (")", .rparen),
      (";", .semicolon), (",", .comma)]

def sign? (cs : List Char) : Option (TokenKind × List Char) :=
  (signs.find? fun (s, _) => s.toList.isPrefixOf cs).map fun (s, kind) => (kind, s.toList)

/-- The kind and the characters of the token that a text starts with. -/
def token? : List Char → Option (TokenKind × List Char)
  | [] => none
  | c :: cs =>
    if isWordStart c then
      let w := (c :: cs).takeWhile isWordChar
      some (wordKind (String.ofList w), w)
    else if c.isDigit then (number? (c :: cs)).map fun ds => (.number, ds)
    else if c = '"' then (closeQuote? cs).map fun q => (.string, '"' :: q)
    else sign? (c :: cs)

/-- The tokens of a line from a column on, after `skip` characters that belong to the last token. -/
def scanLine (line : Nat) : Nat → Nat → List Char → List Token
  | _, _, [] => []
  | column, skip + 1, _ :: cs => scanLine line (column + 1) skip cs
  | column, 0, c :: cs =>
    if isBlank c then scanLine line (column + 1) 0 cs
    else if ['/', '/'].isPrefixOf (c :: cs) then []
    else
      let (kind, text) := (token? (c :: cs)).getD (.unknown, [c])
      ⟨kind, String.ofList text, line, column, column + text.length⟩ ::
        scanLine line (column + 1) (text.length - 1) cs

end Dotlang.Lexer

namespace Dotlang

/-- The tokens of a source text, in order. -/
def tokenize (source : String) : List Token :=
  ((source.toList.splitOn '\n').zipIdx 1).flatMap fun (cs, line) => Lexer.scanLine line 1 0 cs

end Dotlang

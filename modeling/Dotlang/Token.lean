/-!
# Tokens

* `TokenKind` : the fifteen kinds of token;
* `DataType`, `Keyword` : the reserved words;
* `Token` : a kind, the text it was read from and where that text stands.

A token's kind and text are independent, so that tokens made by hand are admitted too. A reserved word is
recognised by both: `Token.keyword?`, `Token.dataType?`.
-/

namespace Dotlang

inductive TokenKind where
  | dataType | keyword | number | string | boolean | operator | assign | identifier
  | lcurly | rcurly | lparen | rparen | semicolon | comma | unknown
  deriving DecidableEq, Repr

namespace TokenKind

def all : List TokenKind :=
  [dataType, keyword, number, string, boolean, operator, assign, identifier,
    lcurly, rcurly, lparen, rparen, semicolon, comma, unknown]

def name : TokenKind → String
  | dataType => "DATA_TYPE"
  | keyword => "KEYWORD"
  | number => "NUMBER"
  | string => "STRING"
  | boolean => "BOOLEAN"
  | operator => "OPERATOR"
  | assign => "ASSIGN"
  | identifier => "IDENTIFIER"
  | lcurly => "LCURLY"
  | rcurly => "RCURLY"
  | lparen => "LPAREN"
  | rparen => "RPAREN"
  | semicolon => "SEMICOLON"
  | comma => "COMMA"
  | unknown => "UNKNOWN"

def ofName? (s : String) : Option TokenKind := all.find? fun k => k.name == s

/-- The kinds that may stand in a chain. -/
def isOperand : TokenKind → Bool
  | identifier | number | string | boolean => true
  | _ => false

/-- The kinds of literals. -/
def isLiteral : TokenKind → Bool
  | number | string | boolean => true
  | _ => false

theorem mem_all (k : TokenKind) : k ∈ all := by cases k <;> decide

end TokenKind

/-- The types that a variable may be declared with. -/
inductive DataType where
  | integer | decimal | text | boolean | character
  deriving DecidableEq, Repr

namespace DataType

def all : List DataType := [integer, decimal, text, boolean, character]

def word : DataType → String
  | integer => "nmb"
  | decimal => "flat"
  | text => "Sring"
  | boolean => "buul"
  | character => "cter"

def ofWord? (w : String) : Option DataType := all.find? fun t => t.word == w

def isNumeric : DataType → Bool
  | integer | decimal => true
  | _ => false

theorem ofWord?_word (t : DataType) : ofWord? t.word = some t := by cases t <;> decide

end DataType

/-- The reserved words that begin or separate statements: `first` a counting loop, `wish` a loop on a
condition, `last` a loop that ends in one, `brk` leaves a loop, `Ex` declares a function, `rat` and
`printO` print, `enter` asks, `oye`, `chaloye` and `naioye` branch. `resume` and `stop` are reserved and
begin nothing. -/
inductive Keyword where
  | first | wish | last | brk | ex | rat | enter | printO | oye | naioye | chaloye | resume | stop
  deriving DecidableEq, Repr

namespace Keyword

def all : List Keyword :=
  [first, wish, last, brk, ex, rat, enter, printO, oye, naioye, chaloye, resume, stop]

def word : Keyword → String
  | first => "first"
  | wish => "wish"
  | last => "last"
  | brk => "brk"
  | ex => "Ex"
  | rat => "rat"
  | enter => "enter"
  | printO => "printO"
  | oye => "oye"
  | naioye => "naioye"
  | chaloye => "chaloye"
  | resume => "resume"
  | stop => "stop"

def ofWord? (w : String) : Option Keyword := all.find? fun k => k.word == w

theorem ofWord?_word (k : Keyword) : ofWord? k.word = some k := by cases k <;> decide

end Keyword

/-- Columns count characters from one; `stop` is the column after the last one. -/
structure Token where
  kind : TokenKind
  lexeme : String
  line : Nat
  start : Nat
  stop : Nat
  deriving DecidableEq, Repr

namespace Token

def keyword? (t : Token) : Option Keyword :=
  if t.kind = .keyword then Keyword.ofWord? t.lexeme else none

def dataType? (t : Token) : Option DataType :=
  if t.kind = .dataType then DataType.ofWord? t.lexeme else none

end Token

end Dotlang

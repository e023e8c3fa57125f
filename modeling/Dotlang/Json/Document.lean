/-!
# JSON documents

`Document.pretty` writes a document over several lines, two blanks per level, with nothing between the
brackets of an empty list. In a string only quotes, backslashes and control characters are escaped.
-/

namespace Dotlang.Json

inductive Document where
  | null
  | number (n : Nat)
  | string (s : String)
  | array (items : List Document)
  | object (members : List (String × Document))

def hexDigit (n : Nat) : Char := Nat.digitChar n

/-- A character of a string, as written between quotes. -/
def escape (c : Char) : List Char :=
  if c = '"' then ['\\', '"']
  else if c = '\\' then ['\\', '\\']
  else if c = '\n' then ['\\', 'n']
  else if c = '\r' then ['\\', 'r']
  else if c = '\t' then ['\\', 't']
  else if c = '\x08' then ['\\', 'b']
  else if c = '\x0c' then ['\\', 'f']
  else if c.toNat < 0x20 then ['\\', 'u', '0', '0', hexDigit (c.toNat / 16), hexDigit (c.toNat % 16)]
  else [c]

def quote (s : String) : String := String.ofList ('"' :: s.toList.flatMap escape ++ ['"'])

/-- A line feed and the indentation of a level. -/
def newline (level : Nat) : String := String.ofList ('\n' :: List.replicate (2 * level) ' ')

/-- The parts of a list or an object, one per line, between brackets. -/
def enclose (level : Nat) (left right : String) (parts : List String) : String :=
  if parts.isEmpty then left ++ right
  else
    left ++ newline (level + 1) ++ String.intercalate ("," ++ newline (level + 1)) parts ++ newline level ++
      right

namespace Document

/-- Absent values are null. -/
def ofOption {α : Type} (f : α → Document) : Option α → Document
  | some x => f x
  | none => null

mutual

/-- The text of a document at a level of indentation. -/
def prettyAt (level : Nat) : Document → String
  | null => "null"
  | number n => toString n
  | string s => quote s
  | array items => enclose level "[" "]" (prettyItems (level + 1) items)
  | object members => enclose level "\x7b" "\x7d" (prettyMembers (level + 1) members)

def prettyItems (level : Nat) : List Document → List String
  | [] => []
  | d :: ds => prettyAt level d :: prettyItems level ds

def prettyMembers (level : Nat) : List (String × Document) → List String
  | [] => []
  | m :: ms => prettyMember level m :: prettyMembers level ms

def prettyMember (level : Nat) : String × Document → String
  | (key, value) => quote key ++ ": " ++ prettyAt level value

end

def pretty (d : Document) : String := prettyAt 0 d

end Document

end Dotlang.Json

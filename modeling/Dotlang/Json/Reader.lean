/-!
# Reading JSON text

Each function takes one part of the grammar off the front of a text and returns what follows it, or nothing
if the text does not begin with that part.

* `skipValue?` passes over any value, checking its syntax only;
* `key?` and `natural?` read the parts whose content matters: the key of a member, with its escapes
  resolved, and a number without sign, fraction and exponent.
-/

namespace Dotlang.Json

/-- Blanks between the parts: space, tab, line feed and carriage return. -/
def skipBlank (cs : List Char) : List Char :=
  cs.dropWhile fun c => c = ' ' || c = '\t' || c = '\n' || c = '\r'

def hexValue? (c : Char) : Option Nat :=
  let n := c.toNat
  if '0'.toNat ≤ n ∧ n ≤ '9'.toNat then some (n - '0'.toNat)
  else if 'a'.toNat ≤ n ∧ n ≤ 'f'.toNat then some (n - 'a'.toNat + 10)
  else if 'A'.toNat ≤ n ∧ n ≤ 'F'.toNat then some (n - 'A'.toNat + 10)
  else none

/-- The code unit that four hexadecimal digits denote. -/
def unit? (a b c d : Char) : Option Nat := do
  return (((← hexValue? a) * 16 + (← hexValue? b)) * 16 + (← hexValue? c)) * 16 + (← hexValue? d)

/-- The character that a backslash and a letter stand for. -/
def shortEscape? (c : Char) : Option Char :=
  if c = '"' ∨ c = '\\' ∨ c = '/' then some c
  else if c = 'b' then some '\x08'
  else if c = 'f' then some '\x0c'
  else if c = 'n' then some '\n'
  else if c = 'r' then some '\r'
  else if c = 't' then some '\t'
  else none

/-- Passes over a string after its opening quote. Code units need not make up characters. -/
def skipString? : List Char → Option (List Char)
  | [] => none
  | '"' :: cs => some cs
  | '\\' :: 'u' :: a :: b :: c :: d :: cs => do
    let _ ← unit? a b c d
    skipString? cs
  | '\\' :: c :: cs => do
    let _ ← shortEscape? c
    skipString? cs
  | c :: cs => if c.toNat < 0x20 then none else skipString? cs

/-- Reads a string after its opening quote. A code unit of a surrogate pair must have its partner. -/
def readString? : List Char → Option (List Char × List Char)
  | [] => none
  | '"' :: cs => some ([], cs)
  | '\\' :: 'u' :: a :: b :: c :: d :: cs => do
    let high ← unit? a b c d
    if 0xDC00 ≤ high ∧ high < 0xE000 then none
    else if 0xD800 ≤ high ∧ high < 0xDC00 then
      match cs with
      | '\\' :: 'u' :: a :: b :: c :: d :: cs => do
        let low ← unit? a b c d
        if 0xDC00 ≤ low ∧ low < 0xE000 then
          let (text, rest) ← readString? cs
          return (Char.ofNat (0x10000 + (high - 0xD800) * 0x400 + (low - 0xDC00)) :: text, rest)
        else none
      | _ => none
    else
      let (text, rest) ← readString? cs
      return (Char.ofNat high :: text, rest)
  | '\\' :: c :: cs => do
    let c ← shortEscape? c
    let (text, rest) ← readString? cs
    return (c :: text, rest)
  | c :: cs =>
    if c.toNat < 0x20 then none
    else do
      let (text, rest) ← readString? cs
      return (c :: text, rest)

/-- The digits of a whole number: a zero, or digits that do not begin with one. -/
def digits? (cs : List Char) : Option (List Char × List Char) :=
  match cs with
  | '0' :: rest => if (rest.head?.map Char.isDigit).getD false then none else some (['0'], rest)
  | _ =>
    let ds := cs.takeWhile Char.isDigit
    if ds = [] then none else some (ds, cs.dropWhile Char.isDigit)

/-- Passes over one or more digits. -/
def skipDigits? (cs : List Char) : Option (List Char) :=
  if (cs.head?.map Char.isDigit).getD false then some (cs.dropWhile Char.isDigit) else none

/-- Passes over the fraction of a number, if it has one. -/
def skipFraction? : List Char → Option (List Char)
  | '.' :: cs => skipDigits? cs
  | cs => some cs

/-- Passes over the exponent of a number, if it has one. -/
def skipExponent? : List Char → Option (List Char)
  | [] => some []
  | mark :: cs =>
    if mark = 'e' ∨ mark = 'E' then
      match cs with
      | '+' :: cs => skipDigits? cs
      | '-' :: cs => skipDigits? cs
      | cs => skipDigits? cs
    else some (mark :: cs)

/-- Passes over a number. -/
def skipNumber? (cs : List Char) : Option (List Char) := do
  let cs := match cs with
    | '-' :: cs => cs
    | cs => cs
  skipExponent? (← skipFraction? (← digits? cs).2)

/-- Reads a number that has neither sign nor fraction nor exponent. -/
def natural? (cs : List Char) : Option (Nat × List Char) := do
  let (ds, rest) ← digits? cs
  match rest with
  | c :: _ => if c = '.' ∨ c = 'e' ∨ c = 'E' then none else return (Nat.ofDigitChars 10 ds 0, rest)
  | [] => return (Nat.ofDigitChars 10 ds 0, rest)

mutual

/-- Passes over a value. Each value and each item of a list takes one unit of fuel. -/
def skipValue? : Nat → List Char → Option (List Char)
  | 0, _ => none
  | fuel + 1, cs =>
    match skipBlank cs with
    | 'n' :: 'u' :: 'l' :: 'l' :: rest => some rest
    | 't' :: 'r' :: 'u' :: 'e' :: rest => some rest
    | 'f' :: 'a' :: 'l' :: 's' :: 'e' :: rest => some rest
    | '"' :: rest => skipString? rest
    | '[' :: rest =>
      match skipBlank rest with
      | ']' :: rest => some rest
      | rest => skipItems? fuel rest
    | '{' :: rest =>
      match skipBlank rest with
      | '}' :: rest => some rest
      | rest => skipMembers? fuel rest
    | rest => skipNumber? rest

/-- Passes over the items of a list and its closing bracket. -/
def skipItems? : Nat → List Char → Option (List Char)
  | 0, _ => none
  | fuel + 1, cs => do
    match skipBlank (← skipValue? fuel cs) with
    | ',' :: rest => skipItems? fuel rest
    | ']' :: rest => some rest
    | _ => none

/-- Passes over the members of an object and its closing brace. -/
def skipMembers? : Nat → List Char → Option (List Char)
  | 0, _ => none
  | fuel + 1, cs =>
    match skipBlank cs with
    | '"' :: rest => do
      match skipBlank (← skipString? rest) with
      | ':' :: rest => do
        match skipBlank (← skipValue? fuel rest) with
        | ',' :: rest => skipMembers? fuel rest
        | '}' :: rest => some rest
        | _ => none
      | _ => none
    | _ => none

end

/-- Reads a key and the colon after it. -/
def key? (cs : List Char) : Option (String × List Char) :=
  match skipBlank cs with
  | '"' :: rest => do
    let (text, rest) ← readString? rest
    match skipBlank rest with
    | ':' :: rest => return (String.ofList text, rest)
    | _ => none
  | _ => none

end Dotlang.Json

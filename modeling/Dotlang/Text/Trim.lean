import Dotlang.Text.Character

/-!
# Trimming

Blank characters (`isBlank`) are removed from the ends of a text; those inside it stay.
-/

namespace Dotlang.Text

/-- The text from its first character that is not blank. -/
def trimStart (cs : List Char) : List Char := cs.dropWhile isBlank

/-- The text up to its last character that is not blank. -/
def trimEnd (cs : List Char) : List Char := (cs.reverse.dropWhile isBlank).reverse

/-- The text between its first and last characters that are not blank. -/
def trim (cs : List Char) : List Char := trimEnd (trimStart cs)

/-- The text without one trailing `c`, if it ends in one. -/
def dropTrailing (c : Char) (cs : List Char) : List Char :=
  if cs.getLast? = some c then cs.dropLast else cs

/-- A word without one comma at its end. -/
def withoutComma (s : String) : String := String.ofList (dropTrailing ',' s.toList)

@[simp] theorem trim_nil : trim [] = [] := rfl

theorem dropTrailing_append_singleton (c : Char) (cs : List Char) :
    dropTrailing c (cs ++ [c]) = cs := by
  simp [dropTrailing]

end Dotlang.Text

/-!
# Lines and columns

* `takeLine?` : the first line of an input, with its line feed if it has one, and what follows;
* `alignLeft`, `alignRight` : a text padded with blanks to a width in characters.
-/

namespace Dotlang.Text

def takeLine? (cs : List Char) : Option (List Char × List Char) :=
  if cs = [] then none
  else
    match cs.dropWhile (· ≠ '\n') with
    | [] => some (cs, [])
    | feed :: rest => some (cs.takeWhile (· ≠ '\n') ++ [feed], rest)

/-- The blanks that a text lacks of a width. -/
def padding (width : Nat) (s : String) : String := String.ofList (List.replicate (width - s.length) ' ')

def alignLeft (width : Nat) (s : String) : String := s ++ padding width s

def alignRight (width : Nat) (s : String) : String := padding width s ++ s

end Dotlang.Text

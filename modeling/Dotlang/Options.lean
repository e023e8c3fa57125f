import Dotlang.Json.Reader

/-!
# Options

The options of a compilation, and how they are read from a JSON text: an object whose member `max_steps`
is the step budget, or a list of at most one item, which is that budget. Other members are allowed and
passed over. A budget is a number below `2 ^ 64` without sign, fraction and exponent, given at most once.
-/

namespace Dotlang

structure Options where
  /-- How many lines the machine may execute. -/
  maxSteps : Nat := 100000
  deriving DecidableEq, Repr

namespace Options

open Json

/-- A step budget. -/
def budget? (cs : List Char) : Option (Nat × List Char) := do
  let (n, rest) ← natural? (skipBlank cs)
  if n < UInt64.size then return (n, rest) else none

/-- The members of an object, up to and with its closing brace, given the budget they have set so far. -/
def ofMembers? : Nat → Option Nat → List Char → Option (Option Nat × List Char)
  | 0, _, _ => none
  | fuel + 1, seen, cs => do
    let (key, rest) ← key? cs
    let (seen, rest) ←
      if key = "max_steps" then
        if seen.isSome then none
        else do
          let (n, rest) ← budget? rest
          pure (some n, rest)
      else do
        let rest ← skipValue? (2 * rest.length + 1) rest
        pure (seen, rest)
    match skipBlank rest with
    | ',' :: rest => ofMembers? fuel seen rest
    | '}' :: rest => some (seen, rest)
    | _ => none

/-- An object or a list, and what follows it. -/
def ofValue? (cs : List Char) : Option (Option Nat × List Char) :=
  match skipBlank cs with
  | '{' :: rest =>
    match skipBlank rest with
    | '}' :: rest => some (none, rest)
    | rest => ofMembers? rest.length none rest
  | '[' :: rest =>
    match skipBlank rest with
    | ']' :: rest => some (none, rest)
    | rest => do
      let (n, rest) ← budget? rest
      match skipBlank rest with
      | ']' :: rest => some (some n, rest)
      | _ => none
  | _ => none

/-- The options in a text. What it does not say keeps its default. -/
def ofText? (text : String) : Option Options := do
  let (budget, rest) ← ofValue? text.toList
  if skipBlank rest = [] then
    return { maxSteps := budget.getD ({} : Options).maxSteps }
  else none

end Options

end Dotlang

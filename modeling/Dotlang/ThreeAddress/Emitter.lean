import Dotlang.Instruction
import Dotlang.ThreeAddress

/-!
# From instructions to three-address code

Every term of a chain has a temporary of its own, except that a condition keeps to one. Arguments are all
computed before the first of them is passed. Functions stay where they are declared.
-/

namespace Dotlang.ThreeAddress

/-- Computations that number temporaries; the state is the number of the last one. -/
abbrev Temporaries := StateM Nat

def newTemporary : Temporaries String := modifyGet fun n => ("t" ++ toString (n + 1), n + 1)

/-- Applies terms to an address, and tells which address holds the result. -/
def reduceTerms (left : String) : List (Operator × Operand) → Temporaries (List Quad × String)
  | [] => return ([], left)
  | (op, operand) :: terms => do
    let temporary ← newTemporary
    let (quads, result) ← reduceTerms temporary terms
    return (.binary op left operand.lexeme temporary :: quads, result)

/-- Computes a chain, and tells which address holds its value. -/
def reduce (c : Chain) : Temporaries (List Quad × String) := reduceTerms c.first.lexeme c.rest

/-- Computes the left side of a condition in one temporary, unless it is a single operand. -/
def reduceInPlace (c : Chain) : Temporaries (List Quad × String) := do
  if c.isSimple then return ([], c.first.lexeme)
  else
    let temporary ← newTemporary
    return (.assign c.first.lexeme temporary ::
      c.rest.map fun (op, operand) => .binary op temporary operand.lexeme temporary, temporary)

/-- Computes the arguments that are chains. -/
def reduceAll : List Argument → Temporaries (List Quad × List String)
  | [] => return ([], [])
  | .type _ :: args => reduceAll args
  | .value c :: args => do
    let (quads, address) ← reduce c
    let (more, addresses) ← reduceAll args
    return (quads ++ more, address :: addresses)

/-- The three-address code of an instruction. -/
def quads : Instruction → Temporaries (List Quad)
  | .assign target value => do
    let (before, address) ← reduce value
    return before ++ [.assign address target]
  | .step target op operand => do
    let temporary ← newTemporary
    return [.assign target temporary, .binary op temporary operand.lexeme temporary,
      .assign temporary target]
  | .compare cond relation label => do
    let (before, left) ← reduceInPlace cond.lhs
    return before ++ [.compare left cond.rhs.lexeme, .jumpIf relation label.name]
  | .jump label => return [.goto label.name]
  | .label label => return [.label label.name]
  | .call name args _ => do
    let (before, addresses) ← reduceAll args
    return before ++ addresses.map Quad.param ++ [.call name addresses.length]
  | .functionBegin name => return [.label name]
  | .functionEnd => return [.ret]

/-- The three-address code of instructions in sequence. -/
def quadsAll : List Instruction → Temporaries (List Quad)
  | [] => return []
  | i :: is => do return (← quads i) ++ (← quadsAll is)

/-- The three-address code of a program. -/
def generate (is : List Instruction) : List Quad := ((quadsAll is).run 0).1

end Dotlang.ThreeAddress

import Dotlang.Statement

/-!
# Instructions

A program as a flat list: assignments, calls, comparisons with a conditional jump, jumps and labels.
The body of a function stands where it was declared, between `functionBegin` and `functionEnd`.
-/

namespace Dotlang

/-- A label made by lowering, numbered from one. -/
structure Label where
  index : Nat
  deriving DecidableEq, Repr

def Label.name (l : Label) : String := "L" ++ toString l.index

inductive Instruction where
  | assign (target : String) (value : Chain)
  /-- The target takes part as the left operand. -/
  | step (target : String) (op : Operator) (operand : Operand)
  /-- Jumps when the relation holds of the two sides of the condition. -/
  | compare (cond : Condition) (jump : Relation) (label : Label)
  | jump (label : Label)
  | label (label : Label)
  /-- Built-in functions have no parameter list. -/
  | call (name : String) (args : List Argument) (params : Option (List String))
  | functionBegin (name : String)
  | functionEnd
  deriving DecidableEq, Repr

end Dotlang

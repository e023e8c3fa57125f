import Dotlang.Machine.Opcode

/-!
# Faults

The conditions that end a run early, and the sentence that reports each.
-/

namespace Dotlang

inductive Fault where
  | divisionByZero
  | moduloByZero
  | unresolvedLabel (name : String)
  | unknownInstruction (line : String)
  | stepBudgetExceeded (budget : Nat)
  | nonNumeric (op : Arith) (text : String)
  | missingOperand (opcode : Opcode)
  deriving DecidableEq, Repr

def Fault.message : Fault → String
  | divisionByZero => "Division by zero"
  | moduloByZero => "Modulo by zero"
  | unresolvedLabel name => "Unresolved label '" ++ name ++ "'"
  | unknownInstruction line => "Unknown instruction '" ++ line ++ "'"
  | stepBudgetExceeded budget => "Step budget of " ++ toString budget ++ " instructions exceeded"
  | nonNumeric op text => "Non-numeric operand '" ++ text ++ "' for " ++ op.mnemonic
  | missingOperand opcode => "Missing operand for " ++ opcode.mnemonic

end Dotlang

import Dotlang.Operator

/-!
# Opcodes

The first word of an assembly line names the operation.
-/

namespace Dotlang

inductive Opcode where
  | move
  | arith (op : Arith)
  | compare
  | jump
  | jumpIf (relation : Relation)
  | call
  | ret
  deriving DecidableEq, Repr

namespace Opcode

def all : List Opcode :=
  [move, compare, jump, call, ret] ++ Arith.all.map arith ++ Relation.all.map jumpIf

def mnemonic : Opcode → String
  | move => "MOV"
  | arith op => op.mnemonic
  | compare => "CMP"
  | jump => "JMP"
  | jumpIf r => r.mnemonic
  | call => "CALL"
  | ret => "RET"

def ofMnemonic? (m : String) : Option Opcode := all.find? fun op => op.mnemonic == m

theorem ofMnemonic?_mnemonic (op : Opcode) : ofMnemonic? op.mnemonic = some op := by
  cases op with
  | arith op => cases op <;> decide
  | jumpIf r => cases r <;> decide
  | _ => decide

end Opcode

end Dotlang

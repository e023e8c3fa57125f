import Dotlang.Machine.Opcode

/-!
# Assembly lines

What the machine reads, one line at a time. `Line.render` writes a line: an opcode, a blank and operands
with a comma between them, or a name and a colon for a label.
-/

namespace Dotlang.Assembly

inductive Line where
  | blank
  | label (name : String)
  | move (target source : String)
  | arith (op : Arith) (target source : String)
  | compare (left right : String)
  | jump (target : String)
  | jumpIf (relation : Relation) (target : String)
  | call (name : String) (args : List String)
  | ret
  deriving DecidableEq, Repr

namespace Line

/-- An opcode with its operands. -/
def instruction (op : Opcode) (operands : List String) : String :=
  op.mnemonic ++ " " ++ String.intercalate ", " operands

def render : Line → String
  | blank => ""
  | label name => name ++ ":"
  | move target source => instruction .move [target, source]
  | arith op target source => instruction (.arith op) [target, source]
  | compare left right => instruction .compare [left, right]
  | jump target => instruction .jump [target]
  | jumpIf r target => instruction (.jumpIf r) [target]
  | call name args => instruction .call (name :: args)
  | ret => Opcode.mnemonic .ret

end Line

/-- The text of a program: its lines, with a line feed between them. -/
def text (lines : List Line) : String := String.intercalate "\n" (lines.map Line.render)

end Dotlang.Assembly

import Dotlang.Assembly
import Dotlang.Machine.Fault
import Dotlang.Text.Trim

/-!
# Decoding assembly text

* `split` : a line as a first word and operands, which commas separate unless they stand in a string;
* `decode` : a line as an assembly line, or the fault that executing it raises;
* `target?` : the label that a line needs, whatever else is wrong with it.
-/

namespace Dotlang.Machine

open Text (isBlank trim withoutComma)
open Assembly (Line)

/-- Where a character of an operand list stands. -/
inductive Mode where
  | outside | inString | escaped
  deriving DecidableEq, Repr

def Mode.next : Mode → Char → Mode
  | outside, c => if c = '"' then inString else outside
  | inString, c => if c = '"' then outside else if c = '\\' then escaped else inString
  | escaped, _ => inString

/-- Puts a character in front of the first field. -/
def consField (c : Char) : List (List Char) → List (List Char)
  | [] => [[c]]
  | f :: fs => (c :: f) :: fs

/-- Cuts a text at the commas outside strings. -/
def fields : Mode → List Char → List (List Char)
  | _, [] => [[]]
  | mode, c :: cs =>
    if c = ',' ∧ mode = .outside then [] :: fields mode cs else consField c (fields (mode.next c) cs)

/-- The first word of a line, up to a blank, and the operands after it. Empty operands do not count. -/
def split (line : List Char) : String × List String :=
  let operands := (fields .outside ((line.dropWhile (!isBlank ·)).drop 1)).map trim
  (String.ofList (line.takeWhile (!isBlank ·)), (operands.filter (· ≠ [])).map String.ofList)

/-- The instruction of an opcode with its operands. Operands beyond the last one needed are ignored. -/
def ofOperands (op : Opcode) (operands : List String) : Except Fault Line :=
  match op, operands with
  | .move, target :: source :: _ => .ok (.move (withoutComma target) source)
  | .arith op, target :: source :: _ => .ok (.arith op (withoutComma target) source)
  | .compare, left :: right :: _ => .ok (.compare left right)
  | .jump, target :: _ => .ok (.jump target)
  | .jumpIf r, target :: _ => .ok (.jumpIf r target)
  | .call, name :: args => .ok (.call (withoutComma name) args)
  | .ret, _ => .ok .ret
  | op, _ => .error (.missingOperand op)

/-- A trimmed line. -/
def decode (line : List Char) : Except Fault Line :=
  if line = [] then .ok .blank
  else if line.getLast? = some ':' then .ok (.label (String.ofList line.dropLast))
  else
    let (word, operands) := split line
    match Opcode.ofMnemonic? word with
    | some op => ofOperands op operands
    | none => .error (.unknownInstruction (String.ofList line))

/-- The names that a call does not look up among the labels: three that print, and one that asks. -/
def printNames : List String := ["printO", "rat", "showout"]

def promptName : String := "enter"

def isBuiltin (name : String) : Bool := printNames.contains name || name == promptName

/-- The label that a trimmed line jumps to or calls, read from any line that begins with such an opcode. -/
def target? (line : List Char) : Option String :=
  let (word, operands) := split line
  match Opcode.ofMnemonic? word with
  | some .jump | some (.jumpIf _) => operands.head?
  | some .call => operands.head?.filter fun name => !isBuiltin name
  | _ => none

end Dotlang.Machine

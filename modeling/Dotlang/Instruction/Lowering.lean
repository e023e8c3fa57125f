import Dotlang.Instruction
import Dotlang.SymbolTable

/-!
# From statements to instructions

Labels are numbered in the order in which they are asked for: a conditional asks for its exit first and
for the start of the next branch at each branch, a loop for its start and then for its exit.

A `brk` jumps to the exit of the innermost loop around it, also when a function is declared in between, and
is nothing outside loops. A condition that is missing guards nothing.
-/

namespace Dotlang

/-- Computations that number labels; the state is the number of the last one. -/
abbrev Labelling := StateM Nat

def newLabel : Labelling Label := modifyGet fun n => (⟨n + 1⟩, n + 1)

namespace Instruction

def ofValue? (target : String) (value : Option Chain) : List Instruction :=
  (value.map (assign target)).toList

/-- Jumps to a label when the condition does not hold. -/
def jumpUnless (cond : Option Chain) (label : Label) : List Instruction :=
  (cond.map fun c =>
    let cond := Condition.ofChain c
    compare cond cond.op.falseJump label).toList

/-- Jumps to a label when the condition holds. -/
def jumpWhen (cond : Option Chain) (label : Label) : List Instruction :=
  (cond.map fun c =>
    let cond := Condition.ofChain c
    compare cond cond.op.trueJump label).toList

def ofStep : LoopStep → List Instruction
  | .assign target value => ofValue? target value
  | .compound target op operand => [step target op operand]

/-- One branch of a conditional, which leaves by `exit` and is passed over by `next`. -/
def branch (cond : Option Chain) (exit next : Label) (body : List Instruction) : List Instruction :=
  jumpUnless cond next ++ body ++ [jump exit, label next]

end Instruction

open Instruction (ofValue? jumpUnless jumpWhen ofStep branch)

mutual

/-- The instructions of a statement, given the exit of the loop around it. -/
def Statement.lower (table : SymbolTable) (loopExit : Option Label) :
    Statement → Labelling (List Instruction)
  | .block _ body => lowerBody table loopExit body
  | .declare _ d => return ofValue? d.name d.value
  | .assign _ name value => return ofValue? name value
  | .call _ name args builtin => return [.call name args (if builtin then none else some (table.params name))]
  | .function _ name _ body => do
    return [.functionBegin name] ++ (← lowerBody table loopExit body) ++ [.functionEnd]
  | .conditional _ cond body alternatives => do
    let exit ← newLabel
    let next ← newLabel
    let body ← lowerBody table loopExit body
    return branch cond exit next body ++ (← alternatives.lower table loopExit exit) ++ [.label exit]
  | .whileLoop _ cond body => do
    let start ← newLabel
    let exit ← newLabel
    let body ← lowerBody table exit body
    return [.label start] ++ jumpUnless cond exit ++ body ++ [.jump start, .label exit]
  | .doWhile _ body cond => do
    let start ← newLabel
    let exit ← newLabel
    let body ← lowerBody table exit body
    return [.label start] ++ body ++ jumpWhen cond start ++ [.label exit]
  | .counting _ init cond step body => do
    let start ← newLabel
    let exit ← newLabel
    let body ← lowerBody table exit body
    return (init.map fun d => ofValue? d.name d.value).getD [] ++ [.label start] ++ jumpUnless cond exit ++
      body ++ (step.map ofStep).getD [] ++ [.jump start, .label exit]
  | .brk _ => return (loopExit.map Instruction.jump).toList

/-- The instructions of statements in sequence. -/
def lowerBody (table : SymbolTable) (loopExit : Option Label) :
    List Statement → Labelling (List Instruction)
  | [] => return []
  | s :: ss => do return (← s.lower table loopExit) ++ (← lowerBody table loopExit ss)

/-- The instructions of the further branches of a conditional with the given exit. -/
def Alternatives.lower (table : SymbolTable) (loopExit : Option Label) (exit : Label) :
    Alternatives → Labelling (List Instruction)
  | .done => return []
  | .otherwise body => lowerBody table loopExit body
  | .branch cond body rest => do
    let next ← newLabel
    let body ← lowerBody table loopExit body
    return branch cond exit next body ++ (← rest.lower table loopExit exit)

end

/-- The instructions of a program. -/
def lower (table : SymbolTable) (body : List Statement) : List Instruction :=
  ((lowerBody table none body).run 0).1

end Dotlang

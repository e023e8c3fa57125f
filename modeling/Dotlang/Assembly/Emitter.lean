import Dotlang.Assembly
import Dotlang.Instruction

/-!
# From instructions to assembly

A chain accumulates in its target: the first operand is moved there and each further term is applied to
it. Where a single operand is needed, a longer chain accumulates in a scratch variable, whose name starts
with `$` as no name in a source can.

The body of a function goes into a buffer of its own, which is moved behind the main program when the
function ends. Buffers nest as functions do. `Emitter.finish` ends the main program and appends the
finished bodies.
-/

namespace Dotlang.Assembly

/-- Computations that number scratch variables; the state is the number of the last one. -/
abbrev Scratch := StateM Nat

def newScratch : Scratch String := modifyGet fun n => ("$t" ++ toString (n + 1), n + 1)

/-- Leaves the value of a chain in its target. -/
def accumulate (target : String) (c : Chain) : List Line :=
  .move target c.first.lexeme ::
    c.rest.map fun (op, operand) => .arith op.accumulator target operand.lexeme

/-- An operand that holds the value of a chain, and the lines that put it there. -/
def operand (c : Chain) : Scratch (List Line × String) := do
  if c.isSimple then return ([], c.first.lexeme)
  else
    let scratch ← newScratch
    return (accumulate scratch c, scratch)

/-- The operands for the arguments of a built-in function. -/
def operands : List Argument → Scratch (List Line × List String)
  | [] => return ([], [])
  | .type word :: args => do
    let (lines, rest) ← operands args
    return (lines, word :: rest)
  | .value c :: args => do
    let (lines, first) ← operand c
    let (more, rest) ← operands args
    return (lines ++ more, first :: rest)

/-- Gives a parameter its argument, or zero if there is none. -/
def bind (param : String) : Option Argument → List Line
  | some (.value c) => accumulate param c
  | some (.type word) => [.move param word]
  | none => [.move param "0"]

/-- Binds parameters to arguments by position. -/
def bindAll : List String → List Argument → List Line
  | [], _ => []
  | param :: params, args => bind param args.head? ++ bindAll params args.tail

/-- The lines of an instruction. The marks around a function have none. -/
def lines : Instruction → Scratch (List Line)
  | .assign target value => return accumulate target value
  | .step target op operand => return [.arith op.accumulator target operand.lexeme]
  | .compare cond relation label => do
    let (before, left) ← operand cond.lhs
    return before ++ [.compare left cond.rhs.lexeme, .jumpIf relation label.name]
  | .jump label => return [.jump label.name]
  | .label label => return [.label label.name]
  | .call name args none => do
    let (before, args) ← operands args
    return before ++ [.call name args]
  | .call name args (some params) => return bindAll params args ++ [.call name []]
  | .functionBegin _ | .functionEnd => return []

/-- The main program so far, the bodies of finished functions, those of the functions that are open,
innermost first, and the number of the last scratch variable. -/
structure Emitter where
  main : List Line
  finished : List Line
  opened : List (List Line)
  scratch : Nat
  deriving DecidableEq, Repr

namespace Emitter

def empty : Emitter := ⟨[], [], [], 0⟩

/-- Adds lines to the innermost open body, or to the main program. -/
def put (e : Emitter) (ls : List Line) : Emitter :=
  match e.opened with
  | [] => { e with main := e.main ++ ls }
  | body :: outer => { e with opened := (body ++ ls) :: outer }

/-- Ends the innermost open body. -/
def close (e : Emitter) : Emitter :=
  match e.opened with
  | [] => e
  | body :: outer => { e with finished := e.finished ++ body, opened := outer }

def emit (e : Emitter) : Instruction → Emitter
  | .functionBegin name => { e with opened := [.label name] :: e.opened }
  | .functionEnd => (e.put [.ret]).close
  | i =>
    let (ls, scratch) := (lines i).run e.scratch
    { e.put ls with scratch }

/-- Ends the main program before the finished bodies, if there are any. -/
def finish (e : Emitter) : Emitter :=
  if e.finished = [] then e
  else { e with main := e.main ++ [.ret] ++ e.finished, finished := [] }

/-- Emits a whole program. An emitter that has emitted one may go on with another. -/
def emitAll (e : Emitter) (is : List Instruction) : Emitter := (is.foldl emit e).finish

end Emitter

/-- The assembly of a program. -/
def assemble (is : List Instruction) : List Line := (Emitter.empty.emitAll is).main

end Dotlang.Assembly

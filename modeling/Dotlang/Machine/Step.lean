import Dotlang.Machine.Program
import Dotlang.Machine.Store
import Dotlang.Token

/-!
# Execution of one line

* `State` : the line that comes next, the pair left by the last comparison, the lines to return to and the
  variables;
* `Step` : what a line leads to, a next state at once or after an event, the end, or a fault;
* `Program.step` : the step of a program in a state.

A comparison fills the register and a conditional jump empties it; an empty register holds two zeros.
-/

namespace Dotlang.Machine

open Assembly (Line)

structure State where
  pc : Nat
  register : Option (Value × Value)
  stack : List Nat
  store : Store
  deriving DecidableEq

def State.initial : State := ⟨0, none, [], .empty⟩

inductive Step where
  | next (s : State)
  | print (line : String) (s : State)
  | prompt (message : String) (resume : Option String → State)
  | halt
  | fault (f : Fault)

/-- What a reply is stored as, by the data type asked for. Other types keep the text. -/
def readReply (type : Option DataType) (reply : String) : Value :=
  match type with
  | some .integer => .int (Value.intOfText reply)
  | some .decimal => .float (Value.floatOfText reply)
  | some .boolean => .bool (Value.boolOfText reply)
  | _ => .str reply

/-- Stores a reply: arguments are a message, perhaps a data type, and the variable. With fewer than two
arguments there is none. -/
def State.receive (s : State) (args : List String) (reply : String) : State :=
  match args with
  | _ :: type :: name :: _ =>
    { s with store := s.store.set (Text.withoutComma name) (readReply (DataType.ofWord? type) reply) }
  | [_, name] => { s with store := s.store.set (Text.withoutComma name) (.str reply) }
  | _ => s

/-- What an operand prints as. -/
def State.display (s : State) (operand : String) : String := (s.store.resolve operand).display

namespace Program

def jump (p : Program) (s : State) (label : String) : Step :=
  match p.lineOf? label with
  | some pc => .next { s with pc }
  | none => .fault (.unresolvedLabel label)

/-- Executes a line in a state that is past it. -/
def execute (p : Program) (s : State) : Line → Step
  | .blank | .label _ => .next s
  | .move target source => .next { s with store := s.store.set target (s.store.resolve source) }
  | .arith op target source =>
    match (s.store.get target).apply op (s.store.resolve source) with
    | .ok v => .next { s with store := s.store.set target v }
    | .error f => .fault f
  | .compare left right =>
    .next { s with register := some (s.store.resolve left, s.store.resolve right) }
  | .jump label => p.jump s label
  | .jumpIf relation label =>
    let (left, right) := s.register.getD (default, default)
    let s := { s with register := none }
    if relation.holds left right then p.jump s label else .next s
  | .call name args =>
    if printNames.contains name then .print (String.intercalate " " (args.map s.display)) s
    else if name = promptName then
      .prompt ((args.head?.map s.display).getD "") fun reply => s.receive args (reply.getD "")
    else p.jump { s with stack := s.pc :: s.stack } name
  | .ret =>
    match s.stack with
    | [] => .halt
    | pc :: stack => .next { s with pc, stack }

/-- The step in a state; past the last line a program halts. -/
def step (p : Program) (s : State) : Step :=
  match p.lines[s.pc]? with
  | none => .halt
  | some (.error f) => .fault f
  | some (.ok line) => p.execute { s with pc := s.pc + 1 } line

end Program

end Dotlang.Machine

import Dotlang.Dialogue
import Dotlang.Machine.Step

/-!
# Runs

A run is the dialogue of a program, bounded by a budget of steps. It ends when the program halts or
leaves its lines, at a fault, or when the budget is spent and a line is left to execute. A program with an
unresolved target does not start.
-/

namespace Dotlang.Machine

namespace Program

/-- Goes on from a state with the steps that remain of the budget. -/
def runFrom (p : Program) (budget : Nat) : Nat → State → Dialogue (Except Fault Unit)
  | 0, s => .done (if s.pc < p.lines.size then .error (.stepBudgetExceeded budget) else .ok ())
  | fuel + 1, s =>
    match p.step s with
    | .next s => p.runFrom budget fuel s
    | .print line s => .print line fun _ => p.runFrom budget fuel s
    | .prompt message resume => .prompt message fun reply => p.runFrom budget fuel (resume reply)
    | .halt => .done (.ok ())
    | .fault f => .done (.error f)

def run (p : Program) (budget : Nat) : Dialogue (Except Fault Unit) :=
  match p.unresolved? with
  | some name => .done (.error (.unresolvedLabel name))
  | none => p.runFrom budget budget .initial

end Program

/-- The run of a program given as text. -/
def run (text : String) (budget : Nat) : Dialogue (Except Fault Unit) := (Program.ofText text).run budget

end Dotlang.Machine

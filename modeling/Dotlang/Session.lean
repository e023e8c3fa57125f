import Dotlang.Compilation
import Dotlang.Console
import Dotlang.Report
import Dotlang.Text.Trim

/-!
# The interactive session

A session asks for a line, compiles and runs it as a program of its own, and asks again, until the line is
empty or there is none. Given a file it runs that once instead.
-/

namespace Dotlang.Session

/-- One line feed and then one carriage return are dropped from the end of a line. -/
def trimLine (line : List Char) : List Char := Text.dropTrailing '\r' (Text.dropTrailing '\n' line)

/-- Runs a program and writes its diagnostics. -/
def evaluate (source : String) : Console Unit := do
  let c ← (compile source {}).onConsole true trimLine
  Console.put (Report.unlines (c.diagnostics.map Diagnostic.text))

/-- Asks for one program and runs it; tells whether there was one. -/
def round : Console Bool := do
  Console.put "Enter statements: "
  match ← Console.getLine with
  | none => return false
  | some line =>
    let source := String.ofList (trimLine line.toList)
    if source = "" then return false
    else do
      evaluate source
      return true

/-- At most `n` rounds. Every round but the last takes a line of the input. -/
def rounds : Nat → Console Unit
  | 0 => return
  | n + 1 => do
    if ← round then rounds n

/-- The session as a console program that ends with an exit code, given how many rounds its input can
last. -/
def start (args : List String) (limit : Nat) : Console Nat := do
  match args with
  | [] => rounds limit
  | path :: _ =>
    match ← Console.getFile path with
    | .ok source => evaluate source
    | .error _ => return 1
  return 0

end Dotlang.Session

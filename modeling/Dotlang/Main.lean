import Dotlang.CommandLine
import Dotlang.Session

/-!
# The programs

The compiler command, and the interactive session if the executable's name ends in `session`. Console
programs are performed on standard input and output.
-/

namespace Dotlang

/-- The fault behind an error code of the system, whose sign does not matter. -/
def FileFault.ofCode? (code : UInt32) : Option FileFault :=
  let code := min code (0 - code)
  if code = 2 then some .missing
  else if code = 20 then some .notFolder
  else if code = 21 then some .isFolder
  else if code = 36 then some .nameTooLong
  else none

def FileFault.ofError (e : IO.Error) : FileFault :=
  let known? := match e with
    | .noFileOrDirectory _ code _ | .inappropriateType _ code _ | .invalidArgument _ code _ =>
      FileFault.ofCode? code
    | _ => none
  known?.getD (.other (toString e))

/-- An action on a file, with what went wrong in its result. -/
def attempt {α : Type} (act : IO α) : IO (Except FileFault α) := do
  try return .ok (← act) catch e => return .error (FileFault.ofError e)

/-- Performs a console program. -/
def Console.perform {α : Type} (c : Console α) : IO α := do
  match c with
  | .done a => return a
  | .write text next =>
    let output ← IO.getStdout
    output.putStr text
    output.flush
    (next ()).perform
  | .readLine next =>
    let line ← (← IO.getStdin).getLine
    (next (if line = "" then none else some line)).perform
  | .readFile path next => (next (← attempt (IO.FS.readFile path))).perform
  | .writeFile path text next => (next (← attempt (IO.FS.writeFile path text))).perform

/-- The compiler command. -/
def runCommand (args : List String) : IO Nat := do
  if let .error e := CommandLine.Arguments.parse args then IO.eprintln e.message
  (CommandLine.command args).perform

/-- Rounds of the session until the input ends. -/
partial def runRounds : IO Unit := do
  if ← Session.round.perform then runRounds

/-- The interactive session. -/
def runSession (args : List String) : IO Nat := do
  if args = [] then
    runRounds
    return 0
  else (Session.start args 0).perform

end Dotlang

def main (args : List String) : IO UInt32 := do
  let name := (← IO.appPath).fileStem.getD ""
  let code ← if name.endsWith "session" then Dotlang.runSession args else Dotlang.runCommand args
  return code.toUInt32

import Dotlang.CommandLine.Arguments
import Dotlang.Console
import Dotlang.Folder.Extension
import Dotlang.Report

/-!
# The compiler command

`command` is the whole command as a console program that ends with an exit code: it loads the options,
compiles and runs the input, reports, and writes the files asked for.

Printed lines appear as they come, except that with `--json` only the document is written after the run.
Messages of prompts are always written.
-/

namespace Dotlang.CommandLine

def versionLine : String := "cfc 0.1.0"

/-- Why the command gives up on an input. -/
inductive Failure where
  | unreadable (input : String) (fault : FileFault)
  | unwritable (fault : FileFault)
  deriving DecidableEq, Repr

def Failure.message : Failure → String
  | unreadable input fault => "Failed to open " ++ input ++ ": " ++ fault.message
  | unwritable fault => fault.message

/-- The options from the config file and from the arguments, which override it. None if the config file
cannot be read. -/
def options? (args : Arguments) : Console (Option Options) := do
  let base : Option Options ← match args.config with
    | none => pure (some {})
    | some path => do pure ((← Console.getFile path).toOption.bind Options.ofText?)
  return base.map fun o => { o with maxSteps := args.maxSteps.getD o.maxSteps }

/-- The generated code as files beside the input, if there is any. -/
def emitted (input : String) (c : Compilation) : List (String × String) :=
  if c.code.assembly = "" then []
  else
    [(withExtension input "asm", c.code.assembly),
      (withExtension input "ir",
        String.intercalate "\n" (c.code.threeAddress.map ThreeAddress.Quad.render))]

/-- What is written after the run. -/
def report (flags : List Flag) (c : Compilation) : List String :=
  let table (f : Flag) (lines : List String) := if f ∈ flags then lines else []
  if .json ∈ flags then [c.json]
  else if .quiet ∈ flags then []
  else
    table .tokens (Report.tokens c) ++ table .symbols (Report.symbols c) ++
      table .asm (Report.assembly c) ++ table .ir (Report.threeAddress c) ++ Report.diagnostics c

/-- Line feeds and carriage returns at the end of a line are not part of a reply. -/
def trimReply (line : List Char) : List Char :=
  (line.reverse.dropWhile fun c => c = '\n' || c = '\r').reverse

/-- Compiles, runs and reports an input and writes the files; tells whether there were no diagnostics. -/
def compileFile (input : String) (flags : List Flag) (options : Options) :
    Console (Except Failure Bool) := do
  match ← Console.getFile input with
  | .error fault => return .error (.unreadable input fault)
  | .ok source =>
    let c ← (compile source options).onConsole (.json ∉ flags) trimReply
    Console.put (Report.unlines (report flags c))
    match ← Console.putFiles (if .emit ∈ flags then emitted input c else []) with
    | .error fault => return .error (.unwritable fault)
    | .ok () => return .ok (c.diagnostics = [])

/-- The command, given its arguments. -/
def command (args : List String) : Console Nat := do
  match Arguments.parse args with
  | .error _ => return 2
  | .ok .version =>
    Console.putLine versionLine
    return 0
  | .ok (.compile input args) =>
    match ← options? args with
    | none => return 1
    | some options =>
      match ← compileFile input args.flags options with
      | .ok clean => return if clean then 0 else 1
      | .error failure =>
        Console.putLine (Report.boldRed "error" ++ ": " ++ failure.message)
        return 1

end Dotlang.CommandLine

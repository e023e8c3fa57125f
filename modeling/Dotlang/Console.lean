import Dotlang.Dialogue
import Dotlang.Folder
import Dotlang.Text.Line

/-!
# Consoles

A console program writes text, reads lines, and reads and writes files until it has a result.
`Console.simulate` runs one on an input text in a folder. A dialogue runs on a console by writing each
printed line, and each message with a blank after it before the reply is read.
-/

namespace Dotlang

inductive Console (α : Type) where
  | done (result : α)
  | write (text : String) (next : Unit → Console α)
  /-- The line comes with its line feed, and is missing at the end of the input. -/
  | readLine (next : Option String → Console α)
  | readFile (path : String) (next : Except FileFault String → Console α)
  | writeFile (path text : String) (next : Except FileFault Unit → Console α)

/-- What a console program wrote, its result, the input it did not read and the folder it leaves. -/
structure Outcome (α : Type) where
  output : String
  result : α
  input : List Char
  folder : Folder

namespace Console

variable {α β : Type}

def bind (c : Console α) (f : α → Console β) : Console β :=
  match c with
  | done a => f a
  | write text next => write text fun u => (next u).bind f
  | readLine next => readLine fun line => (next line).bind f
  | readFile path next => readFile path fun text => (next text).bind f
  | writeFile path text next => writeFile path text fun r => (next r).bind f

instance : Monad Console where
  pure := done
  bind := bind

def put (text : String) : Console Unit := write text fun _ => done ()

def putLine (text : String) : Console Unit := put (text ++ "\n")

def getLine : Console (Option String) := readLine done

def getFile (path : String) : Console (Except FileFault String) := readFile path done

/-- Writes files in order, up to the first that cannot be written. -/
def putFiles : List (String × String) → Console (Except FileFault Unit)
  | [] => done (.ok ())
  | (path, text) :: rest =>
    writeFile path text fun
      | .ok () => putFiles rest
      | .error fault => done (.error fault)

/-- Runs a console program that has written `shown` on the rest of its input. -/
def simulateFrom (shown : String) : Console α → List Char → Folder → Outcome α
  | done a, input, folder => ⟨shown, a, input, folder⟩
  | write text next, input, folder => simulateFrom (shown ++ text) (next ()) input folder
  | readLine next, input, folder =>
    match Text.takeLine? input with
    | some (line, rest) => simulateFrom shown (next (String.ofList line)) rest folder
    | none => simulateFrom shown (next none) [] folder
  | readFile path next, input, folder => simulateFrom shown (next (folder.read path)) input folder
  | writeFile path text next, input, folder =>
    match folder.write path text with
    | .ok changed => simulateFrom shown (next (.ok ())) input changed
    | .error fault => simulateFrom shown (next (.error fault)) input folder

def simulate (c : Console α) (input : String) (folder : Folder) : Outcome α :=
  c.simulateFrom "" input.toList folder

end Console

/-- A dialogue on a console. Printed lines are written if `echo` holds; a reply is the line that was read,
cut by `trim`. -/
def Dialogue.onConsole {α : Type} (echo : Bool) (trim : List Char → List Char) : Dialogue α → Console α
  | done a => .done a
  | print line next =>
    if echo then .write (line ++ "\n") fun u => (next u).onConsole echo trim
    else (next ()).onConsole echo trim
  | prompt message next =>
    .write (message ++ " ") fun _ => .readLine fun line =>
      (next (line.map fun l => String.ofList (trim l.toList))).onConsole echo trim

end Dotlang

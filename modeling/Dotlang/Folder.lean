/-!
# Files in a folder

* `FileFault` : why a file cannot be read or written, and the sentence that reports it;
* `Folder` : the texts of the files in a working folder and below it;
* `Folder.locate` : the place that a path leads to, followed from name to name;
* `Folder.read`, `Folder.write` : the text of a file, and the folder once a file is written.

A path that leaves the working folder passes through folders only and finds no file.
-/

namespace Dotlang

inductive FileFault where
  | missing
  | notFolder
  | isFolder
  | nameTooLong
  /-- Any other reason, in the words of the system. -/
  | other (reason : String)
  deriving DecidableEq, Repr

def FileFault.message : FileFault → String
  | missing => "No such file or directory (os error 2)"
  | notFolder => "Not a directory (os error 20)"
  | isFolder => "Is a directory (os error 21)"
  | nameTooLong => "File name too long (os error 36)"
  | other reason => reason

/-- Files by their names from the working folder downwards. -/
structure Folder where
  files : List (List String × String)
  deriving DecidableEq, Repr

/-- Where a path leads. -/
inductive Place where
  | file (names : List String) (text : String)
  /-- The working folder or one below it. -/
  | folder (names : List String)
  /-- A free name in a folder. -/
  | vacant (names : List String)
  /-- A folder that holds the working folder. -/
  | outside
  deriving DecidableEq, Repr

namespace Folder

/-- The longest name of a file in bytes. -/
def nameLimit : Nat := 255

/-- A path has fewer bytes than this. -/
def pathLimit : Nat := 4096

/-- What stands under a name. -/
def child (f : Folder) (names : List String) : Place :=
  match f.files.lookup names with
  | some text => .file names text
  | none => if f.files.any fun (other, _) => names.isPrefixOf other then .folder names else .vacant names

/-- Goes on from a place by one name of a path. An empty name stays, as a single point does. -/
def enter (f : Folder) (place : Place) (name : String) : Except FileFault Place :=
  match place with
  | .file .. => .error .notFolder
  | .vacant _ => .error .missing
  | .folder names =>
    if name = "" ∨ name = "." then .ok place
    else if name = ".." then .ok (if names = [] then .outside else .folder names.dropLast)
    else if nameLimit < name.utf8ByteSize then .error .nameTooLong
    else .ok (f.child (names ++ [name]))
  | .outside =>
    if name = "" ∨ name = "." ∨ name = ".." then .ok place
    else if nameLimit < name.utf8ByteSize then .error .nameTooLong
    else .error .missing

def locate (f : Folder) (path : String) : Except FileFault Place :=
  let cs := path.toList
  if cs = [] then .error .missing
  else if pathLimit ≤ path.utf8ByteSize then .error .nameTooLong
  else
    ((cs.splitOn '/').map String.ofList).foldlM f.enter
      (if cs.head? = some '/' then .outside else .folder [])

def read (f : Folder) (path : String) : Except FileFault String := do
  match ← f.locate path with
  | .file _ text => .ok text
  | .vacant _ => .error .missing
  | .folder _ | .outside => .error .isFolder

/-- Gives a file a new text. -/
def set (f : Folder) (names : List String) (text : String) : Folder :=
  ⟨(names, text) :: f.files.filter fun (other, _) => other ≠ names⟩

def write (f : Folder) (path text : String) : Except FileFault Folder := do
  match ← f.locate path with
  | .file names _ | .vacant names => .ok (f.set names text)
  | .folder _ | .outside => .error .isFolder

@[simp] theorem child_set_self (f : Folder) (names : List String) (text : String) :
    (f.set names text).child names = .file names text := by
  simp [child, set]

example : (⟨[(["a"], "x")]⟩ : Folder).read "./a" = .ok "x" := by cbv
example : (⟨[(["a"], "x")]⟩ : Folder).read "a/" = .error .notFolder := by cbv
example : (⟨[(["b", "a"], "x")]⟩ : Folder).read "b" = .error .isFolder := by cbv
example : (⟨[]⟩ : Folder).write ".." "x" = .error .isFolder := by cbv

end Folder

end Dotlang

import Dotlang.Machine.Decode

/-!
# Loaded programs

A program is its decoded lines with an index of its labels. A label that stands on several lines names the
last of them. `unresolved?` is the first target of a jump or call that no label bears.
-/

namespace Dotlang.Machine

open Text (trim)
open Assembly (Line)

structure Program where
  lines : Array (Except Fault Line)
  /-- The labels and their lines, the last one first. -/
  labels : List (String × Nat)
  targets : List String

namespace Program

/-- The label of a decoded line, with its index. -/
def label? : Except Fault Line × Nat → Option (String × Nat)
  | (.ok (.label name), i) => some (name, i)
  | _ => none

def ofText (text : String) : Program :=
  let texts := (text.toList.splitOn '\n').map trim
  let lines := texts.map decode
  { lines := lines.toArray
    labels := (lines.zipIdx.filterMap label?).reverse
    targets := texts.filterMap target? }

/-- The line that a label names. -/
def lineOf? (p : Program) (name : String) : Option Nat := p.labels.lookup name

def unresolved? (p : Program) : Option String := p.targets.find? fun name => (p.lineOf? name).isNone

end Program

end Dotlang.Machine

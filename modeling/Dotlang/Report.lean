import Dotlang.Compilation
import Dotlang.Json.Document
import Dotlang.Text.Line

/-!
# Reports on a compilation

* `Compilation.document` : everything as a JSON document;
* `Report.tokens` and so on : tables for a terminal, each under a banner;
* `Report.diagnostics` : one highlighted line per diagnostic.
-/

namespace Dotlang

open Json (Document)
open Json.Document (ofOption)

/-! ## as a document -/

def Token.document (t : Token) : Document :=
  .object [("kind", .string t.kind.name), ("lexeme", .string t.lexeme), ("line", .number t.line),
    ("start", .number t.start), ("end", .number t.stop)]

def Symbol.document (s : Symbol) : Document :=
  let (category, type, initializer, params) := match s.meaning with
    | .variable type initializer => ("VARIABLE", type, initializer, [])
    | .function params => ("FUNCTION", none, none, params)
  .object [("name", .string s.name), ("category", .string category),
    ("declared_type", ofOption (fun t => .string t.word) type), ("line", ofOption .number s.line),
    ("initializer", ofOption .string initializer), ("params", .array (params.map .string))]

def Diagnostic.document (d : Diagnostic) : Document :=
  .object [("phase", .string d.phase.name), ("message", .string d.message),
    ("line", ofOption .number d.line)]

def ThreeAddress.Quad.document (q : ThreeAddress.Quad) : Document :=
  let f := q.fields
  .object [("op", .string f.op), ("arg1", ofOption .string f.arg1), ("arg2", ofOption .string f.arg2),
    ("result", ofOption .string f.result)]

def Compilation.document (c : Compilation) : Document :=
  .object [("tokens", .array (c.tokens.map Token.document)),
    ("symbols", .array (c.symbols.entries.map Symbol.document)),
    ("errors", .array (c.diagnostics.map Diagnostic.document)),
    ("assembly", .string c.code.assembly),
    ("ir", .array (c.code.threeAddress.map ThreeAddress.Quad.document)),
    ("output", .array (c.output.map .string))]

/-- The document as text. -/
def Compilation.json (c : Compilation) : String := c.document.pretty

/-! ## for a terminal -/

namespace Report

open Text (alignLeft alignRight)

def bold (s : String) : String := "\x1b[1m" ++ s ++ "\x1b[22m"

def boldRed (s : String) : String := "\x1b[31m\x1b[1m" ++ s ++ "\x1b[39m\x1b[22m"

/-- Lines, each with a line feed. -/
def unlines (lines : List String) : String := String.join (lines.map (· ++ "\n"))

def banner (title : String) : String := bold ("== " ++ title ++ " ==")

def tokenLine (t : Token) : String :=
  alignRight 4 (toString t.line) ++ ":" ++ alignLeft 3 (toString t.start) ++ " " ++
    alignLeft 10 t.kind.name ++ " " ++ t.lexeme

def symbolLine (s : Symbol) : String :=
  let (category, type) := match s.meaning with
    | .variable type _ => ("Variable", (type.map DataType.word).getD "")
    | .function _ => ("Function", "")
  alignLeft 12 s.name ++ " " ++ category ++ " " ++ alignLeft 6 type ++ " " ++
    alignRight 4 ((s.line.map toString).getD "")

def tokens (c : Compilation) : List String := banner "Tokens" :: c.tokens.map tokenLine

def symbols (c : Compilation) : List String := banner "Symbols" :: c.symbols.entries.map symbolLine

def assembly (c : Compilation) : List String := [banner "Assembly", c.code.assembly]

def threeAddress (c : Compilation) : List String :=
  banner "Three-address code" :: c.code.threeAddress.map ThreeAddress.Quad.render

def diagnostics (c : Compilation) : List String := c.diagnostics.map fun d => boldRed d.text

end Report

end Dotlang

import Dotlang.Assembly.Emitter
import Dotlang.Instruction.Lowering
import Dotlang.Machine.Run
import Dotlang.Options
import Dotlang.SymbolTable.Registration
import Dotlang.ThreeAddress.Emitter
import Dotlang.Token.Lexer
import Dotlang.Typing

/-!
# Compiling and running a source

* `Analysis` : the tokens, the symbols, the tree, and the diagnostics of the first three phases;
* `Analysis.code` : the generated code, which exists only where there are no diagnostics;
* `compile` : the dialogue of running that code, with everything known about the source as its result.
-/

namespace Dotlang

structure Analysis where
  tokens : List Token
  symbols : SymbolTable
  body : List Statement
  /-- Lexical diagnostics, then syntactic and semantic ones. -/
  diagnostics : List Diagnostic

def analyze (source : String) : Analysis :=
  let tokens := tokenize source
  let parsed := parse tokens
  let symbols := SymbolTable.ofTokens tokens builtinNames
  { tokens, symbols
    body := parsed.body
    diagnostics := lexicalDiagnostics tokens ++ parsed.diagnostics ++ Typing.check symbols tokens }

/-- What a source is turned into. -/
structure Code where
  assembly : String
  threeAddress : List ThreeAddress.Quad

def Code.empty : Code := ⟨"", []⟩

def Analysis.code (a : Analysis) : Code :=
  let instructions := lower a.symbols a.body
  ⟨Assembly.text (Assembly.assemble instructions), ThreeAddress.generate instructions⟩

structure Compilation where
  tokens : List Token
  symbols : SymbolTable
  diagnostics : List Diagnostic
  code : Code
  /-- The lines that the program printed. -/
  output : List String

/-- A fault of the run as the last diagnostic. -/
def faultDiagnostics : Except Fault Unit → List Diagnostic
  | .ok () => []
  | .error f => [⟨.fault f, none⟩]

/-- Compiles a source and runs it if there is nothing wrong with it. -/
def compile (source : String) (options : Options) : Dialogue Compilation :=
  let a := analyze source
  if a.diagnostics = [] then do
    let (result, output) ← (Machine.run a.code.assembly options.maxSteps).recorded
    return ⟨a.tokens, a.symbols, faultDiagnostics result, a.code, output⟩
  else return ⟨a.tokens, a.symbols, a.diagnostics, .empty, []⟩

end Dotlang

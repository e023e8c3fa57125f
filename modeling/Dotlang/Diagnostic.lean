import Dotlang.Machine.Fault
import Dotlang.Typing.ValueType

/-!
# Diagnostics

A diagnostic is a cause and, where one is known, the line it concerns. The cause decides the phase that
found it and the sentence that reports it.
-/

namespace Dotlang

inductive Phase where
  | lexical | syntactic | semantic | runtime
  deriving DecidableEq, Repr

def Phase.name : Phase → String
  | lexical => "Lexical"
  | syntactic => "Syntax"
  | semantic => "Semantic"
  | runtime => "Runtime"

inductive Cause where
  | unexpected (text : String)
  | expected (wanted found : TokenKind)
  | unmatchedBrace
  | missingBrace
  | missingLoopCondition
  | undeclared (name : String)
  | assigned (value target : ValueType)
  | nonNumericOperands (op : Arith)
  | mixedOperands (op : Arith)
  | fault (f : Fault)
  deriving DecidableEq, Repr

namespace Cause

def phase : Cause → Phase
  | unexpected _ => .lexical
  | expected .. | unmatchedBrace | missingBrace | missingLoopCondition => .syntactic
  | undeclared _ | assigned .. | nonNumericOperands _ | mixedOperands _ => .semantic
  | fault _ => .runtime

def message : Cause → String
  | unexpected text => "Unexpected '" ++ text ++ "'"
  | expected wanted found => "Expected " ++ wanted.name ++ ", found " ++ found.name
  | unmatchedBrace => "Unmatched '\x7d'"
  | missingBrace => "Missing '\x7d' for block started"
  | missingLoopCondition => "Expected 'wish(...)' after do-while block"
  | undeclared name => "Variable '" ++ name ++ "' used without declaration"
  | assigned value target => "Type mismatch: " ++ value.name ++ " → " ++ target.name
  | nonNumericOperands op => "Non-numeric operands for " ++ op.lexeme
  | mixedOperands op => "Operand type mismatch for " ++ op.lexeme
  | fault f => f.message

end Cause

structure Diagnostic where
  cause : Cause
  line : Option Nat
  deriving DecidableEq, Repr

namespace Diagnostic

def phase (d : Diagnostic) : Phase := d.cause.phase

def message (d : Diagnostic) : String := d.cause.message

/-- The one-line form. -/
def text (d : Diagnostic) : String :=
  d.phase.name ++ " error: " ++ d.message ++
    match d.line with
    | some n => " at line " ++ toString n
    | none => ""

end Diagnostic

/-- One complaint for every character that starts no token. -/
def lexicalDiagnostics (tokens : List Token) : List Diagnostic :=
  (tokens.filter fun t => t.kind = .unknown).map fun t => ⟨.unexpected t.lexeme, some t.line⟩

end Dotlang

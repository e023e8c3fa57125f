import Dotlang.Chain

/-!
# Statements

The tree of a program is a list of statements. Every statement knows where its first token stands. A
chain is missing where the source has none that can be read.
-/

namespace Dotlang

structure Position where
  line : Nat
  column : Nat
  deriving DecidableEq, Repr

def Token.position (t : Token) : Position := ⟨t.line, t.start⟩

/-- `type name =. value;`, where the value may be absent. -/
structure Declaration where
  type : Option DataType
  name : String
  value : Option Chain
  deriving DecidableEq, Repr

/-- An argument of a call: an expression, or the word of a data type. -/
inductive Argument where
  | value (chain : Chain)
  | type (word : String)
  deriving DecidableEq, Repr

/-- What a counting loop does after each round. -/
inductive LoopStep where
  | assign (target : String) (value : Option Chain)
  | compound (target : String) (op : Operator) (operand : Operand)
  deriving DecidableEq, Repr

mutual

inductive Statement where
  | block (pos : Position) (body : List Statement)
  | declare (pos : Position) (declaration : Declaration)
  | assign (pos : Position) (name : String) (value : Option Chain)
  | call (pos : Position) (name : String) (args : List Argument) (builtin : Bool)
  | function (pos : Position) (name : String) (params : List String) (body : List Statement)
  | conditional (pos : Position) (cond : Option Chain) (body : List Statement)
      (alternatives : Alternatives)
  | whileLoop (pos : Position) (cond : Option Chain) (body : List Statement)
  | doWhile (pos : Position) (body : List Statement) (cond : Option Chain)
  | counting (pos : Position) (init : Option Declaration) (cond : Option Chain)
      (step : Option LoopStep) (body : List Statement)
  | brk (pos : Position)

/-- What follows the first branch of a conditional: further branches and a last resort. -/
inductive Alternatives where
  | done
  | otherwise (body : List Statement)
  | branch (cond : Option Chain) (body : List Statement) (rest : Alternatives)

end

def Statement.position : Statement → Position
  | block pos .. | declare pos .. | assign pos .. | call pos .. | function pos .. | conditional pos ..
  | whileLoop pos .. | doWhile pos .. | counting pos .. | brk pos => pos

end Dotlang

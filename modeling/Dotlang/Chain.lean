import Dotlang.Operator
import Dotlang.Token

/-!
# Chains

An expression is a chain: a first operand and further terms, each an operator and an operand. It has no
precedence and no brackets, and is evaluated from left to right.

* `Chain.read` : the chain at the start of a token list, and the tokens after it;
* `Condition.ofChain` : a chain cut at its first comparison.
-/

namespace Dotlang

structure Operand where
  kind : TokenKind
  lexeme : String
  deriving DecidableEq, Repr

def Token.operand (t : Token) : Operand := ⟨t.kind, t.lexeme⟩

structure Chain where
  first : Operand
  rest : List (Operator × Operand)
  deriving DecidableEq, Repr

namespace Chain

/-- A chain of one operand. -/
def isSimple (c : Chain) : Bool := c.rest.isEmpty

/-- The terms after the first operand. An operator that no operand follows is consumed and ends the
chain; a term whose operator is not one of the language is consumed and left out. -/
def readTerms : List Token → List (Operator × Operand) × List Token
  | op :: rhs :: ts =>
    if op.kind = .operator then
      if rhs.kind.isOperand then
        let (terms, after) := readTerms ts
        ((Operator.ofLexeme? op.lexeme).toList.map (·, rhs.operand) ++ terms, after)
      else ([], rhs :: ts)
    else ([], op :: rhs :: ts)
  | [op] => ([], if op.kind = .operator then [] else [op])
  | [] => ([], [])

/-- The chain that a token list starts with. A first token that is no operand is consumed and there is
no chain. -/
def read : List Token → Option Chain × List Token
  | [] => (none, [])
  | t :: ts =>
    if t.kind.isOperand then
      let (terms, after) := readTerms ts
      (some ⟨t.operand, terms⟩, after)
    else (none, ts)

end Chain

/-- A comparison whose left side has arithmetic terms only. -/
structure Condition where
  lhs : Chain
  op : Operator
  rhs : Operand
  deriving DecidableEq, Repr

namespace Condition

def zero : Operand := ⟨.number, "0"⟩

/-- The terms up to the first comparison, with that comparison; without one, the chain is compared with
zero for inequality. -/
def split : List (Operator × Operand) → List (Operator × Operand) × Operator × Operand
  | [] => ([], .compare .ne, zero)
  | (op, operand) :: rest =>
    if op.isArithmetic then
      let (terms, comparison) := split rest
      ((op, operand) :: terms, comparison)
    else ([], op, operand)

/-- A chain as a condition. What follows its first comparison is dropped. -/
def ofChain (c : Chain) : Condition :=
  let (terms, op, rhs) := split c.rest
  ⟨⟨c.first, terms⟩, op, rhs⟩

end Condition

end Dotlang

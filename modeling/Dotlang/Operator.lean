/-!
# Operators

Every operator of the language is a sign followed by a point: `+.`, `==.` and so on.

* `Arith` : the five accumulator operations, with their machine mnemonics;
* `Relation` : the six relations that a conditional jump tests, with their mnemonics and `negate`;
* `Operator` : either of them, as written in a chain.

Both kinds may stand where the other is expected. An accumulator reads a comparison as an addition, and
a jump reads an arithmetic operator as a test for equality.
-/

namespace Dotlang

inductive Arith where
  | add | sub | mul | div | mod
  deriving DecidableEq, Repr

namespace Arith

def all : List Arith := [add, sub, mul, div, mod]

def mnemonic : Arith → String
  | add => "ADD"
  | sub => "SUB"
  | mul => "MUL"
  | div => "DIV"
  | mod => "MOD"

def lexeme : Arith → String
  | add => "+."
  | sub => "-."
  | mul => "*."
  | div => "/."
  | mod => "%."

def ofMnemonic? (m : String) : Option Arith := all.find? fun op => op.mnemonic == m

theorem ofMnemonic?_mnemonic (op : Arith) : ofMnemonic? op.mnemonic = some op := by
  cases op <;> decide

end Arith

inductive Relation where
  | eq | ne | lt | gt | ge | le
  deriving DecidableEq, Repr

namespace Relation

def all : List Relation := [eq, ne, lt, gt, ge, le]

/-- The conditional jump that is taken when the relation holds. -/
def mnemonic : Relation → String
  | eq => "JE"
  | ne => "JNE"
  | lt => "JL"
  | gt => "JG"
  | ge => "JGE"
  | le => "JLE"

def lexeme : Relation → String
  | eq => "==."
  | ne => "!=."
  | lt => "<."
  | gt => ">."
  | ge => ">=."
  | le => "<=."

def ofMnemonic? (m : String) : Option Relation := all.find? fun r => r.mnemonic == m

/-- The relation that holds of two comparable values exactly when this one does not. -/
def negate : Relation → Relation
  | eq => ne
  | ne => eq
  | lt => ge
  | ge => lt
  | gt => le
  | le => gt

theorem ofMnemonic?_mnemonic (r : Relation) : ofMnemonic? r.mnemonic = some r := by
  cases r <;> decide

@[simp] theorem negate_negate (r : Relation) : r.negate.negate = r := by
  cases r <;> rfl

end Relation

inductive Operator where
  | arith (op : Arith)
  | compare (relation : Relation)
  deriving DecidableEq, Repr

namespace Operator

def all : List Operator := Arith.all.map arith ++ Relation.all.map compare

def lexeme : Operator → String
  | arith op => op.lexeme
  | compare r => r.lexeme

def ofLexeme? (s : String) : Option Operator := all.find? fun op => op.lexeme == s

def isArithmetic : Operator → Bool
  | arith _ => true
  | compare _ => false

/-- The accumulator operation for this operator; a comparison accumulates by addition. -/
def accumulator : Operator → Arith
  | arith op => op
  | compare _ => .add

/-- The relation this operator tests; an arithmetic operator tests equality. -/
def relation : Operator → Relation
  | arith _ => .eq
  | compare r => r

/-- The jump taken when the comparison holds. -/
def trueJump (op : Operator) : Relation := op.relation

/-- The jump taken when the comparison does not hold. -/
def falseJump (op : Operator) : Relation := op.relation.negate

theorem ofLexeme?_lexeme (op : Operator) : ofLexeme? op.lexeme = some op := by
  cases op with
  | arith op => cases op <;> decide
  | compare r => cases r <;> decide

theorem lexeme_of_ofLexeme? {s : String} {op : Operator} (h : ofLexeme? s = some op) :
    op.lexeme = s := by
  simpa using List.find?_some h

end Operator

end Dotlang

import Dotlang.Operator

/-!
# Three-address code

Instructions with at most three addresses: names, literals or temporaries. `Quad.render` is the text of
one, and `Quad.fields` its operator, arguments and result, as a report lists them.
-/

namespace Dotlang.ThreeAddress

inductive Quad where
  | assign (source result : String)
  | binary (op : Operator) (left right result : String)
  | label (name : String)
  | goto (name : String)
  | ret
  | call (name : String) (count : Nat)
  | param (value : String)
  | compare (left right : String)
  | jumpIf (relation : Relation) (name : String)
  deriving DecidableEq, Repr

/-- The columns of an instruction in a report. -/
structure Fields where
  op : String
  arg1 : Option String
  arg2 : Option String
  result : Option String
  deriving DecidableEq, Repr

namespace Quad

def render : Quad → String
  | assign source result => result ++ " = " ++ source
  | binary op left right result => result ++ " = " ++ left ++ " " ++ op.lexeme ++ " " ++ right
  | label name => name ++ ":"
  | goto name => "goto " ++ name
  | ret => "ret"
  | call name count => "call " ++ name ++ ", " ++ toString count
  | param value => "param " ++ value
  | compare left right => "CMP " ++ left ++ ", " ++ right
  | jumpIf r name => r.mnemonic ++ " " ++ name

def fields : Quad → Fields
  | assign source result => ⟨"assign", source, none, result⟩
  | binary op left right result => ⟨op.lexeme, left, right, result⟩
  | label name => ⟨"label", none, none, name⟩
  | goto name => ⟨"goto", none, none, name⟩
  | ret => ⟨"ret", none, none, none⟩
  | call name count => ⟨"call", name, toString count, none⟩
  | param value => ⟨"param", value, none, none⟩
  | compare left right => ⟨"CMP", left, right, none⟩
  | jumpIf r name => ⟨r.mnemonic, none, none, name⟩

end Quad

end Dotlang.ThreeAddress

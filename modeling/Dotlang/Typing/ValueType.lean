import Dotlang.Token

/-!
# The type of a single token

A literal has the data type of its spelling, a declared variable that of its declaration. The name of a
function and a name nobody declared have types of their own, which equal no data type.
-/

namespace Dotlang

inductive ValueType where
  | data (type : DataType)
  | function
  | unknown
  deriving DecidableEq, Repr

namespace ValueType

def name : ValueType → String
  | data t => t.word
  | function => "function"
  | unknown => "unknown"

def isNumeric : ValueType → Bool
  | data t => t.isNumeric
  | _ => false

end ValueType

end Dotlang

import Dotlang.Decimal.Positional
import Dotlang.Decimal.Reader
import Dotlang.Machine.Fault
import Dotlang.Machine.Word
import Dotlang.Text.Trim

/-!
# Values

A value is an integer of one word, a decimal, a text or a truth value.

* `Value.display` : what a value prints as;
* `Value.apply` : the arithmetic operations; an addition with a text on either side concatenates, and
  otherwise a text is no operand;
* `Value.order?`, `Relation.holds` : comparison; texts compare as texts, integers as integers, and every
  other pair by its decimal view, which a text that is no number lacks.
-/

namespace Dotlang

inductive Value where
  | int (n : Int64)
  | float (x : Float)
  | str (s : String)
  | bool (b : Bool)
  deriving DecidableEq

namespace Value

/-- What an unset variable holds. -/
instance : Inhabited Value := ⟨int 0⟩

def display : Value → String
  | int n => toString n.toInt
  | float x => Decimal.text x
  | str s => s
  | bool b => if b then "true" else "false"

/-- The decimal view: truth values count as one and zero, and a blank text as zero. -/
def toFloat? : Value → Option Float
  | int n => some (Float.ofInt n.toInt)
  | float x => some x
  | bool b => some (if b then 1.0 else 0.0)
  | str s =>
    let cs := Text.trim s.toList
    if cs = [] then some 0.0 else Decimal.read? cs

/-- The order of two decimals, none when one of them is no number. -/
def floatOrder? (x y : Float) : Option Ordering :=
  if x < y then some .lt
  else if x == y then some .eq
  else if y < x then some .gt
  else none

/-- The order of two values, none when they cannot be compared. -/
def order? : Value → Value → Option Ordering
  | str a, str b => some (compare a b)
  | int a, int b => some (compare a.toInt b.toInt)
  | a, b => do floatOrder? (← a.toFloat?) (← b.toFloat?)

/-- Equality under `order?`, so that zero, a blank text and a false value are all equal. -/
def looselyEqual (a b : Value) : Bool := a.order? b == some .eq

/-- An operand of arithmetic. -/
inductive Number where
  | int (n : Int64)
  | float (x : Float)

def Number.toFloat : Number → Float
  | int n => Float.ofInt n.toInt
  | float x => x

/-- The number that an operation takes a value for; truth values are one and zero. -/
def number (op : Arith) : Value → Except Fault Number
  | int n => .ok (.int n)
  | float x => .ok (.float x)
  | bool b => .ok (.int (if b then 1 else 0))
  | str s => .error (.nonNumeric op s)

/-- Arithmetic on integers, which faults on a zero divisor. -/
def applyInt (op : Arith) (a b : Int64) : Except Fault Value :=
  match op with
  | .div => if b = 0 then .error .divisionByZero else .ok (int (Word.apply .div a b))
  | .mod => if b = 0 then .error .moduloByZero else .ok (int (Word.apply .mod a b))
  | op => .ok (int (Word.apply op a b))

/-- A whole decimal as an integer if it is below `2 ^ 63` in magnitude. -/
def ofWhole (q : Float) : Value :=
  if q.isFinite && q.abs < 9223372036854775808.0 then int q.toInt64 else float q

/-- Arithmetic on decimals, which faults on a zero divisor. A quotient is rounded down, and is an
integer when it fits in a word. -/
def applyFloat (op : Arith) (a b : Float) : Except Fault Value :=
  match op with
  | .add => .ok (float (a + b))
  | .sub => .ok (float (a - b))
  | .mul => .ok (float (a * b))
  | .div => if b == 0.0 then .error .divisionByZero else .ok (ofWhole (a / b).floor)
  | .mod => if b == 0.0 then .error .moduloByZero else .ok (float (a - b * (a / b).floor))

/-- Arithmetic on numbers: integers stay integers, a decimal on either side makes both decimals. -/
def applyNumber (op : Arith) : Number → Number → Except Fault Value
  | .int a, .int b => applyInt op a b
  | a, b => applyFloat op a.toFloat b.toFloat

def isText : Value → Bool
  | str _ => true
  | _ => false

/-- The result of an operation. The left operand is examined first. -/
def apply (op : Arith) (a b : Value) : Except Fault Value :=
  if op = .add ∧ (a.isText || b.isText) then .ok (str (a.display ++ b.display))
  else do applyNumber op (← a.number op) (← b.number op)

end Value

/-- Whether a relation holds of two values. Of values that cannot be compared only `ne` holds. -/
def Relation.holds (r : Relation) (a b : Value) : Bool :=
  match r with
  | .eq => a.looselyEqual b
  | .ne => !a.looselyEqual b
  | .lt => a.order? b == some .lt
  | .gt => a.order? b == some .gt
  | .ge => a.order? b == some .gt || a.order? b == some .eq
  | .le => a.order? b == some .lt || a.order? b == some .eq

end Dotlang

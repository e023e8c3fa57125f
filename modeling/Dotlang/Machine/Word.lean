import Dotlang.Operator

/-!
# Integer arithmetic in one word

Integers are 64-bit two's complement. Sums, differences and products wrap. `floorDiv` and `floorMod`
start from the truncated quotient and remainder and correct them by one step when the exact quotient is
not whole and the operands differ in sign, so that the quotient rounds down and the remainder takes the
sign of the divisor.
-/

namespace Dotlang.Word

/-- Whether two words lie on different sides of zero. -/
def signsDiffer (a b : Int64) : Bool := decide (a < 0) != decide (b < 0)

/-- The quotient rounded down. -/
def floorDiv (a b : Int64) : Int64 :=
  if a % b ≠ 0 ∧ signsDiffer a b then a / b - 1 else a / b

/-- The remainder that goes with `floorDiv`. -/
def floorMod (a b : Int64) : Int64 :=
  if a % b ≠ 0 ∧ signsDiffer (a % b) b then a % b + b else a % b

/-- The operations on words, apart from the check for a zero divisor. -/
def apply : Arith → Int64 → Int64 → Int64
  | .add, a, b => a + b
  | .sub, a, b => a - b
  | .mul, a, b => a * b
  | .div, a, b => floorDiv a b
  | .mod, a, b => floorMod a b

example : floorDiv (-7) 2 = -4 ∧ floorMod (-7) 2 = 1 := by decide
example : floorDiv 7 (-2) = -4 ∧ floorMod 7 (-2) = -1 := by decide
example : floorDiv Int64.minValue (-1) = Int64.minValue := by decide

/-- The least word as an integer. -/
def least : Int := -9223372036854775808

/-- The greatest word as an integer. -/
def greatest : Int := 9223372036854775807

/-- The word of an integer that fits in one. -/
def ofInt? (n : Int) : Option Int64 :=
  if least ≤ n ∧ n ≤ greatest then some (Int64.ofInt n) else none

end Dotlang.Word

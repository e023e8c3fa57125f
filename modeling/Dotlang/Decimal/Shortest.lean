/-!
# The fewest digits that read back

A finite double is `m * 2 ^ q` for whole numbers `m` and `q`. The reals that round to it form an
interval around it whose ends are midway to its neighbours and belong to it exactly when `m` is even.
`Double.shortest` walks decimal grids from coarse to fine and stops at the first one with a point in
that interval: such a point has the fewest digits of all decimals that read back as the double. Of two
points on that grid it takes the nearer one, and the upper one when they are equally near.

Everything is exact arithmetic on natural numbers: the bounds and the double are numerators over one
common denominator.
-/

namespace Dotlang.Decimal

/-- A positive finite double in binary: `mantissa * 2 ^ exponent`. `atBinade` holds when its lower
neighbour is only half as far away as its upper one. -/
structure Double where
  mantissa : Nat
  exponent : Int
  atBinade : Bool

/-- The decimal `digits * 10 ^ exponent`. -/
structure Scaled where
  digits : Nat
  exponent : Int
  deriving DecidableEq, Repr

/-- How many fractions there are: a fraction has 52 bits. -/
def fractions : Nat := 0x10000000000000

/-- Reads the fields of a double without its sign bit: 11 bits of exponent and 52 of fraction. -/
def Double.ofFields (exponent fraction : Nat) : Double where
  mantissa := if exponent = 0 then fraction else fraction + fractions
  exponent := (max exponent 1 : Nat) - 1075
  atBinade := fraction == 0 && exponent > 1

/-- The interval of the reals that round to a double, with the double itself, as numerators over
`denominator`. -/
structure Interval where
  low : Nat
  mid : Nat
  high : Nat
  denominator : Nat
  closed : Bool

def Double.interval (d : Double) : Interval :=
  let up := Nat.pow 2 (d.exponent - 2).toNat
  { low := (4 * d.mantissa - if d.atBinade then 1 else 2) * up
    mid := 4 * d.mantissa * up
    high := (4 * d.mantissa + 2) * up
    denominator := Nat.pow 2 (2 - d.exponent).toNat
    closed := d.mantissa % 2 == 0 }

/-- The same interval measured in units of `10 ^ g`. -/
def Interval.onGrid (i : Interval) (g : Int) : Interval :=
  let up := Nat.pow 10 (-g).toNat
  { i with
    low := i.low * up, mid := i.mid * up, high := i.high * up
    denominator := i.denominator * Nat.pow 10 g.toNat }

/-- Whether the whole number `c` lies in the interval. -/
def Interval.contains (i : Interval) (c : Nat) : Bool :=
  if i.closed then i.low ≤ c * i.denominator && c * i.denominator ≤ i.high
  else i.low < c * i.denominator && c * i.denominator < i.high

/-- The whole number in the interval that is nearest to its middle, the upper one of two; none when
neither neighbour of the middle lies in it. -/
def Interval.nearest? (i : Interval) : Option Nat :=
  let c := i.mid / i.denominator
  match i.contains c, i.contains (c + 1) with
  | true, true => some (if 2 * i.mid < (2 * c + 1) * i.denominator then c else c + 1)
  | true, false => some c
  | false, true => some (c + 1)
  | false, false => none

/-- Tries the grids `10 ^ g`, `10 ^ (g - 1)` and so on, `fuel` of them. -/
def Interval.firstHit (i : Interval) : Nat → Int → Scaled
  | 0, g => ⟨i.mid / i.denominator, g⟩
  | fuel + 1, g =>
    match (i.onGrid g).nearest? with
    | some c => ⟨c, g⟩
    | none => i.firstHit fuel (g - 1)

/-- A power of ten above the middle of the interval: `1233 / 4096` is just below the decimal logarithm
of two, and two more cover the rounding. -/
def Interval.magnitude (i : Interval) : Int :=
  ((i.mid.log2 : Int) - i.denominator.log2 + 1) * 1233 / 4096 + 2

/-- The decimal with the fewest digits that reads back as `d`. Seventeen digits always suffice, and
`magnitude` is at most a few grids too coarse. -/
def Double.shortest (d : Double) : Scaled := d.interval.firstHit 24 d.interval.magnitude

/-- Five times the smallest grid that a double needs: the smallest positive double. -/
example : (Double.ofFields 0 1).shortest = ⟨5, -324⟩ := by decide +kernel

/-- Three tenths, whose binary value is slightly below it. -/
example : (Double.ofFields 1021 900719925474099).shortest = ⟨3, -1⟩ := by decide +kernel

/-- The largest double needs all seventeen digits. -/
example : (Double.ofFields 2046 (fractions - 1)).shortest = ⟨17976931348623157, 292⟩ := by decide +kernel

end Dotlang.Decimal

import Dotlang.Decimal.Shortest

/-!
# Decimals in positional notation

A float is written with the fewest digits that read back, without an exponent however large or small it
is, and without a decimal point when it is a whole number. Zero keeps its sign.
-/

namespace Dotlang.Decimal

/-- Writes `digits * 10 ^ exponent` positionally: whole numbers end in zeros and have no point, and a
number below one starts with `0.`. -/
def Scaled.positional (s : Scaled) : String :=
  let ds := Nat.toDigits 10 s.digits
  if 0 ≤ s.exponent then
    String.ofList (ds ++ List.replicate s.exponent.toNat '0')
  else
    let places := (-s.exponent).toNat
    if places < ds.length then
      String.ofList (ds.take (ds.length - places) ++ '.' :: ds.drop (ds.length - places))
    else
      String.ofList ('0' :: '.' :: List.replicate (places - ds.length) '0' ++ ds)

/-- The text of a float: `NaN` has no sign, everything else is `-` and the text of its magnitude when the
sign bit is set. -/
def text (x : Float) : String :=
  let bits := x.toBits.toNat
  let exponent := bits / fractions % 2048
  let fraction := bits % fractions
  let magnitude :=
    if exponent = 2047 then "inf"
    else if exponent = 0 ∧ fraction = 0 then "0"
    else (Double.ofFields exponent fraction).shortest.positional
  if exponent = 2047 ∧ fraction ≠ 0 then "NaN"
  else if 0x8000000000000000 ≤ bits then "-" ++ magnitude
  else magnitude

example : Scaled.positional ⟨1, 23⟩ = "100000000000000000000000" := by decide +kernel
example : Scaled.positional ⟨1, -7⟩ = "0.0000001" := by decide +kernel
example : Scaled.positional ⟨25, -1⟩ = "2.5" := by decide +kernel

end Dotlang.Decimal

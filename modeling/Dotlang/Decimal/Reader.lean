/-!
# Reading decimals

The accepted texts are an optional sign followed by `inf`, `infinity` or `nan` in any case, or by a
decimal with at least one digit, an optional point and an optional exponent: `.5`, `5.`, `2.5e-3`. The
value is the double nearest to the decimal.
-/

namespace Dotlang.Decimal

/-- Positive infinity. -/
def infinity : Float := Float.ofBits 0x7FF0000000000000

/-- The number that is not one. -/
def nan : Float := Float.ofBits 0x7FF8000000000000

/-- The double nearest to `m * 10 ^ e`. Decimals beyond `10 ^ 310` are infinite and those below
`10 ^ -400` are zero, whatever their digits. -/
def nearest (m : Nat) (e : Int) : Float :=
  let size : Int := (Nat.toDigits 10 m).length + e
  if m = 0 ∨ size < -400 then 0.0
  else if 310 < size then infinity
  else if e < 0 then Float.ofScientific m true (-e).toNat
  else Float.ofScientific m false e.toNat

/-- The digits after an exponent mark. An exponent that has passed `0xFFFF` grows no more. -/
def exponentOfDigits (ds : List Char) : Nat :=
  ds.foldl (fun n c => if n < 0x10000 then 10 * n + (c.toNat - '0'.toNat) else n) 0

/-- The part after the mantissa: nothing, or an exponent mark, an optional sign and digits. -/
def readExponent? : List Char → Option Int
  | [] => some 0
  | mark :: cs =>
    let magnitude? (ds : List Char) : Option Int :=
      if ds ≠ [] ∧ ds.all Char.isDigit then some (exponentOfDigits ds) else none
    if mark = 'e' ∨ mark = 'E' then
      match cs with
      | '-' :: ds => (magnitude? ds).map (- ·)
      | '+' :: ds => magnitude? ds
      | ds => magnitude? ds
    else none

/-- A decimal without sign. -/
def readDecimal? (cs : List Char) : Option Float :=
  let whole := cs.takeWhile Char.isDigit
  let rest := cs.dropWhile Char.isDigit
  let (fraction, rest) := match rest with
    | '.' :: rest => (rest.takeWhile Char.isDigit, rest.dropWhile Char.isDigit)
    | _ => ([], rest)
  if whole ++ fraction = [] then none
  else (readExponent? rest).map fun e =>
    nearest (Nat.ofDigitChars 10 (whole ++ fraction) 0) (e - fraction.length)

/-- A number without sign: one of the three words, or a decimal. -/
def readMagnitude? (cs : List Char) : Option Float :=
  let word := String.ofList (cs.map Char.toLower)
  if word = "inf" ∨ word = "infinity" then some infinity
  else if word = "nan" then some nan
  else readDecimal? cs

/-- The double that a text denotes, if the whole text is a number. -/
def read? : List Char → Option Float
  | '-' :: cs => (readMagnitude? cs).map (- ·)
  | '+' :: cs => readMagnitude? cs
  | cs => readMagnitude? cs

end Dotlang.Decimal

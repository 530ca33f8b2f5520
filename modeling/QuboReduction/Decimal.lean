/-!
# Decimals and their notation

A decimal is a natural number times a power of ten. It is written positionally, with a point after,
inside or before its digits, or in scientific notation with a signed exponent.

## Main definitions

* `QuboReduction.Decimal` — digits times a power of ten.
* `QuboReduction.Decimal.trim` — the same value without trailing zeros in the digits.
* `QuboReduction.Decimal.Style` — which decimals are written positionally, and how.
* `QuboReduction.Decimal.write` — the text of a decimal in a style.
* `QuboReduction.Decimal.naturalOf`, `QuboReduction.Decimal.exponent?` — the values of digits and of
  exponents.
-/

namespace QuboReduction

/-- The number `digits * 10 ^ exponent`. -/
structure Decimal where
  /-- The digits, read as a natural number. -/
  digits : Nat
  /-- The exponent of ten of the last digit. -/
  exponent : Int
deriving DecidableEq

namespace Decimal

/-- Moves up to `fuel` trailing zeros from the digits into the exponent. -/
def trimZeros (fuel : Nat) (d : Decimal) : Decimal :=
  match fuel with
  | 0 => d
  | fuel + 1 => if d.digits % 10 = 0 then trimZeros fuel ⟨d.digits / 10, d.exponent + 1⟩ else d

/-- The same value with no trailing zero in the digits; zero has the exponent zero. -/
def trim (d : Decimal) : Decimal :=
  if d.digits = 0 then ⟨0, 0⟩ else trimZeros (d.digits.log2 + 1) d

/-! ### Notation -/

/-- The characters of the digits. -/
def figures (d : Decimal) : List Char := (toString d.digits).toList

/-- The exponent of ten of the leading digit. -/
def magnitude (d : Decimal) : Int := d.exponent + d.figures.length - 1

/-- A row of zeros. -/
def zeros (count : Nat) : List Char := List.replicate count '0'

/-- The positional notation of a decimal; an integer gets `suffix` after its digits. -/
def positional (d : Decimal) (suffix : List Char) : List Char :=
  let ds := d.figures
  if 0 ≤ d.exponent then ds ++ zeros d.exponent.toNat ++ suffix
  else
    let places := (-d.exponent).toNat
    if places < ds.length then
      ds.take (ds.length - places) ++ '.' :: ds.drop (ds.length - places)
    else '0' :: '.' :: (zeros (places - ds.length) ++ ds)

/-- The scientific notation of a decimal: one digit before the point, and the exponent with its
sign. -/
def scientific (d : Decimal) : List Char :=
  let mantissa := match d.figures with
    | [] => []
    | [c] => [c]
    | c :: cs => c :: '.' :: cs
  let sign := if d.magnitude < 0 then '-' else '+'
  mantissa ++ 'e' :: sign :: (toString d.magnitude.natAbs).toList

/-- A style of writing numbers. -/
structure Style where
  /-- Whether a number whose leading digit has this exponent is written positionally. -/
  isPositional : Int → Bool
  /-- What follows the digits of an integer written positionally. -/
  integerSuffix : List Char

/-- The text of a decimal in a style. -/
def write (style : Style) (d : Decimal) : List Char :=
  if style.isPositional d.magnitude then d.positional style.integerSuffix else d.scientific

/-! ### Reading -/

/-- The natural number with the given digits. -/
def naturalOf (digits : List Char) : Nat :=
  digits.foldl (fun n c => 10 * n + (c.toNat - '0'.toNat)) 0

/-- The digits in front of a text, and the rest of it. -/
def spanDigits (text : List Char) : List Char × List Char :=
  (text.takeWhile Char.isDigit, text.dropWhile Char.isDigit)

/-- Whether a text starts with a minus sign, and the text after a sign of either kind. -/
def splitSign : List Char → Bool × List Char
  | '-' :: rest => (true, rest)
  | '+' :: rest => (false, rest)
  | rest => (false, rest)

/-- The exponent that a text consists of: nothing, or a mark, a sign or none, and digits. -/
def exponent? : List Char → Option Int
  | [] => some 0
  | mark :: rest =>
    let (isNegative, digits) := splitSign rest
    if (mark = 'e' ∨ mark = 'E') ∧ digits ≠ [] ∧ digits.all Char.isDigit then
      some (if isNegative then -(naturalOf digits : Int) else naturalOf digits)
    else none

end Decimal

end QuboReduction

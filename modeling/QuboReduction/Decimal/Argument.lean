import QuboReduction.Decimal
import QuboReduction.Scalar.Double

/-!
# Numbers given as arguments

A number on a command line has digits with an optional point among them, before them or after them,
an optional exponent, and an optional sign of either kind. Infinity and the value that is not a
number have names, written in letters of either case.

## Main definitions

* `QuboReduction.Argument.toFloat?` — the double nearest to the number that a text denotes.
-/

namespace QuboReduction

namespace Argument

/-- The double nearest to a number without a sign. -/
def magnitude? (text : List Char) : Option Float := do
  let (whole, rest) := Decimal.spanDigits text
  let (fraction, rest) := match rest with
    | '.' :: rest => Decimal.spanDigits rest
    | rest => ([], rest)
  guard (whole ++ fraction ≠ [])
  let exponent ← Decimal.exponent? rest
  pure (Scalar.ofDecimal (Decimal.naturalOf (whole ++ fraction)) (exponent - fraction.length))

/-- The value without a sign that a text denotes. -/
def unsigned? (text : List Char) : Option Float :=
  let name := String.ofList (text.map Char.toLower)
  if name = "inf" ∨ name = "infinity" then some (1.0 / 0.0)
  else if name = "nan" then some (0.0 / 0.0)
  else magnitude? text

/-- The double nearest to the number that a text denotes. -/
def toFloat? (text : String) : Option Float :=
  let (isNegative, rest) := Decimal.splitSign text.toList
  (unsigned? rest).map fun x => if isNegative then -x else x

end Argument

end QuboReduction

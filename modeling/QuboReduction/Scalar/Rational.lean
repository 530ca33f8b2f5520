import QuboReduction.Scalar

/-!
# Exact rational scalars

Rational numbers are scalars without rounding: a sum starts from zero, every number is finite, and
integers and decimals are represented exactly. Statements about exact arithmetic are statements
about these scalars.
-/

namespace QuboReduction

namespace Rational

/-- The integer nearest to a rational number, a half going away from zero. -/
def nearest (a : Rat) : Int := if a < 0 then -(-a + 1 / 2).floor else (a + 1 / 2).floor

/-- The integer part of a rational number, taken towards zero. -/
def integerPart (a : Rat) : Int := if a < 0 then a.ceil else a.floor

end Rational

instance : Scalar Rat where
  zero := 0
  one := 1
  emptySum := 0
  ofInt n := n
  ofDecimal digits exponent := digits * Rat.zpow 10 exponent
  abs a := if a < 0 then -a else a
  floor a := a.floor
  ceil a := a.ceil
  round a := Rational.nearest a
  truncate := Rational.integerPart
  isFinite _ := true
  decidableLT := inferInstance
  decidableLE := inferInstance

end QuboReduction

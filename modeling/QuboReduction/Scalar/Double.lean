import QuboReduction.Binary64
import QuboReduction.Scalar

/-!
# Floating point scalars

Doubles are scalars with correctly rounded operations. A sum starts from negative zero, the value
that leaves every double unchanged when it is added to it, and comparison is that of floating
point: the two zeros are equal and a value that is not a number is not equal to anything.
-/

namespace QuboReduction

instance : Scalar Float where
  zero := 0.0
  one := 1.0
  emptySum := -0.0
  ofInt := Float.ofInt
  ofDecimal digits exponent := Float.ofScientific digits (exponent < 0) exponent.natAbs
  abs := Float.abs
  floor := Binary64.roundBy Binary64.floorDiv
  ceil := Binary64.roundBy Binary64.ceilDiv
  round := Binary64.roundBy Binary64.nearestDiv
  truncate := Binary64.integerPart
  isFinite := Float.isFinite
  decidableLT := inferInstance
  decidableLE := inferInstance

end QuboReduction

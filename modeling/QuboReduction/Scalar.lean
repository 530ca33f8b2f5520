/-!
# Scalars

Problems, penalties and conversions are stated over a type of *scalars*: numbers with the four
operations, comparisons, rounding and the embedding of the integers. Two kinds of arithmetic are of
interest, exact rationals and binary floating point, and every definition of the library is written
once for both.

No law is assumed. In floating point an empty sum is a negative zero, equality is not reflexive and
a comparison with a value that is not a number fails, so the order of the operations in a definition
is part of its meaning.

## Main definitions

* `QuboReduction.Scalar` — the operations.
* `QuboReduction.Scalar.sum` — sums from the left.
* `QuboReduction.Scalar.least`, `QuboReduction.Scalar.greatest`, `QuboReduction.Scalar.clamp` —
  the smaller and larger of two scalars, passing over values that are not numbers.
* `QuboReduction.Scalar.isIntegral` — whether a scalar is an integer.
-/

namespace QuboReduction

/-- Numbers with the operations that problems and their conversions use. -/
class Scalar (α : Type) extends Zero α, One α, Add α, Sub α, Mul α, Div α, Neg α, BEq α, LT α,
    LE α where
  /-- The value of a sum without summands, from which sums start. -/
  emptySum : α
  /-- The scalar nearest to an integer. -/
  ofInt : Int → α
  /-- The scalar nearest to `digits * 10 ^ exponent`. -/
  ofDecimal : (digits : Nat) → (exponent : Int) → α
  /-- Absolute value. -/
  abs : α → α
  /-- The largest integer that is not above the scalar. -/
  floor : α → α
  /-- The smallest integer that is not below the scalar. -/
  ceil : α → α
  /-- The nearest integer, a half going away from zero. -/
  round : α → α
  /-- The integer part, taken towards zero; zero for a scalar that is not a finite number. -/
  truncate : α → Int
  /-- Whether the scalar is a finite number. -/
  isFinite : α → Bool
  /-- The strict order is decidable. -/
  decidableLT : DecidableRel fun a b : α => a < b
  /-- The order is decidable. -/
  decidableLE : DecidableRel fun a b : α => a ≤ b

namespace Scalar

variable {α : Type} [Scalar α]

instance (a b : α) : Decidable (a < b) := Scalar.decidableLT a b

instance (a b : α) : Decidable (a ≤ b) := Scalar.decidableLE a b

/-! ### Sums -/

/-- The sum of a list, added up from the left. -/
def sum (xs : List α) : α := xs.foldl (fun total x => total + x) emptySum

/-! ### Smaller and larger -/

/-- The smaller of two scalars; the other one when one of them is not a number. -/
def least (a b : α) : α := if a < b then a else if b == b then b else a

/-- The larger of two scalars; the other one when one of them is not a number. -/
def greatest (a b : α) : α := if b < a then a else if b == b then b else a

/-- The scalar itself when it is positive, and zero otherwise. -/
def positivePart (a : α) : α := if 0 < a then a else 0

/-- The value of the range from `lower` to `upper` that is nearest to `a`. -/
def clamp (lower upper a : α) : α :=
  let raised := if a < lower then lower else a
  if upper < raised then upper else raised

/-! ### Integers -/

/-- Whether a scalar is an integer. -/
def isIntegral (a : α) : Bool := isFinite a && floor a == a

end Scalar

end QuboReduction

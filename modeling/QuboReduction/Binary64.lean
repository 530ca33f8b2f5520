/-!
# The value of a double

A finite double is a natural significand times a power of two, with a sign. Rounding to an integer,
selecting decimal digits and taking the integer part are computed from these parts in exact integer
arithmetic.

## Main definitions

* `QuboReduction.Binary64` — sign, significand and exponent of a finite double.
* `QuboReduction.Binary64.ofFloat` — the parts of a double.
* `QuboReduction.Binary64.roundBy` — a double rounded to an integer by a rule on quotients.
-/

namespace QuboReduction

/-- A finite double: `significand * 2 ^ exponent`, with a sign. -/
structure Binary64 where
  /-- Whether the sign bit is set. -/
  negative : Bool
  /-- The significand, below `2 ^ 53`. -/
  significand : Nat
  /-- The exponent of the least bit of the significand. -/
  exponent : Int
  /-- Whether the gap to the double below in magnitude is half the gap to the one above. -/
  narrowBelow : Bool

namespace Binary64

/-- The parts of a double. The value is meaningful for finite doubles only. -/
def ofFloat (x : Float) : Binary64 :=
  let bits := x.toBits.toNat
  let field : Nat := (bits >>> 52) % (1 <<< 11)
  let fraction := bits % (1 <<< 52)
  let negative := bits >>> 63 == 1
  if field = 0 then ⟨negative, fraction, -1074, false⟩
  else ⟨negative, (1 <<< 52) + fraction, (field : Int) - 1075, fraction == 0 && 1 < field⟩

/-- The significand with the sign. -/
def signed (v : Binary64) : Int := if v.negative then -(v.significand : Int) else v.significand

/-! ### Rounding to integers -/

/-- The largest integer that is not above a quotient. -/
def floorDiv (num : Int) (den : Nat) : Int := num.fdiv den

/-- The smallest integer that is not below a quotient. -/
def ceilDiv (num : Int) (den : Nat) : Int := -((-num).fdiv den)

/-- The integer nearest to a quotient, a half going away from zero. -/
def nearestDiv (num : Int) (den : Nat) : Int :=
  if num < 0 then -((2 * -num + den).fdiv (2 * den)) else (2 * num + den).fdiv (2 * den)

/-- A double rounded to an integer by a rule on quotients. An integer, and what is not a finite
number, stays as it is, and a result of zero keeps the sign of the double. -/
def roundBy (rule : Int → Nat → Int) (x : Float) : Float :=
  let v := ofFloat x
  if x.isFinite && v.exponent < 0 then
    let n := rule v.signed (Nat.pow 2 (-v.exponent).toNat)
    if n = 0 then (if v.negative then -0.0 else 0.0) else Float.ofInt n
  else x

/-- The integer part of a double, taken towards zero; zero for what is not a finite number. -/
def integerPart (x : Float) : Int :=
  if x.isFinite then
    let v := ofFloat x
    if v.exponent < 0 then v.signed.tdiv (Nat.pow 2 (-v.exponent).toNat)
    else v.signed * Nat.pow 2 v.exponent.toNat
  else 0

end Binary64

end QuboReduction

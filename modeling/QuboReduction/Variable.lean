import QuboReduction.Scalar

/-!
# Variables

A decision variable is either binary or an integer between two bounds. Its index is its place in
the vectors of values and coefficients.

## Main definitions

* `QuboReduction.Domain` — the values that a variable may take.
* `QuboReduction.Domain.contains` — whether a value is admissible, up to a tolerance.
* `QuboReduction.Domain.nearest` — the admissible value nearest to a value.
* `QuboReduction.Variable` — a named variable with its domain and index.
-/

namespace QuboReduction

/-- The set of values that a variable may take. -/
inductive Domain where
  /-- Zero or one. -/
  | binary
  /-- The integers from `lower` to `upper`. -/
  | integer (lower upper : Int)
deriving DecidableEq

namespace Domain

variable {α : Type} [Scalar α]

/-- Whether the values are zero and one by declaration. -/
def isBinary : Domain → Bool
  | binary => true
  | integer _ _ => false

/-- The smallest value. -/
def lower : Domain → Int
  | binary => 0
  | integer lower _ => lower

/-- The largest value. -/
def upper : Domain → Int
  | binary => 1
  | integer _ upper => upper

/-- The largest absolute value of a bound. -/
def magnitude (d : Domain) : Nat := max d.lower.natAbs d.upper.natAbs

/-- Whether a value is within `tolerance` of an integer between the bounds. -/
def contains (d : Domain) (value tolerance : α) : Bool :=
  let rounded := Scalar.round value
  Scalar.abs (value - rounded) ≤ tolerance && Scalar.ofInt d.lower ≤ rounded &&
    rounded ≤ Scalar.ofInt d.upper

/-- The integer between the bounds that is nearest to a value. -/
def nearest (d : Domain) (value : α) : α :=
  Scalar.clamp (Scalar.ofInt d.lower) (Scalar.ofInt d.upper) (Scalar.round value)

/-- The name of the kind of domain. -/
def label : Domain → String
  | binary => "binary"
  | integer _ _ => "integer"

end Domain

/-- A decision variable of a problem. -/
structure Variable where
  /-- The name, unique within the problem. -/
  name : String
  /-- The values that the variable may take. -/
  domain : Domain
  /-- The position in vectors of values and coefficients. -/
  index : Nat
deriving DecidableEq

namespace Variable

/-- Whether the variable is declared binary. -/
def isBinary (v : Variable) : Bool := v.domain.isBinary

end Variable

end QuboReduction

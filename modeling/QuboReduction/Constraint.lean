import QuboReduction.Quadratic

/-!
# Constraints

A constraint compares the sum of a linear and a quadratic expression with a scalar.

## Main definitions

* `QuboReduction.Relation` — the kinds of comparison.
* `QuboReduction.Constraint` — a named constraint.
* `QuboReduction.Constraint.violation` — how far an assignment is from satisfying it.
-/

namespace QuboReduction

variable {α : Type} [Scalar α]

/-- The comparison of a left-hand side with a right-hand side. -/
inductive Relation where
  /-- Less than or equal. -/
  | le
  /-- Greater than or equal. -/
  | ge
  /-- Equal. -/
  | eq
deriving DecidableEq

namespace Relation

/-- The relation written out. -/
def symbol : Relation → String
  | le => "<="
  | ge => ">="
  | eq => "=="

/-- The relation between the negated sides. -/
def flip : Relation → Relation
  | le => ge
  | ge => le
  | eq => eq

/-- By how much a left-hand side misses a right-hand side. -/
def excess (r : Relation) (lhs rhs : α) : α :=
  match r with
  | le => Scalar.positivePart (lhs - rhs)
  | ge => Scalar.positivePart (rhs - lhs)
  | eq => Scalar.abs (lhs - rhs)

end Relation

/-- A linear and a quadratic expression compared with a scalar. -/
structure Constraint (α : Type) [Scalar α] where
  /-- The name, by which the constraint is reported. -/
  name : String
  /-- The terms of degree one. -/
  linear : Linear α
  /-- The terms of degree two. -/
  quadratic : Quadratic α
  /-- The comparison. -/
  relation : Relation
  /-- The right-hand side. -/
  rhs : α

namespace Constraint

/-- A constraint without terms of degree two. -/
def ofLinear (name : String) (linear : Linear α) (relation : Relation) (rhs : α) : Constraint α :=
  ⟨name, linear, Terms.empty, relation, rhs⟩

/-- Whether there are no terms of degree two. -/
def isLinear (c : Constraint α) : Bool := c.quadratic.isEmpty

/-- The left-hand side under an assignment. -/
def evaluate (c : Constraint α) (x : Nat → α) : α := c.linear.evaluate x + c.quadratic.evaluate x

/-- How far the left-hand side is from satisfying the constraint, zero when it does. -/
def violation (c : Constraint α) (x : Nat → α) : α := c.relation.excess (c.evaluate x) c.rhs

/-- Whether the violation is within a tolerance. -/
def isSatisfied (c : Constraint α) (x : Nat → α) (tolerance : α) : Bool :=
  c.violation x ≤ tolerance

/-- The coefficients of all terms, first those of degree one. -/
def coefficients (c : Constraint α) : List α := c.linear.coefficients ++ c.quadratic.coefficients

/-- The largest index that occurs. -/
def maxIndex? (c : Constraint α) : Option Nat := max c.linear.maxIndex? c.quadratic.maxIndex?

/-- Whether two constraints agree in name and relation and have equal coefficients. -/
def equal (c d : Constraint α) : Bool :=
  c.name == d.name && c.linear.equal d.linear && c.quadratic.equal d.quadratic &&
    c.relation == d.relation && c.rhs == d.rhs

end Constraint

end QuboReduction

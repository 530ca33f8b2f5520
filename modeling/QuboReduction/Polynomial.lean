import QuboReduction.Quadratic

/-!
# Quadratic polynomials

A constant, a linear and a quadratic expression together. Objectives are polynomials with a
direction, and a penalty is a polynomial that is added to an objective.

## Main definitions

* `QuboReduction.Polynomial` — polynomials of degree at most two.
* `QuboReduction.Polynomial.evaluate` — the value under an assignment.
* `QuboReduction.Polynomial.negate` — the polynomial with every coefficient negated.
* `QuboReduction.Polynomial.addMultiple` — a multiple of one polynomial added to another.
-/

namespace QuboReduction

/-- A polynomial of degree at most two. -/
structure Polynomial (α : Type) [Scalar α] where
  /-- The constant term. -/
  constant : α
  /-- The terms of degree one. -/
  linear : Linear α
  /-- The terms of degree two. -/
  quadratic : Quadratic α

namespace Polynomial

variable {α : Type} [Scalar α]

/-- The polynomial without terms. -/
def zero : Polynomial α := ⟨0, Terms.empty, Terms.empty⟩

/-- The value of a polynomial under an assignment. -/
def evaluate (p : Polynomial α) (x : Nat → α) : α :=
  p.constant + p.linear.evaluate x + p.quadratic.evaluate x

/-- The polynomial with every coefficient negated. -/
def negate (p : Polynomial α) : Polynomial α where
  constant := -p.constant
  linear := p.linear.scale (-1)
  quadratic := p.quadratic.scale (-1)

/-- A polynomial with `factor` times another one added to it. -/
def addMultiple (p : Polynomial α) (factor : α) (q : Polynomial α) : Polynomial α where
  constant := p.constant + factor * q.constant
  linear := p.linear.add (q.linear.scale factor)
  quadratic := p.quadratic.add (q.quadratic.scale factor)

/-- The largest index that occurs. -/
def maxIndex? (p : Polynomial α) : Option Nat :=
  max p.linear.maxIndex? p.quadratic.maxIndex?

/-- Whether two polynomials have equal coefficients. -/
def equal (p q : Polynomial α) : Bool :=
  p.constant == q.constant && p.linear.equal q.linear && p.quadratic.equal q.quadratic

end Polynomial

end QuboReduction

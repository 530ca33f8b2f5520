import QuboReduction.Polynomial

/-!
# Objectives

An objective is a polynomial that is to be minimized or maximized.

## Main definitions

* `QuboReduction.Sense` — the direction of optimization.
* `QuboReduction.Objective` — a polynomial with a direction.
* `QuboReduction.Objective.negate` — the same task, stated in the other direction.
-/

namespace QuboReduction

variable {α : Type} [Scalar α]

/-- The direction of optimization. -/
inductive Sense where
  /-- Smaller values are better. -/
  | minimize
  /-- Larger values are better. -/
  | maximize
deriving DecidableEq

namespace Sense

/-- The sign with which a cost is added to the objective: one when minimizing, minus one when
maximizing. -/
def sign : Sense → α
  | minimize => 1
  | maximize => -1

/-- The other direction. -/
def flip : Sense → Sense
  | minimize => maximize
  | maximize => minimize

end Sense

/-- A polynomial to be minimized or maximized. -/
structure Objective (α : Type) [Scalar α] where
  /-- The direction. -/
  sense : Sense
  /-- The polynomial. -/
  polynomial : Polynomial α

namespace Objective

/-- Minimize zero. -/
def zero : Objective α := ⟨.minimize, Polynomial.zero⟩

/-- The value of an objective under an assignment. -/
def evaluate (o : Objective α) (x : Nat → α) : α := o.polynomial.evaluate x

/-- The objective with its polynomial negated and its direction reversed. -/
def negate (o : Objective α) : Objective α := ⟨o.sense.flip, o.polynomial.negate⟩

/-- The largest index that occurs. -/
def maxIndex? (o : Objective α) : Option Nat := o.polynomial.maxIndex?

/-- Whether two objectives have the same direction and equal coefficients. -/
def equal (o q : Objective α) : Bool := o.sense == q.sense && o.polynomial.equal q.polynomial

end Objective

end QuboReduction

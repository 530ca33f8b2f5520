import QuboReduction.Problem

/-!
# Ranges of left-hand sides

The range of a left-hand side over the bounds of the variables is computed term by term: a linear
term lies between its values at the bounds of its variable, a product between its values at the
corners of the box of its two variables, and a square is smallest at zero if zero lies between the
bounds.

## Main definitions

* `QuboReduction.Interval` — a range of scalars.
* `QuboReduction.Problem.rangeOf` — the range of the left-hand side of a constraint.
-/

namespace QuboReduction

variable {α : Type} [Scalar α]

/-- The scalars from a lower to an upper end. -/
structure Interval (α : Type) where
  /-- The smallest scalar. -/
  lower : α
  /-- The largest scalar. -/
  upper : α

namespace Interval

/-- The sums of scalars of two intervals. -/
def add (i j : Interval α) : Interval α := ⟨i.lower + j.lower, i.upper + j.upper⟩

/-- The smallest interval with two scalars. -/
def hull (a b : α) : Interval α := ⟨Scalar.least a b, Scalar.greatest a b⟩

/-- The smallest interval that includes two intervals. -/
def union (i j : Interval α) : Interval α :=
  ⟨Scalar.least i.lower j.lower, Scalar.greatest i.upper j.upper⟩

/-- The values of `coef * x` for `x` in an interval. -/
def scale (coef : α) (i : Interval α) : Interval α := hull (coef * i.lower) (coef * i.upper)

/-- The values of `x * y` for `x` and `y` in two intervals, times a coefficient: the smallest
interval with the values at the four corners. -/
def scaleProduct (coef : α) (i j : Interval α) : Interval α :=
  (hull (coef * (i.lower * j.lower)) (coef * (i.lower * j.upper))).union
    (hull (coef * (i.upper * j.lower)) (coef * (i.upper * j.upper)))

/-- The values of `x * x` for `x` in an interval. -/
def square (i : Interval α) : Interval α :=
  let ends := hull (i.lower * i.lower) (i.upper * i.upper)
  ⟨if i.lower ≤ 0 ∧ 0 ≤ i.upper then 0 else ends.lower, ends.upper⟩

end Interval

namespace Problem

/-- The range of a variable. -/
def boundsAt (p : Problem α) (index : Nat) : Interval α :=
  match p.variableAt? index with
  | some v => ⟨Scalar.ofInt v.domain.lower, Scalar.ofInt v.domain.upper⟩
  | none => ⟨0, 0⟩

/-- The range of a term of degree two. -/
def pairRange (p : Problem α) (pair : Pair) (coef : α) : Interval α :=
  if pair.isSquare then (p.boundsAt pair.low).square.scale coef
  else (p.boundsAt pair.low).scaleProduct coef (p.boundsAt pair.high)

/-- The range of the left-hand side of a constraint. -/
def rangeOf (p : Problem α) (c : Constraint α) : Interval α :=
  let linear := c.linear.toList.map fun t => (p.boundsAt t.1).scale t.2
  let quadratic := c.quadratic.toList.map fun t => p.pairRange t.1 t.2
  (linear ++ quadratic).foldl Interval.add ⟨0, 0⟩

end Problem

end QuboReduction

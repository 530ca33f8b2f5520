import QuboReduction.Problem

/-!
# Shapes of inequalities

Some linear inequalities over binary variables have a penalty in closed form. They are recognized by
their shape: an implication between two variables, at most one of several variables, or all but at
most one of them.

## Main definitions

* `QuboReduction.Shape` — the shapes.
* `QuboReduction.Problem.shapeOf` — the shape of a constraint over the variables of a problem.
-/

namespace QuboReduction

variable {α : Type} [Scalar α]

/-- The shape of a constraint over binary variables. -/
inductive Shape where
  /-- The inequality `x ≤ y`, written `x - y ≤ 0`. -/
  | implicationLe (x y : Nat)
  /-- The inequality `x ≥ y`, written `x - y ≥ 0`. -/
  | implicationGe (x y : Nat)
  /-- At most one of the variables is one. -/
  | atMostOne (vars : List Nat)
  /-- At most one of the variables is zero. -/
  | atMostOneZero (vars : List Nat)
  /-- Any other constraint. -/
  | generic
deriving DecidableEq

namespace Constraint

/-- The variables `x` and `y` of a left-hand side `x - y`. -/
def difference? (c : Constraint α) : Option (Nat × Nat) :=
  match c.linear.toList with
  | [(i, a), (j, b)] =>
    if a == 1 && b == -1 then some (i, j)
    else if a == -1 && b == 1 then some (j, i)
    else none
  | _ => none

/-- The shape of an implication: a difference of two variables compared with zero. -/
def implication? (c : Constraint α) : Option Shape :=
  if c.rhs == 0 then
    match c.difference?, c.relation with
    | some (x, y), .le => some (.implicationLe x y)
    | some (x, y), .ge => some (.implicationGe x y)
    | _, _ => none
  else none

/-- The relation and right-hand side between a sum of variables and a scalar, the left-hand side
being that sum or its negation. -/
def countBound? (c : Constraint α) : Option (Relation × α) :=
  match c.linear.coefficients with
  | [] => none
  | first :: rest =>
    if rest.all fun a => a == first then
      if first == 1 then some (c.relation, c.rhs)
      else if first == -1 then some (c.relation.flip, -c.rhs)
      else none
    else none

/-- The shape of a bound on the number of ones among at least two variables. -/
def cardinality? (c : Constraint α) : Option Shape :=
  let n := c.linear.size
  if n < 2 then none
  else
    match c.countBound? with
    | some (.le, bound) => if bound == 1 then some (.atMostOne c.linear.keys) else none
    | some (.ge, bound) =>
      if bound == Scalar.ofInt (n - 1 : Nat) then some (.atMostOneZero c.linear.keys) else none
    | _ => none

end Constraint

namespace Problem

/-- The shape of a constraint over the variables of a problem. Equalities, constraints of degree two
and constraints over variables that are unknown or not binary have no shape of their own. -/
def shapeOf (p : Problem α) (c : Constraint α) : Shape :=
  if c.relation ≠ .eq && c.isLinear && c.linear.keys.all p.isBinaryAt then
    (c.implication? <|> c.cardinality?).getD .generic
  else .generic

end Problem

end QuboReduction

import QuboReduction.NumberText
import QuboReduction.Problem

/-!
# Violations

What is wrong with a vector of values: every variable whose value is not admissible and every
constraint that is not satisfied, up to a tolerance, with the worst violation first.

## Main definitions

* `QuboReduction.Violation` — a broken rule, with the values required and found.
* `QuboReduction.Problem.violations` — all violations of a vector, worst first.
* `QuboReduction.Problem.isFeasible` — whether there is none.
-/

namespace QuboReduction

variable {α : Type} [Scalar α]

/-- What is required of a variable or of a left-hand side. -/
inductive Requirement (α : Type) where
  /-- The left-hand side of a constraint stands in a relation to a scalar. -/
  | related (relation : Relation) (rhs : α)
  /-- The value of a variable belongs to a domain. -/
  | member (domain : Domain)

/-- A requirement that a vector of values does not meet. -/
structure Violation (α : Type) where
  /-- The name of the constraint or variable. -/
  name : String
  /-- What is required. -/
  requirement : Requirement α
  /-- The right-hand side, or the admissible value nearest to the one found. -/
  required : α
  /-- The value found. -/
  actual : α
  /-- How far the value found is from what is required. -/
  amount : α

namespace Violation

/-- The violation of the domain of a variable by a value. -/
def ofVariable (v : Variable) (value : α) : Violation α :=
  let required := v.domain.nearest value
  ⟨v.name, .member v.domain, required, value, Scalar.abs (value - required)⟩

/-- The violation of a constraint by an assignment. -/
def ofConstraint (c : Constraint α) (x : Nat → α) : Violation α :=
  ⟨c.name, .related c.relation c.rhs, c.rhs, c.evaluate x, c.violation x⟩

/-- A sentence that says what is wrong. -/
def description [NumberText α] (v : Violation α) : String :=
  match v.requirement with
  | .related .le rhs =>
    v.name ++ " exceeds maximum of " ++ NumberText.plain rhs ++ " by " ++
      NumberText.plain v.amount
  | .related .ge rhs =>
    v.name ++ " is below minimum of " ++ NumberText.plain rhs ++ " by " ++
      NumberText.plain v.amount
  | .related .eq rhs =>
    v.name ++ " requires exactly " ++ NumberText.plain rhs ++ " but got " ++
      NumberText.plain v.actual
  | .member .binary => v.name ++ " must be 0 or 1 but got " ++ NumberText.plain v.actual
  | .member (.integer lower upper) =>
    v.name ++ " must be an integer in [" ++ toString lower ++ ", " ++ toString upper ++
      "] but got " ++ NumberText.plain v.actual

end Violation

namespace Problem

/-- The variables whose value is not admissible. -/
def domainViolations (p : Problem α) (x : Nat → α) (tolerance : α) : List (Violation α) :=
  p.vars.filterMap fun v =>
    if v.domain.contains (x v.index) tolerance then none else some (.ofVariable v (x v.index))

/-- The constraints whose violation exceeds the tolerance. -/
def constraintViolations (p : Problem α) (x : Nat → α) (tolerance : α) : List (Violation α) :=
  p.constraints.filterMap fun c =>
    if tolerance < c.violation x then some (.ofConstraint c x) else none

/-- All violations of a vector of values, the largest amount first; equal amounts keep the order of
the variables and then of the constraints. The amounts have to be numbers: the comparison is not an
order where one of them is not, and a sort by it may give any order or, when it notices this, fail.
What is said here about such amounts is not to be relied on. -/
def violations (p : Problem α) (values : List α) (tolerance : α) :
    Except ProblemError (List (Violation α)) := do
  p.checkLength values
  let x := valueAt values
  pure ((p.domainViolations x tolerance ++ p.constraintViolations x tolerance).mergeSort
    fun v w => !decide (v.amount < w.amount))

/-- Whether a vector of values violates nothing, if the amounts of its violations are numbers. -/
def isFeasible (p : Problem α) (values : List α) (tolerance : α) : Except ProblemError Bool :=
  List.isEmpty <$> p.violations values tolerance

end Problem

end QuboReduction

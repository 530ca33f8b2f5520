import QuboReduction.Record
import QuboReduction.Stage.ClosedForm
import QuboReduction.Range

/-!
# Inequalities as equalities with a slack

An inequality with integral coefficients is divided by their greatest common divisor, its right-hand
side is rounded to an integer that leaves the same assignments, and an integer slack variable takes
up the difference between the sides. The slack ranges from zero to the largest difference that the
bounds of the variables allow. An inequality that no assignment violates is dropped, and one whose
slack can only be zero becomes an equality without a slack variable.

## Main definitions

* `QuboReduction.Slack` — what turns an inequality into an equality.
* `QuboReduction.Problem.slackFor` — the slack of an inequality, if one is needed.
* `QuboReduction.Problem.addSlacks` — the stage.
-/

namespace QuboReduction

variable {α : Type} [Scalar α]

/-- The integers up to this one, `2 ^ 53`, in magnitude are all represented exactly in double
precision. -/
def exactLimit : α := Scalar.ofInt 9007199254740992

/-- What turns an inequality into an equality. -/
structure Slack (α : Type) where
  /-- What both sides are divided by. -/
  divisor : α
  /-- The right-hand side after division and rounding. -/
  rhs : α
  /-- The largest value of the slack variable. -/
  upper : Int
  /-- The coefficient of the slack variable. -/
  sign : α

namespace Constraint

/-- The greatest common divisor of the integer parts of the coefficients, and one when there are
none. -/
def divisor (c : Constraint α) : Nat :=
  max (c.coefficients.foldl (fun g a => Nat.gcd g (Scalar.truncate (Scalar.abs a)).toNat) 0) 1

/-- The equality that an inequality becomes, without its slack variable. -/
def tightened (c : Constraint α) (s : Slack α) : Constraint α where
  name := c.name
  linear := c.linear.scale (1 / s.divisor)
  quadratic := c.quadratic.scale (1 / s.divisor)
  relation := .eq
  rhs := s.rhs

end Constraint

namespace Problem

/-- The largest value of a slack over a range, unless there are too many values for each of them to
be represented. -/
def slackUpper (c : Constraint α) (range : α) : Except (ConversionError α) Int :=
  if exactLimit < range then .error (.unsupported c.name .wideSlack)
  else .ok (Scalar.truncate range)

/-- The slack of an inequality with integral coefficients, or none if no assignment violates it. An
equality is treated as an inequality from above. -/
def slackFor (p : Problem α) (c : Constraint α) :
    Except (ConversionError α) (Option (Slack α)) := do
  if c.coefficients.any fun a => !Scalar.isIntegral a then
    throw (.unsupported c.name .fractionalCoefficient)
  if c.coefficients.any fun a => exactLimit < Scalar.abs a then
    throw (.unsupported c.name .largeCoefficient)
  let divisor : α := Scalar.ofInt c.divisor
  let range := p.rangeOf c
  let lower := range.lower / divisor
  let upper := range.upper / divisor
  let bound := c.rhs / divisor
  match c.relation with
  | .ge =>
    let rhs := Scalar.ceil bound
    if upper < rhs then throw (.infeasibleBounds c.name lower upper bound)
    if rhs ≤ lower then return none
    return some ⟨divisor, rhs, ← slackUpper c (upper - rhs), -1⟩
  | _ =>
    let rhs := Scalar.floor bound
    if rhs < lower then throw (.infeasibleBounds c.name lower upper bound)
    if upper ≤ rhs then return none
    return some ⟨divisor, rhs, ← slackUpper c (rhs - lower), 1⟩

/-- The name of the slack variable of a constraint. -/
def slackName (c : Constraint α) : String := c.name ++ "@int_slack"

/-- Adds a constraint of `p` to the problem under construction, as an equality. The slack variables
so far are listed in order. -/
def addTightened (p : Problem α) (state : Problem α × List Nat) (c : Constraint α) :
    Except (ConversionError α) (Problem α × List Nat) := do
  let (q, slacks) := state
  if c.relation = .eq then return (← ofBuilding (q.addConstraint c), slacks)
  match ← p.slackFor c with
  | none => return state
  | some s =>
    let equality := c.tightened s
    if 0 < s.upper then
      let (q, index) ← ofBuilding (q.addVariable (slackName c) (.integer 0 s.upper))
      let equality := { equality with linear := equality.linear.addTerm index s.sign }
      return (← ofBuilding (q.addConstraint equality), slacks ++ [index])
    else return (← ofBuilding (q.addConstraint equality), slacks)

/-- Turns inequalities into equalities with slack variables. -/
def addSlacks (p : Problem α) : Except (ConversionError α) (Problem α × Record α) := do
  let q ← ofBuilding (p.variablesOnly.setObjective p.objective)
  let (q, slacks) ← p.constraints.foldlM p.addTightened (q, [])
  pure (q, ⟨.inequalityToEquality, p.size, q.size, Record.keepAll p.size, slacks, false⟩)

end Problem

end QuboReduction

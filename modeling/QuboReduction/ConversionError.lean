import QuboReduction.NumberText
import QuboReduction.Problem

/-!
# Errors of conversions

Why a problem cannot be converted, or a vector not be taken back to the variables it came from.

## Main definitions

* `QuboReduction.Unsupported` — what a stage cannot deal with.
* `QuboReduction.ConversionError` — the causes.
* `QuboReduction.ConversionError.message` — the text of an error.
-/

namespace QuboReduction

/-- What about a constraint a stage cannot deal with. -/
inductive Unsupported where
  /-- A coefficient is not an integer, so the values of the left-hand side are not evenly spaced. -/
  | fractionalCoefficient
  /-- A coefficient is above `2 ^ 53` in magnitude. -/
  | largeCoefficient
  /-- The slack would range over more than `2 ^ 53` values. -/
  | wideSlack
  /-- The constraint is not an equality. -/
  | inequality
  /-- The constraint has terms of degree two. -/
  | quadratic
  /-- A variable of the constraint is not binary. -/
  | notBinary (name : String)
deriving DecidableEq

/-- The text of what is not supported. -/
def Unsupported.message : Unsupported → String
  | fractionalCoefficient => "slack variables require integral coefficients"
  | largeCoefficient => "coefficient too large for an exact integer slack"
  | wideSlack => "slack range too wide for an exact integer slack"
  | inequality => "inequality constraints must be rewritten as equalities first"
  | quadratic => "quadratic constraints cannot be squared into a quadratic penalty"
  | notBinary name => "variable " ++ name ++ " is not binary; convert integers to binary first"

/-- Why a problem cannot be converted, or a vector not be interpreted. -/
inductive ConversionError (α : Type) where
  /-- A stage cannot deal with a constraint. -/
  | unsupported (constraint : String) (reason : Unsupported)
  /-- A penalty factor is not a positive finite number. -/
  | invalidPenalty (factor : α)
  /-- The left-hand side of a constraint stays away from its right-hand side. -/
  | infeasibleBounds (constraint : String) (lower upper rhs : α)
  /-- A record does not fit to its neighbour or to the vector that it is applied to. -/
  | mismatch (position expected actual : Nat)
  /-- The converted problem cannot be built. -/
  | problem (cause : ProblemError)

/-- The text of an error. -/
def ConversionError.message {α : Type} [NumberText α] : ConversionError α → String
  | unsupported name reason => "Unsupported constraint " ++ name ++ ": " ++ reason.message
  | invalidPenalty factor =>
    "Invalid penalty factor " ++ NumberText.plain factor ++
      ": must be finite and greater than zero"
  | infeasibleBounds name lower upper rhs =>
    "Infeasible bounds in constraint " ++ name ++ ": left-hand side ranges over [" ++
      NumberText.plain lower ++ ", " ++ NumberText.plain upper ++ "] but must reach " ++
      NumberText.plain rhs
  | mismatch position expected actual =>
    "Interpretation mismatch at stage " ++ toString position ++ ": expected " ++
      toString expected ++ " values but got " ++ toString actual
  | problem cause => cause.message

/-- A step of building a problem, as part of a conversion. -/
def ofBuilding {α β : Type} : Except ProblemError β → Except (ConversionError α) β
  | .ok b => .ok b
  | .error e => .error (.problem e)

end QuboReduction

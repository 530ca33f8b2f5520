import QuboReduction.ConversionError

/-!
# Penalty factors

A penalty factor has to exceed every change of the objective that breaking a constraint could buy.
It is either given, and then has to be a positive finite number, or estimated from the objective:
the sum of the absolute coefficients, each times the largest magnitudes of its variables, bounds
what the objective can change by.

## Main definitions

* `QuboReduction.Problem.estimatedFactor` — a factor that is large enough.
* `QuboReduction.Problem.penaltyFactor` — the factor given, or else the estimated one.
-/

namespace QuboReduction

variable {α : Type} [Scalar α]

/-- What the estimated factor exceeds the bound on the objective by. -/
def penaltyMargin : α := 1

/-- The least estimated factor for constraints with fractional data, of which the smallest
violation is not known. -/
def fractionalFactor : α := Scalar.ofInt 100000

/-- Whether a constraint has a coefficient or right-hand side that is not an integer. -/
def Constraint.isFractional (c : Constraint α) : Bool :=
  !Scalar.isIntegral c.rhs || c.coefficients.any fun a => !Scalar.isIntegral a

namespace Problem

/-- The largest magnitude of a variable. -/
def magnitudeAt (p : Problem α) (index : Nat) : α :=
  match p.variableAt? index with
  | some v => Scalar.ofInt v.domain.magnitude
  | none => 1

/-- A bound on the change of the objective between two assignments, with a margin. -/
def objectiveBound (p : Problem α) : α :=
  let polynomial := p.objective.polynomial
  let linear := polynomial.linear.total fun i c => Scalar.abs c * p.magnitudeAt i
  let quadratic := polynomial.quadratic.total fun q c =>
    Scalar.abs c * p.magnitudeAt q.low * p.magnitudeAt q.high
  linear + quadratic + penaltyMargin

/-- A penalty factor for the constraints of a problem. -/
def estimatedFactor (p : Problem α) : α :=
  let bound := p.objectiveBound
  if (p.constraints.any fun c => c.isFractional) && bound < fractionalFactor then fractionalFactor
  else bound

end Problem

/-- Refuses a factor that is not a positive finite number. -/
def validateFactor (factor : α) : Except (ConversionError α) α :=
  if Scalar.isFinite factor && 0 < factor then .ok factor else .error (.invalidPenalty factor)

/-- The factor that is given, if it is valid, or else the estimated one. -/
def Problem.penaltyFactor (p : Problem α) (given : Option α) : Except (ConversionError α) α :=
  match given with
  | some factor => validateFactor factor
  | none => .ok p.estimatedFactor

end QuboReduction

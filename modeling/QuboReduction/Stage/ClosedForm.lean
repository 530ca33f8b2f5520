import QuboReduction.Penalty
import QuboReduction.PenaltyFactor
import QuboReduction.Record

/-!
# Inequalities with a penalty in closed form

Every inequality that has a shape of its own is replaced by the penalty of its shape in the
objective. The others stay, in their order.

## Main definitions

* `QuboReduction.Problem.foldShapes` — the stage.
-/

namespace QuboReduction

variable {α : Type} [Scalar α]

namespace Problem

/-- The variables of a problem, with nothing to optimize and no constraints. -/
def variablesOnly (p : Problem α) : Problem α :=
  { p with objective := Objective.zero, constraints := [] }

/-- The objective with the penalties of all constraints that have a shape of their own. -/
def withShapePenalties (p : Problem α) (factor : α) : Objective α :=
  p.constraints.foldl (fun o c =>
    match (p.shapeOf c).penalty? factor with
    | some penalty => o.addPenalty p.objective.sense.sign penalty
    | none => o) p.objective

/-- The constraints without a shape of their own. -/
def genericConstraints (p : Problem α) : List (Constraint α) :=
  p.constraints.filter fun c => p.shapeOf c = .generic

/-- Replaces the constraints that have a shape by their penalties in the objective. -/
def foldShapes (p : Problem α) (given : Option α) :
    Except (ConversionError α) (Problem α × Record α) := do
  let factor ← p.penaltyFactor given
  let q ← ofBuilding (p.variablesOnly.setObjective (p.withShapePenalties factor))
  let q ← ofBuilding (q.addConstraints p.genericConstraints)
  pure (q, Record.identity .linearInequalityToPenalty p.size)

end Problem

end QuboReduction

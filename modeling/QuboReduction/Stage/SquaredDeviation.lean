import QuboReduction.Penalty
import QuboReduction.PenaltyFactor
import QuboReduction.Record
import QuboReduction.Stage.ClosedForm

/-!
# Equalities as squared deviations

Every constraint has to be a linear equality over binary variables. It is replaced by the square of
the difference of its sides in the objective, and no constraint remains.

## Main definitions

* `QuboReduction.Problem.checkEquality` — refuses what is not a linear equality over binary
  variables.
* `QuboReduction.Problem.foldEqualities` — the stage.
-/

namespace QuboReduction

variable {α : Type} [Scalar α]

namespace Problem

/-- Refuses a constraint that is not a linear equality over binary variables. -/
def checkEquality (p : Problem α) (c : Constraint α) : Except (ConversionError α) Unit :=
  if c.relation ≠ .eq then .error (.unsupported c.name .inequality)
  else if c.isLinear = false then .error (.unsupported c.name .quadratic)
  else
    match (c.linear.keys.filterMap p.variableAt?).find? fun v => !v.isBinary with
    | some v => .error (.unsupported c.name (.notBinary v.name))
    | none => .ok ()

/-- The objective with the squared deviations of all constraints. -/
def withSquaredDeviations (p : Problem α) (factor : α) : Objective α :=
  p.constraints.foldl (fun o c =>
    o.addPenalty p.objective.sense.sign (squaredDeviation c.linear c.rhs factor)) p.objective

/-- Replaces linear equalities by their squared deviations in the objective. -/
def foldEqualities (p : Problem α) (given : Option α) :
    Except (ConversionError α) (Problem α × Record α) := do
  let factor ← p.penaltyFactor given
  p.constraints.forM p.checkEquality
  let q ← ofBuilding (p.variablesOnly.setObjective (p.withSquaredDeviations factor))
  pure (q, Record.identity .linearEqualityToPenalty p.size)

end Problem

end QuboReduction

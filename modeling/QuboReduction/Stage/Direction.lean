import QuboReduction.Record
import QuboReduction.Stage.ClosedForm

/-!
# The direction of optimization

Maximizing an objective is the same task as minimizing its negation. The stages here state a problem
in a given direction; one that has this direction already stays as it is.

## Main definitions

* `QuboReduction.Problem.orient` — the stage.
-/

namespace QuboReduction

variable {α : Type} [Scalar α]

namespace Problem

/-- States a problem in a direction, as a stage of the given kind. -/
def orient (p : Problem α) (target : Sense) (stage : StageKind) :
    Except (ConversionError α) (Problem α × Record α) := do
  let keeps := p.objective.sense = target
  let objective := if keeps then p.objective else p.objective.negate
  let q ← ofBuilding (p.variablesOnly.setObjective objective)
  let q ← ofBuilding (q.addConstraints p.constraints)
  pure (q, { Record.identity stage p.size with negatesObjective := !keeps })

end Problem

end QuboReduction

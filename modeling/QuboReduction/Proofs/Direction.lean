import QuboReduction.Proofs.Assignment
import QuboReduction.Stage.Direction

/-!
# Stating a problem in the other direction

Minimizing the negation of an objective is the same as maximizing the objective. The stages that do
so never fail on a well-formed problem, and leave variables and constraints as they are.

## Main definitions

* `QuboReduction.Objective.towards` — the objective stated in a direction.

## Main results

* `QuboReduction.Problem.orient_eq` — what the stages give.
-/

namespace QuboReduction

section Stated

variable {α : Type} [Scalar α]

/-- The objective, stated in a direction. -/
def Objective.towards (o : Objective α) (target : Sense) : Objective α :=
  if o.sense = target then o else o.negate

theorem Objective.sense_towards (o : Objective α) (target : Sense) :
    (o.towards target).sense = target := by
  rw [towards]
  split
  · assumption
  · rename_i h
    cases hsense : o.sense <;> cases target <;> simp_all [negate, Sense.flip]

theorem Objective.towards_below {o : Objective α} {n : Nat} (h : o.polynomial.Below n)
    (target : Sense) : (o.towards target).polynomial.Below n := by
  rw [towards]
  split
  · exact h
  · exact h.negate

namespace Problem

variable {p : Problem α}

/-- **The stages never fail** on a well-formed problem: they state its objective in a direction. -/
theorem orient_eq (hp : p.WellFormed) (target : Sense) (stage : StageKind) :
    p.orient target stage = .ok ({ p with objective := p.objective.towards target },
      { Record.identity stage p.size with
        negatesObjective := !decide (p.objective.sense = target) }) := by
  have hobjective : p.variablesOnly.setObjective (p.objective.towards target) =
      .ok { p.variablesOnly with objective := p.objective.towards target } :=
    setObjective_eq_ok_iff.mpr ⟨Objective.towards_below hp.objective_below target, rfl⟩
  have hconstraints :
      ({ p.variablesOnly with objective := p.objective.towards target } : Problem α).addConstraints
        p.constraints = .ok { p with objective := p.objective.towards target } :=
    (addConstraints_eq_ok_iff hp.constraint_named (by simp [variablesOnly])).mpr
      ⟨hp.constraint_below, by simpa [variablesOnly] using hp.constraintNames_nodup,
        by simp [variablesOnly]⟩
  simp only [Objective.towards] at hobjective hconstraints
  simp only [orient, hobjective, ofBuilding, ok_bind, hconstraints]
  rfl

theorem WellFormed.orient (hp : p.WellFormed) (target : Sense) :
    ({ p with objective := p.objective.towards target } : Problem α).WellFormed :=
  { hp with objective_below := Objective.towards_below hp.objective_below target }

end Problem

end Stated

/-! ### Values -/

variable {x : Nat → Rat}

theorem Objective.evaluate_towards (o : Objective Rat) (target : Sense) :
    (o.towards target).evaluate x = if o.sense = target then o.evaluate x else -o.evaluate x := by
  rw [towards]
  split
  · rfl
  · exact Polynomial.evaluate_negate o.polynomial

/-- As a cost, the objective does not depend on the direction in which it is stated. -/
theorem Objective.sign_mul_evaluate_towards (o : Objective Rat) (target : Sense) :
    (o.towards target).sense.sign * (o.towards target).evaluate x =
      o.sense.sign * o.evaluate x := by
  rw [sense_towards, evaluate_towards]
  cases o.sense <;> cases target <;> simp [Sense.sign]

end QuboReduction

import QuboReduction.Proofs.Dominance
import QuboReduction.Proofs.Estimate

/-!
# Penalties in place of constraints

Each of the two penalty stages takes constraints away and adds a multiple of a number to the cost,
which is zero where these constraints hold and at least one where they do not. With the estimated
factor, and without numbers of both signs in a range, no vector that breaks a constraint costs as
little as an optimal one, so the optimal vectors are the same before and after the stage.

## Main definitions

* `QuboReduction.Problem.PenaltyForm` — a problem with a penalty in place of some constraints.

## Main results

* `QuboReduction.Problem.PenaltyForm.optimal_iff` — the optimal vectors stay.
* `QuboReduction.Problem.withoutShapes_penaltyForm`,
  `QuboReduction.Problem.withoutEqualities_penaltyForm` — what the two stages leave.
* `QuboReduction.Problem.penaltyStage_optimal` — both stages, over binary variables.
-/

namespace QuboReduction

namespace Problem

variable {p q : Problem Rat} {factor : Rat} {penalty : List Rat → Rat} {s : List Rat}

/-- `q` is the problem `p` with a penalty, times a factor, in place of some of its constraints. -/
structure PenaltyForm (p q : Problem Rat) (factor : Rat) (penalty : List Rat → Rat) : Prop where
  /-- The variables stay. -/
  vars_eq : q.vars = p.vars
  /-- The direction stays. -/
  sense_eq : q.objective.sense = p.objective.sense
  /-- The penalty is added to the cost, whatever the direction is. -/
  value_eq : ∀ s, q.value s = p.value s + p.objective.sense.sign * (factor * penalty s)
  /-- The constraints that are gone hold where the penalty is zero. -/
  feasible_iff : ∀ s, p.Feasible s ↔ q.Feasible s ∧ penalty s = 0
  /-- A penalty that is paid is at least its factor. -/
  one_le : ∀ s, p.Admissible s → penalty s ≠ 0 → 1 ≤ penalty s

namespace PenaltyForm

variable (h : PenaltyForm p q factor penalty)

include h

theorem cost_eq (s : List Rat) : q.cost s = p.cost s + factor * penalty s := by
  rw [cost, h.value_eq, h.sense_eq, mul_add, ← mul_assoc _ _ (factor * penalty s),
    Sense.sign_mul_sign, one_mul, cost]

theorem admissible_iff : q.Admissible s ↔ p.Admissible s := by
  rw [Admissible, Admissible, h.vars_eq]

/-- Vectors that are feasible for the source pay nothing. -/
theorem value_of_feasible (hs : p.Feasible s) : q.value s = p.value s := by
  rw [h.value_eq, ((h.feasible_iff s).mp hs).2, mul_zero, mul_zero, add_zero]

theorem cost_of_feasible (hs : p.Feasible s) : q.cost s = p.cost s := by
  rw [cost, h.value_of_feasible hs, h.sense_eq, cost]

/-- **Exact penalties.** If every vector that pays a penalty costs more than an optimal vector, then
the optimal vectors stay. -/
theorem optimal_iff_of_lt (hfeasible : ∃ s, p.Feasible s)
    (hlt : ∀ s x, p.Optimal s → q.Feasible x → ¬p.Feasible x → p.cost s < q.cost x) :
    q.Optimal s ↔ p.Optimal s := by
  obtain ⟨best, hbest⟩ := exists_optimal hfeasible
  have hcost : ∀ x, q.Feasible x → p.cost best ≤ q.cost x := fun x hx => by
    by_cases hpx : p.Feasible x
    · rw [h.cost_of_feasible hpx]
      exact (optimal_iff.mp hbest).2 x hpx
    · exact (hlt best x hbest hx hpx).le
  constructor
  · intro hs
    obtain ⟨hq, hmin⟩ := optimal_iff.mp hs
    have hle := hmin best ((h.feasible_iff best).mp hbest.1).1
    rw [h.cost_of_feasible hbest.1] at hle
    have hp : p.Feasible s := by
      by_contra hbreaks
      exact absurd (hlt best s hbest hq hbreaks) hle.not_gt
    rw [h.cost_of_feasible hp] at hle
    exact optimal_iff.mpr ⟨hp, fun u hu => hle.trans ((optimal_iff.mp hbest).2 u hu)⟩
  · intro hs
    have hle := (optimal_iff.mp hs).2 best hbest.1
    refine optimal_iff.mpr ⟨((h.feasible_iff s).mp hs.1).1, fun u hu => ?_⟩
    rw [h.cost_of_feasible hs.1]
    exact hle.trans (hcost u hu)

/-- **Estimated penalties.** With the estimated factor the optimal vectors stay as long as no range
has numbers of both signs. -/
theorem optimal_iff (hfactor : factor = p.estimatedFactor)
    (hsigned : ∀ v ∈ p.vars, v.domain.OneSigned) (hfeasible : ∃ s, p.Feasible s) :
    q.Optimal s ↔ p.Optimal s := by
  refine h.optimal_iff_of_lt hfeasible fun s x hs hx hbreaks => ?_
  have hadmissible : p.Admissible x := h.admissible_iff.mp hx.1
  have hone : 1 ≤ penalty x :=
    h.one_le x hadmissible fun hzero => hbreaks ((h.feasible_iff x).mpr ⟨hx, hzero⟩)
  rw [h.cost_eq, hfactor]
  exact cost_lt_add_penalty hsigned hs.1.1 hadmissible hone

end PenaltyForm

/-! ### The two stages -/

/-- The stage for shapes leaves the cost of the shapes as a penalty. -/
theorem withoutShapes_penaltyForm (p : Problem Rat) (factor : Rat) :
    PenaltyForm p (p.withoutShapes factor) factor fun s => p.shapeCost (valueAt s) where
  vars_eq := rfl
  sense_eq := p.sense_withShapePenalties factor
  value_eq _ := p.evaluate_withShapePenalties factor
  feasible_iff _ := feasible_iff_shapeCost
  one_le s hs hbreaks := by
    obtain ⟨n, hn⟩ := shapeCost_natCast hs
    rw [hn] at hbreaks ⊢
    exact_mod_cast Nat.one_le_iff_ne_zero.mpr (by exact_mod_cast hbreaks)

/-- The stage for equalities leaves the squared deviations as a penalty, which are integers if the
data of the equalities are. -/
theorem withoutEqualities_penaltyForm (hp : p.WellFormed)
    (hcheck : ∀ d ∈ p.constraints, p.checkEquality d = .ok ())
    (hintegral : ∀ d ∈ p.constraints, d.Integral) (factor : Rat) :
    PenaltyForm p (p.withoutEqualities factor) factor fun s => p.deviation (valueAt s) := by
  have hlinear : ∀ d ∈ p.constraints, d.isLinear = true := fun d hd =>
    (checkEquality_ok (hcheck d hd)).2
  have hrelation : ∀ d ∈ p.constraints, d.relation = .eq := fun d hd =>
    (checkEquality_ok (hcheck d hd)).1
  refine {
    vars_eq := rfl
    sense_eq := sense_withSquaredDeviations hp hlinear factor
    value_eq := fun _ => evaluate_withSquaredDeviations hp hlinear factor
    feasible_iff := fun s => ?_
    one_le := fun s hs hbreaks => ?_ }
  · rw [deviation_eq_zero_iff hrelation]
    exact and_congr_left' ⟨fun hs => ⟨hs, by simp [withoutEqualities]⟩, And.left⟩
  · have hinteger : IsInteger (p.deviation (valueAt s)) :=
      isInteger_deviation fun d hd => hintegral d hd _ hs.isInteger
    exact hinteger.one_le ((p.deviation_nonneg _).lt_of_ne' hbreaks)

/-- **Estimated penalties over binary variables.** Let some vector of zeros and ones be feasible.
Whether shapes or equalities with integer data are folded into the objective, the optimal vectors
are the same before and after the stage, for the direction of the problem, and feasible vectors keep
their objective values. -/
theorem penaltyStage_optimal (hp : p.Built) (hbinary : ∀ v ∈ p.vars, v.isBinary = true)
    (hfeasible : ∃ s, p.Feasible s) {stage : Stage Rat}
    (hstage : stage = .linearInequalityToPenalty none ∨
      stage = .linearEqualityToPenalty none ∧ ∀ d ∈ p.constraints, d.relation = .eq →
        (∀ a ∈ d.coefficients, IsInteger a) ∧ IsInteger d.rhs)
    {r : Record Rat} (h : stage.apply p = .ok (q, r)) :
    q.vars = p.vars ∧ q.objective.sense = p.objective.sense ∧
      {s | q.Optimal s} = {s | p.Optimal s} ∧
      ∀ s, p.Feasible s → ∃ value, p.evaluateObjective s = .ok value ∧
        q.evaluateObjective s = .ok value := by
  have hform : ∃ penalty, PenaltyForm p q p.estimatedFactor penalty := by
    rcases hstage with rfl | ⟨rfl, hdata⟩
    · obtain ⟨f, hf, rfl, -⟩ := foldShapes_ok hp.wellFormed h
      obtain rfl : p.estimatedFactor = f := Except.ok.inj hf
      exact ⟨_, p.withoutShapes_penaltyForm _⟩
    · obtain ⟨f, hf, hcheck, rfl, -⟩ := foldEqualities_ok hp.wellFormed h
      obtain rfl : p.estimatedFactor = f := Except.ok.inj hf
      have hintegral : ∀ d ∈ p.constraints, d.Integral := fun d hd => by
        obtain ⟨hcoefficients, hrhs⟩ := hdata d hd (checkEquality_ok (hcheck d hd)).1
        exact Constraint.integral_of_isInteger hcoefficients hrhs
      exact ⟨_, withoutEqualities_penaltyForm hp.wellFormed hcheck hintegral _⟩
  obtain ⟨penalty, hform⟩ := hform
  have hsigned : ∀ v ∈ p.vars, v.domain.OneSigned := fun v hv =>
    Domain.oneSigned_of_isBinary (hbinary v hv)
  refine ⟨hform.vars_eq, hform.sense_eq,
    Set.ext fun s => hform.optimal_iff rfl hsigned hfeasible, fun s hs => ?_⟩
  have hlength : s.length = p.size := hs.1.length_eq
  refine ⟨p.value s, evaluateObjective_of_length hlength, ?_⟩
  rw [evaluateObjective_of_length (hlength.trans (congrArg List.length hform.vars_eq.symm)),
    hform.value_of_feasible hs]

end Problem

/-- Choose among three people, of whom the first two cannot work together, for two shifts; the first
one works both. -/
def staffing : Problem Rat where
  name := "staffing"
  vars := [⟨"x", .binary, 0⟩, ⟨"y", .binary, 1⟩, ⟨"z", .binary, 2⟩]
  objective := ⟨.maximize, ⟨0, Terms.ofList [(0, 3), (2, -1)], Quadratic.ofProducts [(1, 2, 5)]⟩⟩
  constraints := [.ofLinear "apart" (Terms.ofList [(0, 1), (1, 1)]) .le 1,
    .ofLinear "shifts" (Terms.ofList [(0, 2), (1, 1), (2, 1)]) .eq 2]

theorem staffing_built : staffing.Built := Problem.built_iff_assemble_eq.mpr rfl

/-- The two stages one after another take both constraints of the staffing problem away and keep its
optimal vectors, the first stage for a shape and the second one for an equality. -/
theorem staffing_optimal :
    ∃ q₁ r₁ q₂ r₂, (Stage.linearInequalityToPenalty none).apply staffing = .ok (q₁, r₁) ∧
      (Stage.linearEqualityToPenalty none).apply q₁ = .ok (q₂, r₂) ∧ q₂.constraints = [] ∧
      {s | q₁.Optimal s} = {s | staffing.Optimal s} ∧
      {s | q₂.Optimal s} = {s | staffing.Optimal s} := by
  have hok : (do
      let (q₁, r₁) ← (Stage.linearInequalityToPenalty none).apply staffing
      let (q₂, r₂) ← (Stage.linearEqualityToPenalty none).apply q₁
      pure ((q₁, r₁), q₂, r₂)).isOk = true := by decide +kernel
  obtain ⟨_, hok⟩ := isOk_iff.mp hok
  obtain ⟨⟨q₁, r₁⟩, h₁, hok⟩ := bind_eq_ok.mp hok
  obtain ⟨⟨q₂, r₂⟩, h₂, -⟩ := bind_eq_ok.mp hok
  have hbinary : ∀ v ∈ staffing.vars, v.isBinary = true := by decide
  have hfeasible : ∃ s, staffing.Feasible s := ⟨[1, 0, 0], by decide +kernel⟩
  obtain ⟨hvars, -, hoptimal₁, -⟩ :=
    Problem.penaltyStage_optimal staffing_built hbinary hfeasible (Or.inl rfl) h₁
  obtain ⟨f, -, rfl, -⟩ := Problem.foldShapes_ok staffing_built.wellFormed h₁
  have hbuilt : (staffing.withoutShapes f).Built :=
    Problem.built_iff_wellFormed.mpr (staffing_built.wellFormed.withoutShapes f)
  obtain ⟨best, hbest⟩ := Problem.exists_optimal hfeasible
  have hkept : (staffing.withoutShapes f).Optimal best := (Set.ext_iff.mp hoptimal₁ best).mpr hbest
  have hintegral : ∀ d ∈ staffing.genericConstraints, d.relation = .eq →
      (∀ a ∈ d.coefficients, IsInteger a) ∧ IsInteger d.rhs := by decide +kernel
  obtain ⟨-, -, hoptimal₂, -⟩ := Problem.penaltyStage_optimal hbuilt (hvars ▸ hbinary)
    ⟨best, hkept.1⟩ (Or.inr ⟨rfl, hintegral⟩) h₂
  obtain ⟨g, -, -, rfl, -⟩ := Problem.foldEqualities_ok hbuilt.wellFormed h₂
  exact ⟨_, _, _, _, h₁, h₂, rfl, hoptimal₁, hoptimal₂.trans hoptimal₁⟩

end QuboReduction

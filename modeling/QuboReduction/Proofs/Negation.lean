import QuboReduction.Pipeline
import QuboReduction.Proofs.Coefficients
import QuboReduction.Proofs.WellFormed

/-!
# Stages do not see the direction

A stage that does not itself state the objective in a direction does the same to a problem and to
the same problem stated in the other direction: it is refused for the same reason, leaves the same
record, and what it leaves of the one problem is what it leaves of the other, stated in the other
direction. The signs of penalties turn with the direction, estimated penalty factors depend on
magnitudes only, and everything else that is done to an objective is linear in its coefficients.

## Main definitions

* `QuboReduction.Problem.negated` — a problem stated in the other direction.
* `QuboReduction.Stage.orients` — the stages that state the objective in a direction.

## Main results

* `QuboReduction.Problem.setObjective_negate`, `QuboReduction.Problem.addConstraints_negated` —
  steps of building.
* `QuboReduction.Problem.withShapePenalties_negated`,
  `QuboReduction.Problem.withSquaredDeviations_negated`,
  `QuboReduction.Substitution.objective_negate`,
  `QuboReduction.Problem.linearizedObjective_negated` — what stages make of objectives.
* `QuboReduction.Stage.apply_negated` — stages.
-/

namespace QuboReduction

/-! ### Building -/

namespace Problem

section Building

variable {α : Type} [Scalar α] (p : Problem α)

/-- The problem stated in the other direction. -/
def negated (p : Problem α) : Problem α := { p with objective := p.objective.negate }

@[simp] theorem variablesOnly_negated : p.negated.variablesOnly = p.variablesOnly := rfl

@[simp] theorem constraints_negated : p.negated.constraints = p.constraints := rfl

theorem addVariable_negated (name : String) (domain : Domain) :
    p.negated.addVariable name domain = Prod.map negated id <$> p.addVariable name domain := by
  have hindex : p.negated.variableIndex? name = p.variableIndex? name := rfl
  simp only [addVariable, hindex]
  split
  · rfl
  · split <;> rfl

theorem addConstraint_negated (c : Constraint α) :
    p.negated.addConstraint c = negated <$> p.addConstraint c := by
  have hindex : p.negated.checkIndex c.maxIndex? = p.checkIndex c.maxIndex? := by
    cases c.maxIndex? <;> rfl
  have hname : p.negated.nameFor c = p.nameFor c := rfl
  have hlookup : ∀ name, p.negated.constraint? name = p.constraint? name := fun _ => rfl
  simp only [addConstraint, hindex, hname, hlookup, map_bind]
  refine bind_congr fun _ => ?_
  split <;> rfl

theorem addConstraints_negated (cs : List (Constraint α)) :
    p.negated.addConstraints cs = negated <$> p.addConstraints cs :=
  foldlM_hom addConstraint_negated cs p

end Building

variable (p : Problem Rat)

/-- Negating an objective keeps the variables that it mentions. -/
theorem setObjective_negate (o : Objective Rat) :
    p.setObjective o.negate = negated <$> p.setObjective o := by
  have hindex : o.negate.maxIndex? = o.maxIndex? := by
    simp only [Objective.maxIndex?, Objective.negate, Polynomial.maxIndex?, Polynomial.negate,
      Linear.maxIndex?, Quadratic.maxIndex?, Terms.keys_scale (neg_ne_zero.mpr one_ne_zero)]
  simp only [setObjective, hindex, map_bind]
  rfl

end Problem

/-! ### Terms -/

theorem Terms.toList_negate {κ : Type} [Ord κ] (e : Terms κ Rat) :
    (e.scale (-1)).toList = e.toList.map fun t => (t.1, t.2 * -1) :=
  toList_scale (neg_ne_zero.mpr one_ne_zero)

/-- A sum over terms does not see the direction if its summands do not. -/
theorem Terms.total_negate {κ : Type} [Ord κ] (e : Terms κ Rat) {value : κ → Rat → Rat}
    (h : ∀ k c, value k (c * -1) = value k c) : (e.scale (-1)).total value = e.total value := by
  simp only [total, toList_negate, List.map_map, Function.comp_def, h]

/-! ### Penalties -/

theorem Sense.sign_flip (s : Sense) : (s.flip.sign : Rat) = -s.sign := by
  cases s <;> simp [flip, sign]

theorem Objective.negate_addPenalty (o : Objective Rat) (sign : Rat) (penalty : Polynomial Rat) :
    o.negate.addPenalty (-sign) penalty = (o.addPenalty sign penalty).negate := by
  simp only [addPenalty, negate, Polynomial.negate_addMultiple]

namespace Problem

variable (p : Problem Rat)

/-- The estimate of a penalty factor depends on magnitudes only. -/
theorem penaltyFactor_negated (given : Option Rat) :
    p.negated.penaltyFactor given = p.penaltyFactor given := by
  have hbound : p.negated.objectiveBound = p.objectiveBound := by
    simp only [objectiveBound, negated, Objective.negate, Polynomial.negate]
    rw [Terms.total_negate _ fun k c => by simp, Terms.total_negate _ fun k c => by simp]
    rfl
  have hestimate : p.negated.estimatedFactor = p.estimatedFactor := by
    simp only [estimatedFactor, hbound, constraints_negated]
  cases given with
  | none => simp only [penaltyFactor, hestimate]
  | some factor => rfl

/-- Penalties are added with the sign of the direction. -/
theorem withShapePenalties_negated (factor : Rat) :
    p.negated.withShapePenalties factor = (p.withShapePenalties factor).negate := by
  refine List.foldl_hom Objective.negate fun o c => ?_
  -- the sign comes from the problem and not from the objective that is collected
  have hsign : (p.negated.objective.sense.sign : Rat) = -p.objective.sense.sign :=
    p.objective.sense.sign_flip
  have hshape : p.negated.shapeOf c = p.shapeOf c := rfl
  rw [hshape, hsign]
  cases (p.shapeOf c).penalty? factor with
  | some penalty => exact o.negate_addPenalty _ penalty
  | none => rfl

theorem withSquaredDeviations_negated (factor : Rat) :
    p.negated.withSquaredDeviations factor = (p.withSquaredDeviations factor).negate := by
  refine List.foldl_hom Objective.negate fun o c => ?_
  have hsign : (p.negated.objective.sense.sign : Rat) = -p.objective.sense.sign :=
    p.objective.sense.sign_flip
  rw [hsign, Objective.negate_addPenalty]

/-! ### Stages for penalties -/

theorem foldShapes_negated (given : Option Rat) :
    p.negated.foldShapes given = Prod.map negated id <$> p.foldShapes given := by
  have hgeneric : p.negated.genericConstraints = p.genericConstraints := rfl
  simp only [foldShapes, penaltyFactor_negated, withShapePenalties_negated, hgeneric,
    variablesOnly_negated, setObjective_negate, ofBuilding_map, bind_map_left,
    addConstraints_negated, map_bind, map_pure]
  rfl

theorem foldEqualities_negated (given : Option Rat) :
    p.negated.foldEqualities given = Prod.map negated id <$> p.foldEqualities given := by
  have hcheck : p.negated.checkEquality = p.checkEquality := rfl
  simp only [foldEqualities, penaltyFactor_negated, withSquaredDeviations_negated, hcheck,
    constraints_negated, variablesOnly_negated, setObjective_negate, ofBuilding_map, bind_map_left,
    map_bind, map_pure]
  rfl

/-! ### Slack variables -/

theorem addTightened_negated (state : Problem Rat × List Nat) (c : Constraint Rat) :
    p.negated.addTightened (Prod.map negated id state) c =
      Prod.map negated id <$> p.addTightened state c := by
  obtain ⟨q, slacks⟩ := state
  have hslack : p.negated.slackFor c = p.slackFor c := rfl
  simp only [addTightened, Prod.map_apply, id_eq, hslack]
  split
  · simp only [addConstraint_negated, ofBuilding_map, bind_map_left, map_bind, map_pure]
    rfl
  · rw [map_bind]
    refine bind_congr fun slack? => ?_
    cases slack? with
    | none => rfl
    | some slack =>
      dsimp only
      split
      · simp only [addVariable_negated, addConstraint_negated, ofBuilding_map, bind_map_left,
          Prod.map_fst, Prod.map_snd, id_eq, map_bind, map_pure]
        rfl
      · simp only [addConstraint_negated, ofBuilding_map, bind_map_left, map_bind, map_pure]
        rfl

theorem addSlacks_negated : p.negated.addSlacks = Prod.map negated id <$> p.addSlacks := by
  have hrun : ∀ q : Problem Rat,
      p.constraints.foldlM p.negated.addTightened (q.negated, ([] : List Nat)) =
        Prod.map negated id <$> p.constraints.foldlM p.addTightened (q, []) := fun q =>
    foldlM_hom p.addTightened_negated p.constraints (q, [])
  have hobjective : p.negated.objective = p.objective.negate := rfl
  simp only [addSlacks, hobjective, variablesOnly_negated, constraints_negated, setObjective_negate,
    ofBuilding_map, bind_map_left, hrun, map_bind, map_pure]
  rfl

end Problem

/-! ### Bits -/

namespace Substitution

variable (s : Substitution Rat)

theorem expand_negate (linear : Linear Rat) (quadratic : Quadratic Rat) :
    s.expand (linear.scale (-1)) (quadratic.scale (-1)) = (s.expand linear quadratic).negate := by
  have hconstants : s.constants (linear.scale (-1)) (quadratic.scale (-1)) =
      (s.constants linear quadratic).map (· * -1) := by
    simp [constants, Terms.toList_negate, Function.comp_def]
  have hlinear : s.linearTerms (linear.scale (-1)) (quadratic.scale (-1)) =
      (s.linearTerms linear quadratic).map fun t => (t.1, t.2 * -1) := by
    simp [linearTerms, crossTerms, Terms.toList_negate, List.flatMap_map, List.map_flatMap,
      Function.comp_def]
  have hproducts : s.products (quadratic.scale (-1)) =
      (s.products quadratic).map fun t => (t.1, t.2.1, t.2.2 * -1) := by
    simp [products, Terms.toList_negate, List.flatMap_map, List.map_flatMap, Function.comp_def]
  have hsum : ∀ l : List Rat, l.foldl (fun total a => total + a) 0 = l.sum := fun l =>
    List.sum_eq_foldl.symm
  rw [expand, expand, Polynomial.negate, Polynomial.mk.injEq, hconstants, hlinear, hproducts,
    Terms.scale_ofList, Quadratic.scale_ofProducts, hsum, hsum]
  refine ⟨?_, rfl, rfl⟩
  rw [List.sum_map_mul_right, List.map_id', mul_neg_one]

/-- Substitution is linear in the coefficients of the objective. -/
theorem objective_negate (o : Objective Rat) : s.objective o.negate = (s.objective o).negate := by
  simp only [objective, Objective.negate, Polynomial.negate, expand_negate]
  rw [neg_add]

end Substitution

namespace Problem

variable (p : Problem Rat)

theorem binarize_negated : p.negated.binarize = Prod.map negated id <$> p.binarize := by
  have hobjective : p.negated.objective = p.objective.negate := rfl
  simp only [binarize, hobjective, Substitution.objective_negate, setObjective_negate,
    ofBuilding_map, bind_map_left, addConstraints_negated, map_bind, map_pure]
  rfl

/-! ### Products -/

section Products

variable (table : ProductTable)

private theorem linearized?_negate (t : Pair × Rat) :
    p.linearized? table (t.1, t.2 * -1) =
      (p.linearized? table t).map fun u => (u.1, u.2 * -1) := by
  simp only [linearized?]
  split
  · rfl
  · split <;> rfl

theorem linearPart_negate (linear : Linear Rat) (quadratic : Quadratic Rat) :
    p.linearPart table (linear.scale (-1)) (quadratic.scale (-1)) =
      (p.linearPart table linear quadratic).scale (-1) := by
  have hterms : (quadratic.scale (-1)).toList.filterMap (p.linearized? table) =
      (quadratic.toList.filterMap (p.linearized? table)).map fun u => (u.1, u.2 * -1) := by
    rw [Terms.toList_negate, List.filterMap_map, List.map_filterMap]
    exact List.filterMap_congr fun t _ => p.linearized?_negate table t
  rw [linearPart, hterms, Terms.scale_addTerms]
  rfl

theorem quadraticPart_negate (quadratic : Quadratic Rat) :
    p.quadraticPart table (quadratic.scale (-1)) =
      (p.quadraticPart table quadratic).scale (-1) := by
  have hstays : (fun t => (p.linearized? table t).isNone) ∘ (fun t : Pair × Rat =>
      (t.1, t.2 * -1)) = fun t => (p.linearized? table t).isNone := by
    funext t
    rw [Function.comp_apply, linearized?_negate, Option.isNone_map]
  rw [quadraticPart, quadraticPart, Terms.toList_negate, List.filter_map, hstays,
    Terms.scale_ofList]

/-- Replacing products is linear in the coefficients of the objective. -/
theorem linearizedObjective_negated :
    p.negated.linearizedObjective table = (p.linearizedObjective table).negate := by
  have hlinear : p.negated.linearPart table = p.linearPart table := rfl
  have hquadratic : p.negated.quadraticPart table = p.quadraticPart table := rfl
  simp only [linearizedObjective, hlinear, hquadratic]
  simp only [negated, Objective.negate, Polynomial.negate, linearPart_negate, quadraticPart_negate]

end Products

theorem linearize_negated : p.negated.linearize = Prod.map negated id <$> p.linearize := by
  have hpairs : p.negated.allPairs = p.allPairs := by
    simp only [allPairs, negated, Objective.negate, Polynomial.negate,
      Terms.keys_scale (neg_ne_zero.mpr one_ne_zero)]
  have hproduct : p.negated.addProduct = p.addProduct := rfl
  have hconstraint : ∀ table, p.negated.linearizedConstraint table = p.linearizedConstraint table :=
    fun _ => rfl
  simp only [linearize, hpairs, hproduct, hconstraint, linearizedObjective_negated,
    constraints_negated, variablesOnly_negated, setObjective_negate, ofBuilding_map, bind_map_left,
    addConstraints_negated, map_bind, map_pure]
  rfl

end Problem

/-! ### Stages -/

/-- Whether a stage states the objective in a direction. -/
def Stage.orients {α : Type} : Stage α → Bool
  | maximizeToMinimize => true
  | minimizeToMaximize => true
  | _ => false

/-- **Stages do not see the direction**, unless they are about it. -/
theorem Stage.apply_negated {s : Stage Rat} (hs : s.orients = false) (p : Problem Rat) :
    s.apply p.negated = Prod.map Problem.negated id <$> s.apply p := by
  cases s with
  | linearInequalityToPenalty given => exact p.foldShapes_negated given
  | inequalityToEquality => exact p.addSlacks_negated
  | integerToBinary => exact p.binarize_negated
  | linearEqualityToPenalty given => exact p.foldEqualities_negated given
  | maximizeToMinimize => simp [orients] at hs
  | minimizeToMaximize => simp [orients] at hs
  | quadraticToLinear => exact p.linearize_negated

end QuboReduction

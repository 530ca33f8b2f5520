import QuboReduction.Proofs.Coefficients
import QuboReduction.Proofs.PenaltyValues

/-!
# The order of constraints

Penalties are added to the objective one constraint after the other, and on the way terms can cancel
and come back. Collected terms are determined by their values, so two multiples of polynomials can
be added in either order, and the penalties of a list of constraints in any order. The estimated
factor asks only whether some constraint has fractional data. Both penalty stages thus give the same
objective for all orders of the constraints.

## Main definitions

* `QuboReduction.Problem.withConstraints` — the problem with other constraints.

## Main results

* `QuboReduction.Terms.add_right_comm`, `QuboReduction.Polynomial.addMultiple_right_comm` — sums and
  multiples are added in either order.
* `QuboReduction.Problem.Built.withConstraints` — constraints can be added in any order.
* `QuboReduction.Problem.fold_of_perm` — the penalty stages.
-/

namespace QuboReduction

/-! ### Sums of penalties -/

theorem Terms.add_right_comm {κ : Type} [Ord κ] [Std.TransOrd κ] [Std.LawfulEqOrd κ]
    (e f g : Terms κ Rat) : (e.add f).add g = (e.add g).add f :=
  ext_of_value fun m => by
    simp only [value_add]
    ring

/-- Two multiples of polynomials are added in either order, also where terms cancel in between. -/
theorem Polynomial.addMultiple_right_comm (f g h : Polynomial Rat) (a b : Rat) :
    (f.addMultiple a g).addMultiple b h = (f.addMultiple b h).addMultiple a g := by
  simp only [addMultiple, mk.injEq]
  exact ⟨by ring, Terms.add_right_comm _ _ _, Terms.add_right_comm _ _ _⟩

theorem Objective.addPenalty_right_comm (o : Objective Rat) (sign : Rat) (f g : Polynomial Rat) :
    (o.addPenalty sign f).addPenalty sign g = (o.addPenalty sign g).addPenalty sign f := by
  simp only [addPenalty, Polynomial.addMultiple_right_comm _ f g]

namespace Problem

variable {p : Problem Rat} {cs : List (Constraint Rat)} {given : Option Rat} {factor : Rat}

/-! ### Problems that differ in the order of their constraints -/

/-- The problem with other constraints. -/
def withConstraints (p : Problem Rat) (cs : List (Constraint Rat)) : Problem Rat :=
  { p with constraints := cs }

theorem WellFormed.withConstraints (hp : p.WellFormed) (hperm : cs.Perm p.constraints) :
    (p.withConstraints cs).WellFormed where
  index_eq := hp.index_eq
  variableNames_nodup := hp.variableNames_nodup
  lower_le_upper := hp.lower_le_upper
  objective_below := hp.objective_below
  constraint_below c hc := hp.constraint_below c (hperm.mem_iff.mp hc)
  constraint_named c hc := hp.constraint_named c (hperm.mem_iff.mp hc)
  constraintNames_nodup := (hperm.map Constraint.name).nodup_iff.mpr hp.constraintNames_nodup

/-- Constraints can be added in any order. -/
theorem Built.withConstraints (hp : p.Built) (hperm : cs.Perm p.constraints) :
    (p.withConstraints cs).Built :=
  built_iff_wellFormed.mpr (hp.wellFormed.withConstraints hperm)

/-- The estimate reads the objective, and whether some constraint has fractional data. -/
theorem estimatedFactor_withConstraints (hperm : cs.Perm p.constraints) :
    (p.withConstraints cs).estimatedFactor = p.estimatedFactor := by
  have hbound : (p.withConstraints cs).objectiveBound = p.objectiveBound := rfl
  rw [estimatedFactor, estimatedFactor, hbound, withConstraints, hperm.any_eq]

theorem penaltyFactor_withConstraints (hperm : cs.Perm p.constraints) :
    (p.withConstraints cs).penaltyFactor given = p.penaltyFactor given := by
  cases given with
  | none => rw [penaltyFactor, penaltyFactor, estimatedFactor_withConstraints hperm]
  | some f => rfl

/-- Constraints without a shape are passed over, and the penalties of two others commute. -/
theorem withShapePenalties_withConstraints (hperm : cs.Perm p.constraints) :
    (p.withConstraints cs).withShapePenalties factor = p.withShapePenalties factor := by
  refine hperm.foldl_eq' (fun c _ d _ o => ?_) p.objective
  have hshape : (p.withConstraints cs).shapeOf = p.shapeOf := rfl
  rw [hshape]
  cases (p.shapeOf c).penalty? factor with
  | none => rfl
  | some f =>
    cases (p.shapeOf d).penalty? factor with
    | none => rfl
    | some g => exact o.addPenalty_right_comm _ f g

theorem withSquaredDeviations_withConstraints (hperm : cs.Perm p.constraints) :
    (p.withConstraints cs).withSquaredDeviations factor = p.withSquaredDeviations factor :=
  hperm.foldl_eq' (fun _ _ _ _ o => o.addPenalty_right_comm _ _ _) p.objective

/-! ### The stages -/

/-- Success of the stage for equalities on one order of the constraints is success, with the same
result, on all of them. -/
private theorem foldEqualities_withConstraints (hp : p.WellFormed) (hperm : cs.Perm p.constraints)
    {result : Problem Rat × Record Rat} (h : p.foldEqualities given = .ok result) :
    (p.withConstraints cs).foldEqualities given = .ok result := by
  obtain ⟨f, hfactor, hcheck, hq, hr⟩ := foldEqualities_ok hp h
  have hcheck' : ∀ c ∈ (p.withConstraints cs).constraints,
      (p.withConstraints cs).checkEquality c = .ok () := fun c hc =>
    hcheck c (hperm.mem_iff.mp hc)
  rw [foldEqualities_eq (hp.withConstraints hperm)
    ((penaltyFactor_withConstraints hperm).trans hfactor) hcheck', withoutEqualities,
    withSquaredDeviations_withConstraints hperm]
  exact congrArg Except.ok (Prod.ext hq.symm hr.symm)

/-- **The order of constraints does not matter** to the penalty stages. With a valid factor, or the
estimated one, the stage for shapes gives the same objective and record for all orders of the
constraints, and keeps the constraints without a shape in the order they had. The stage for
equalities succeeds for all orders of the constraints or for none, and its results are equal. -/
theorem fold_of_perm (hp : p.Built) (hperm : cs.Perm p.constraints) (given : Option Rat) :
    ((∀ f, given = some f → 0 < f) →
      ∃ q q' r, p.foldShapes given = .ok (q, r) ∧
        (p.withConstraints cs).foldShapes given = .ok (q', r) ∧
        q'.objective = q.objective ∧ q'.vars = q.vars ∧
        q.constraints = (p.constraints.filter fun c => p.shapeOf c = .generic) ∧
        q'.constraints = cs.filter fun c => p.shapeOf c = .generic) ∧
      ∀ result, p.foldEqualities given = .ok result ↔
        (p.withConstraints cs).foldEqualities given = .ok result := by
  have hq := hp.wellFormed.withConstraints hperm
  refine ⟨fun hgiven => ?_, fun result => ⟨?_, fun h => ?_⟩⟩
  · have hfactor := penaltyFactor_eq (p := p) hgiven
    exact ⟨_, _, _, foldShapes_eq hp.wellFormed hfactor,
      foldShapes_eq hq ((penaltyFactor_withConstraints hperm).trans hfactor),
      withShapePenalties_withConstraints hperm, rfl, rfl, rfl⟩
  · exact foldEqualities_withConstraints hp.wellFormed hperm
  · exact foldEqualities_withConstraints hq hperm.symm h

end Problem

/-- In the reverse order the seating problem keeps its two constraints without a shape in the
reverse order, with the same objective, and the sharing problem has the same result. -/
theorem seating_sharing_reversed :
    (∃ q q' r, seating.foldShapes (some 2) = .ok (q, r) ∧
      (seating.withConstraints seating.constraints.reverse).foldShapes (some 2) = .ok (q', r) ∧
      q'.objective = q.objective ∧ q.constraints.map Constraint.name = ["room", "same"] ∧
      q'.constraints.map Constraint.name = ["same", "room"]) ∧
    ∃ result, sharing.foldEqualities none = .ok result ∧
      (sharing.withConstraints sharing.constraints.reverse).foldEqualities none = .ok result := by
  constructor
  · obtain ⟨hshapes, -⟩ :=
      Problem.fold_of_perm seating_built (List.reverse_perm seating.constraints) (some 2)
    obtain ⟨q, q', r, hq, hq', hobjective, -, hkept, hkept'⟩ := hshapes (by
      rintro f ⟨⟩
      norm_num)
    refine ⟨q, q', r, hq, hq', hobjective, ?_, ?_⟩
    · rw [hkept]
      decide +kernel
    · rw [hkept']
      decide +kernel
  · obtain ⟨-, hequalities⟩ :=
      Problem.fold_of_perm sharing_built (List.reverse_perm sharing.constraints) none
    have hresult : sharing.foldEqualities none = .ok _ :=
      Problem.foldEqualities_of_isBinaryEquality sharing_built.wellFormed (by simp)
        (by decide +kernel)
    exact ⟨_, hresult, (hequalities _).mp hresult⟩

end QuboReduction

import QuboReduction.Proofs.Penalty
import QuboReduction.Proofs.Record

/-!
# Constraints become penalties

Once the penalty factor is accepted, the stage for shapes never fails on a well-formed problem, and
the stage for equalities fails only on constraints that it cannot square. Both keep the variables
and the direction, and add a multiple of a number to the cost that says whether the constraints that
went away are satisfied.

## Main results

* `QuboReduction.Problem.foldShapes_eq` — the stage for shapes.
* `QuboReduction.Problem.foldEqualities_eq` — the stage for equalities.
* `QuboReduction.Problem.checkEquality_error`, `QuboReduction.Problem.foldEqualities_error` — what
  cannot be squared.
-/

namespace QuboReduction

namespace Problem

variable {p q : Problem Rat} {given : Option Rat} {factor : Rat}

/-! ### Factors -/

theorem validateFactor_eq_ok_iff {f g : Rat} : validateFactor f = .ok g ↔ 0 < f ∧ g = f := by
  rw [validateFactor]
  by_cases h : 0 < f <;> simp [h, eq_comm]

/-- A factor that is accepted is the given one, or the estimated one if none is given. -/
theorem penaltyFactor_eq_ok_iff :
    p.penaltyFactor given = .ok factor ↔
      (given = none ∧ factor = p.estimatedFactor) ∨ (given = some factor ∧ 0 < factor) := by
  cases given with
  | none => simp [penaltyFactor, eq_comm]
  | some f =>
    rw [penaltyFactor, validateFactor_eq_ok_iff]
    simp only [reduceCtorEq, false_and, false_or, Option.some.injEq]
    constructor
    · rintro ⟨hf, rfl⟩
      exact ⟨rfl, hf⟩
    · rintro ⟨rfl, hf⟩
      exact ⟨hf, rfl⟩

/-- A valid factor is accepted, and without one the estimated factor is taken. -/
theorem penaltyFactor_eq (hvalid : ∀ f, given = some f → 0 < f) :
    p.penaltyFactor given = .ok (given.getD p.estimatedFactor) := by
  rw [penaltyFactor_eq_ok_iff]
  cases given with
  | none => exact Or.inl ⟨rfl, rfl⟩
  | some f => exact Or.inr ⟨rfl, hvalid f rfl⟩

/-! ### Shapes -/

/-- The problem without the constraints that have a shape, and with their penalties. -/
def withoutShapes (p : Problem Rat) (factor : Rat) : Problem Rat :=
  { p with objective := p.withShapePenalties factor, constraints := p.genericConstraints }

theorem WellFormed.withoutShapes (hp : p.WellFormed) (factor : Rat) :
    (p.withoutShapes factor).WellFormed where
  index_eq := hp.index_eq
  variableNames_nodup := hp.variableNames_nodup
  lower_le_upper := hp.lower_le_upper
  objective_below := hp.withShapePenalties_below factor
  constraint_below c hc := hp.constraint_below c (List.mem_filter.mp hc).1
  constraint_named c hc := hp.constraint_named c (List.mem_filter.mp hc).1
  constraintNames_nodup :=
    hp.constraintNames_nodup.sublist (List.filter_sublist.map Constraint.name)

/-- **The stage for shapes** never fails once the factor is accepted. -/
theorem foldShapes_eq (hp : p.WellFormed) (hfactor : p.penaltyFactor given = .ok factor) :
    p.foldShapes given =
      .ok (p.withoutShapes factor, Record.identity .linearInequalityToPenalty p.size) := by
  have hq := hp.withoutShapes factor
  have hobjective : p.variablesOnly.setObjective (p.withShapePenalties factor) =
      .ok { p.variablesOnly with objective := p.withShapePenalties factor } :=
    setObjective_eq_ok_iff.mpr ⟨hq.objective_below, rfl⟩
  have hconstraints : ({ p.variablesOnly with
      objective := p.withShapePenalties factor } : Problem Rat).addConstraints
        p.genericConstraints = .ok (p.withoutShapes factor) :=
    (addConstraints_eq_ok_iff hq.constraint_named (by simp [variablesOnly])).mpr
      ⟨hq.constraint_below, by simpa [variablesOnly] using hq.constraintNames_nodup,
        by simp [variablesOnly, withoutShapes]⟩
  simp only [foldShapes, hfactor, ok_bind, hobjective, ofBuilding, hconstraints]
  rfl

/-- If the stage succeeds, its factor was accepted. -/
theorem foldShapes_ok (hp : p.WellFormed) {r : Record Rat}
    (h : p.foldShapes given = .ok (q, r)) :
    ∃ f, p.penaltyFactor given = .ok f ∧ q = p.withoutShapes f ∧
      r = Record.identity .linearInequalityToPenalty p.size := by
  obtain ⟨f, hf, -⟩ := bind_eq_ok.mp h
  rw [foldShapes_eq hp hf, Except.ok.injEq, Prod.mk.injEq] at h
  exact ⟨f, hf, h.1.symm, h.2.symm⟩

/-! ### Equalities -/

theorem checkEquality_ok {c : Constraint Rat} (h : p.checkEquality c = .ok ()) :
    c.relation = .eq ∧ c.isLinear = true := by
  rw [checkEquality] at h
  split_ifs at h with hrelation hlinear
  exact ⟨by simpa using hrelation, by simpa using hlinear⟩

/-- Over binary variables an equality is refused only when it has terms of degree two. -/
theorem checkEquality_error {c : Constraint Rat} {e : ConversionError Rat}
    (hbinary : ∀ v ∈ p.vars, v.isBinary = true) (hrelation : c.relation = .eq)
    (h : p.checkEquality c = .error e) :
    c.isLinear = false ∧ e = .unsupported c.name .quadratic := by
  rw [checkEquality] at h
  rw [if_neg (by simpa using hrelation)] at h
  split at h
  · rename_i hlinear
    exact ⟨hlinear, (Except.error.inj h).symm⟩
  · split at h
    · rename_i v hv
      have hmem := List.mem_of_find?_eq_some hv
      obtain ⟨i, -, hi⟩ := List.mem_filterMap.mp hmem
      have := List.find?_some hv
      simp [hbinary v (List.mem_of_getElem? hi)] at this
    · contradiction

/-- The problem without constraints, and with their squared deviations. -/
def withoutEqualities (p : Problem Rat) (factor : Rat) : Problem Rat :=
  { p with objective := p.withSquaredDeviations factor, constraints := [] }

theorem WellFormed.withoutEqualities (hp : p.WellFormed)
    (hlinear : ∀ c ∈ p.constraints, c.isLinear = true) (factor : Rat) :
    (p.withoutEqualities factor).WellFormed where
  index_eq := hp.index_eq
  variableNames_nodup := hp.variableNames_nodup
  lower_le_upper := hp.lower_le_upper
  objective_below := hp.withSquaredDeviations_below hlinear factor
  constraint_below := by simp [Problem.withoutEqualities]
  constraint_named := by simp [Problem.withoutEqualities]
  constraintNames_nodup := by simp [Problem.withoutEqualities]

/-- **The stage for equalities** succeeds once the factor and all constraints are accepted. -/
theorem foldEqualities_eq (hp : p.WellFormed) (hfactor : p.penaltyFactor given = .ok factor)
    (hcheck : ∀ c ∈ p.constraints, p.checkEquality c = .ok ()) :
    p.foldEqualities given =
      .ok (p.withoutEqualities factor, Record.identity .linearEqualityToPenalty p.size) := by
  have hlinear : ∀ c ∈ p.constraints, c.isLinear = true := fun c hc =>
    (checkEquality_ok (hcheck c hc)).2
  have hobjective : p.variablesOnly.setObjective (p.withSquaredDeviations factor) =
      .ok { p.variablesOnly with objective := p.withSquaredDeviations factor } :=
    setObjective_eq_ok_iff.mpr ⟨hp.withSquaredDeviations_below hlinear factor, rfl⟩
  simp only [foldEqualities, hfactor, forM_eq_ok_iff.mpr hcheck, ok_bind, hobjective, ofBuilding]
  rfl

/-- If the stage succeeds, its factor and all constraints were accepted. -/
theorem foldEqualities_ok (hp : p.WellFormed) {r : Record Rat}
    (h : p.foldEqualities given = .ok (q, r)) :
    ∃ g, p.penaltyFactor given = .ok g ∧ (∀ d ∈ p.constraints, p.checkEquality d = .ok ()) ∧
      q = p.withoutEqualities g ∧ r = Record.identity .linearEqualityToPenalty p.size := by
  obtain ⟨g, hg, hrest⟩ := bind_eq_ok.mp h
  obtain ⟨_, hcheck, -⟩ := bind_eq_ok.mp hrest
  have hcheck := forM_eq_ok_iff.mp hcheck
  rw [foldEqualities_eq hp hg hcheck, Except.ok.injEq, Prod.mk.injEq] at h
  exact ⟨g, hg, hcheck, h.1.symm, h.2.symm⟩

/-- Once the factor is accepted, the stage is refused only when a constraint is. -/
theorem foldEqualities_error (hp : p.WellFormed) (hfactor : p.penaltyFactor given = .ok factor)
    {e : ConversionError Rat} (h : p.foldEqualities given = .error e) :
    ∃ c ∈ p.constraints, p.checkEquality c = .error e := by
  cases hcheck : p.constraints.forM p.checkEquality with
  | ok _ =>
    rw [foldEqualities_eq hp hfactor (forM_eq_ok_iff.mp hcheck)] at h
    contradiction
  | error e' =>
    simp only [foldEqualities, hfactor, hcheck, ok_bind, error_bind, Except.error.injEq] at h
    exact forM_eq_error (h ▸ hcheck)

end Problem

end QuboReduction

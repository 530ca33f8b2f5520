import QuboReduction.Proofs.PenaltyStages

/-!
# Values of penalized objectives

A penalty stage leaves the value of the objective what it was, but for the cost of what it has
removed. The cost of inequalities with a shape is a number of violations: a natural number, zero
where none of them is broken and at least one for each that is. The cost of equalities is the sum of
their squared deviations, at any vector of the right length, whatever its entries are. Constraints
that the stage for equalities cannot square are refused, and the first of them is told.

## Main definitions

* `QuboReduction.Problem.IsBinaryEquality` — the equalities that can be squared.
* `QuboReduction.Problem.Unsquarable` — what keeps a constraint from being squared.

## Main results

* `QuboReduction.Problem.checkEquality_eq_ok_iff`, `QuboReduction.Problem.checkEquality_eq_error` —
  the check of one constraint.
* `QuboReduction.Problem.foldShapes_values` — the stage for shapes.
* `QuboReduction.Problem.foldEqualities_values` — the stage for equalities.
-/

namespace QuboReduction

namespace Problem

variable {p : Problem Rat} {c : Constraint Rat} {given : Option Rat}

/-! ### The check of an equality -/

/-- A linear equality over binary variables. -/
def IsBinaryEquality (p : Problem Rat) (c : Constraint Rat) : Prop :=
  c.relation = .eq ∧ c.isLinear = true ∧ ∀ i ∈ c.linear.keys, p.isBinaryAt i = true

instance (p : Problem Rat) (c : Constraint Rat) : Decidable (p.IsBinaryEquality c) :=
  inferInstanceAs (Decidable (_ ∧ _ ∧ _))

/-- What keeps a constraint from being squared; the reasons exclude one another. -/
def Unsquarable (p : Problem Rat) (c : Constraint Rat) : Unsupported → Prop
  | .inequality => c.relation ≠ .eq
  | .quadratic => c.relation = .eq ∧ c.isLinear = false
  | .notBinary name => c.relation = .eq ∧ c.isLinear = true ∧
      ∃ i ∈ c.linear.keys, ∃ v, p.variableAt? i = some v ∧ v.isBinary = false ∧ v.name = name
  | _ => False

/-- No variable of a constraint is found not to be binary when all its variables are binary. -/
private theorem find?_notBinary_eq_none_iff (hc : c.Below p.size) :
    (c.linear.keys.filterMap p.variableAt?).find? (fun v => !v.isBinary) = none ↔
      ∀ i ∈ c.linear.keys, p.isBinaryAt i = true := by
  rw [List.find?_eq_none]
  constructor
  · intro h i hi
    obtain ⟨v, -, hv⟩ := exists_variableAt? (Terms.within_iff_keys.mp hc.1 i hi)
    have hbinary := h v (List.mem_filterMap.mpr ⟨i, hi, hv⟩)
    rw [isBinaryAt, hv]
    simpa using hbinary
  · intro h v hv
    obtain ⟨i, hi, hiv⟩ := List.mem_filterMap.mp hv
    have hbinary := h i hi
    rw [isBinaryAt, hiv] at hbinary
    simpa using hbinary

/-- **Acceptance.** The check lets exactly the linear equalities over binary variables pass. -/
theorem checkEquality_eq_ok_iff (hc : c.Below p.size) :
    p.checkEquality c = .ok () ↔ p.IsBinaryEquality c := by
  rw [IsBinaryEquality, ← find?_notBinary_eq_none_iff hc, checkEquality]
  by_cases hrelation : c.relation = .eq
  · cases hlinear : c.isLinear with
    | false => simp [hrelation]
    | true =>
      rw [if_neg (by simpa using hrelation), if_neg (by simp)]
      split <;> simp_all
  · simp [hrelation]

/-- **Refusal.** Any other constraint is refused by its name, and the reason told is the right
one. -/
theorem checkEquality_eq_error (hc : c.Below p.size) (h : ¬p.IsBinaryEquality c) :
    ∃ reason, p.checkEquality c = .error (.unsupported c.name reason) ∧
      p.Unsquarable c reason := by
  rw [← checkEquality_eq_ok_iff hc, checkEquality] at h
  rw [checkEquality]
  split at h
  · rename_i hrelation
    exact ⟨.inequality, if_pos hrelation, hrelation⟩
  · rename_i hrelation
    rw [if_neg hrelation]
    have hrelation : c.relation = .eq := by simpa using hrelation
    split at h
    · rename_i hlinear
      exact ⟨.quadratic, if_pos hlinear, hrelation, hlinear⟩
    · rename_i hlinear
      rw [if_neg hlinear]
      split at h
      · rename_i v hv
        obtain ⟨i, hi, hiv⟩ := List.mem_filterMap.mp (List.mem_of_find?_eq_some hv)
        have hbinary : v.isBinary = false := by simpa using List.find?_some hv
        have hlinear : c.isLinear = true := by simpa using hlinear
        exact ⟨.notBinary v.name, rfl, hrelation, hlinear, i, hi, v, hiv, hbinary, rfl⟩
      · exact absurd rfl h

/-! ### The stage for shapes -/

/-- **Inequalities with a shape.** With a valid factor, or the estimated one, the stage for shapes
succeeds. The variables stay, and the constraints without a shape stay as they are and in their
order. Wherever the binary variables are zero or one, the objective changes, in the direction of a
cost, by the factor times a natural number that does not depend on the factor, that is at least the
number of removed constraints that are broken, and that is zero where none is. -/
theorem foldShapes_values (hp : p.Built) (hgiven : ∀ f, given = some f → 0 < f) :
    ∃ q, p.foldShapes given = .ok (q, Record.identity .linearInequalityToPenalty p.size) ∧
      q.vars = p.vars ∧
      q.constraints = (p.constraints.filter fun c => p.shapeOf c = .generic) ∧
      q.objective.sense = p.objective.sense ∧
      ∀ s, s.length = p.size → p.BitsAt (valueAt s) →
        ∃ (value : Rat) (n : Nat), p.evaluateObjective s = .ok value ∧
          q.evaluateObjective s = .ok
            (value + p.objective.sense.sign * (given.getD p.estimatedFactor * n)) ∧
          p.shapeCost (valueAt s) = n ∧ (p.brokenShapes (valueAt s)).length ≤ n ∧
          (n = 0 ↔ ∀ c ∈ p.constraints, p.shapeOf c ≠ .generic → c.Holds (valueAt s)) := by
  refine ⟨_, foldShapes_eq hp.wellFormed (penaltyFactor_eq hgiven), rfl, rfl,
    sense_withShapePenalties p _, fun s hlength hbits => ?_⟩
  obtain ⟨n, hcost, hle, hzero⟩ := exists_shapeCost_eq hbits
  refine ⟨p.value s, n, evaluateObjective_of_length hlength, ?_, hcost, hle,
    hzero.trans brokenShapes_eq_nil_iff⟩
  rw [evaluateObjective_of_length (p := p.withoutShapes _) hlength, value, withoutShapes,
    evaluate_withShapePenalties, hcost, value]

/-! ### The stage for equalities -/

/-- The stage stops at the first constraint that is not a linear equality over binary variables. -/
theorem foldEqualities_eq_error (hp : p.WellFormed) (hgiven : ∀ f, given = some f → 0 < f)
    {before after : List (Constraint Rat)} (hsplit : p.constraints = before ++ c :: after)
    (hbefore : ∀ b ∈ before, p.IsBinaryEquality b) (hc : ¬p.IsBinaryEquality c) :
    ∃ reason, p.foldEqualities given = .error (.unsupported c.name reason) ∧
      p.Unsquarable c reason := by
  have hbelow : ∀ b ∈ before ++ c :: after, b.Below p.size := hsplit ▸ hp.constraint_below
  obtain ⟨reason, hcheck, hreason⟩ := checkEquality_eq_error (hbelow c (by simp)) hc
  have hpassed : ∀ b ∈ before, p.checkEquality b = .ok () := fun b hb =>
    (checkEquality_eq_ok_iff (hbelow b (List.mem_append_left _ hb))).mpr (hbefore b hb)
  refine ⟨reason, ?_, hreason⟩
  simp only [foldEqualities, penaltyFactor_eq hgiven, ok_bind, hsplit,
    forM_append_cons_error hpassed hcheck, error_bind]

/-- The stage succeeds on linear equalities over binary variables. -/
theorem foldEqualities_of_isBinaryEquality (hp : p.WellFormed)
    (hgiven : ∀ f, given = some f → 0 < f) (h : ∀ c ∈ p.constraints, p.IsBinaryEquality c) :
    p.foldEqualities given = .ok (p.withoutEqualities (given.getD p.estimatedFactor),
      Record.identity .linearEqualityToPenalty p.size) :=
  foldEqualities_eq hp (penaltyFactor_eq hgiven) fun c hc =>
    (checkEquality_eq_ok_iff (hp.constraint_below c hc)).mpr (h c hc)

/-- **Equalities.** With a valid factor, or the estimated one, the stage for equalities succeeds
exactly when all constraints are linear equalities over binary variables, and otherwise it tells the
first one that is not, with the reason. Where it succeeds, the variables stay and no constraint
does, and at every vector of the right length, integer or not, the objective changes, in the
direction of a cost, by the factor times the sum of the squared deviations. -/
theorem foldEqualities_values (hp : p.Built) (hgiven : ∀ f, given = some f → 0 < f) :
    ((∃ result, p.foldEqualities given = .ok result) ↔
        ∀ c ∈ p.constraints, p.IsBinaryEquality c) ∧
      (∀ before c after, p.constraints = before ++ c :: after →
        (∀ b ∈ before, p.IsBinaryEquality b) → ¬p.IsBinaryEquality c →
        ∃ reason, p.foldEqualities given = .error (.unsupported c.name reason) ∧
          p.Unsquarable c reason) ∧
      ∀ q r, p.foldEqualities given = .ok (q, r) →
        q.vars = p.vars ∧ q.constraints = [] ∧ q.objective.sense = p.objective.sense ∧
        ∀ s, s.length = p.size → ∃ value, p.evaluateObjective s = .ok value ∧
          q.evaluateObjective s = .ok (value + p.objective.sense.sign *
            (given.getD p.estimatedFactor *
              (p.constraints.map fun c => (c.evaluate (valueAt s) - c.rhs) ^ 2).sum)) := by
  have hequalities : ∀ {result}, p.foldEqualities given = .ok result →
      ∀ c ∈ p.constraints, p.IsBinaryEquality c := by
    intro result h c hc
    obtain ⟨-, -, hcheck, -⟩ := foldEqualities_ok hp.wellFormed h
    exact (checkEquality_eq_ok_iff (hp.wellFormed.constraint_below c hc)).mp (hcheck c hc)
  refine ⟨⟨fun ⟨_, h⟩ => hequalities h, fun h => ?_⟩, fun before c after hsplit hbefore hc => ?_,
    fun q r h => ?_⟩
  · exact ⟨_, foldEqualities_of_isBinaryEquality hp.wellFormed hgiven h⟩
  · exact foldEqualities_eq_error hp.wellFormed hgiven hsplit hbefore hc
  · have hall := hequalities h
    have hlinear : ∀ c ∈ p.constraints, c.isLinear = true := fun c hc => (hall c hc).2.1
    rw [foldEqualities_of_isBinaryEquality hp.wellFormed hgiven hall, Except.ok.injEq,
      Prod.mk.injEq] at h
    obtain ⟨rfl, -⟩ := h
    refine ⟨rfl, rfl, sense_withSquaredDeviations hp.wellFormed hlinear _, fun s hlength => ?_⟩
    refine ⟨p.value s, evaluateObjective_of_length hlength, ?_⟩
    rw [evaluateObjective_of_length (p := p.withoutEqualities _) hlength, value, withoutEqualities,
      evaluate_withSquaredDeviations hp.wellFormed hlinear, value, deviation]

end Problem

/-- Maximize `2x - 2xy + xz + 3n` for binary `x`, `y` and `z` and an integer `n`. Three inequalities
have a shape, one of them the negation of at most one, and there are two other constraints. With the
factor two the penalty of the first one cancels terms of the objective. -/
def seating : Problem Rat where
  name := "seating"
  vars := [⟨"x", .binary, 0⟩, ⟨"y", .binary, 1⟩, ⟨"z", .binary, 2⟩, ⟨"n", .integer (-2) 3, 3⟩]
  objective := ⟨.maximize, ⟨0, Terms.ofList [(0, 2), (3, 3)],
    Quadratic.ofProducts [(0, 1, -2), (0, 2, 1)]⟩⟩
  constraints := [.ofLinear "implied" (Terms.ofList [(0, 1), (1, -1)]) .le 0,
    .ofLinear "room" (Terms.ofList [(0, 1), (3, 2)]) .le 3,
    .ofLinear "single" (Terms.ofList [(0, -1), (1, -1), (2, -1)]) .ge (-1),
    .ofLinear "enough" (Terms.ofList [(0, 1), (1, 1), (2, 1)]) .ge 2,
    .ofLinear "same" (Terms.ofList [(0, 1), (2, -1)]) .eq 0]

theorem seating_built : seating.Built := Problem.built_iff_assemble_eq.mpr rfl

/-- Two constraints of the seating problem have no shape. At one vector two inequalities with a
shape are broken at the cost two, at another one a single inequality at the cost three. -/
theorem seating_values :
    ∃ q, seating.foldShapes (some 2) = .ok (q, Record.identity .linearInequalityToPenalty 4) ∧
      q.constraints.map Constraint.name = ["room", "same"] ∧
      q.evaluateObjective [1, 0, 1, 1 / 2] = .ok (9 / 2 - 2 * 2) ∧
      q.evaluateObjective [0, 0, 0, -1 / 2] = .ok (-3 / 2 - 2 * 3) := by
  have hgiven : ∀ f : Rat, some 2 = some f → 0 < f := by
    rintro f ⟨⟩
    norm_num
  obtain ⟨q, hq, -, hconstraints, -, hvalues⟩ := Problem.foldShapes_values seating_built hgiven
  -- The value and the cost of shapes before the stage determine the value after it.
  have hvalue : ∀ (s : List Rat) (value : Rat) (n : Nat), s.length = seating.size →
      seating.BitsAt (valueAt s) → seating.value s = value → seating.shapeCost (valueAt s) = n →
      q.evaluateObjective s = .ok (value - 2 * n) := by
    intro s value n hlength hbits hvalue hcost
    obtain ⟨v, m, hv, hresult, hm, -⟩ := hvalues s hlength hbits
    rw [Problem.evaluateObjective_of_length hlength, hvalue, Except.ok.injEq] at hv
    rw [hcost] at hm
    rw [hresult, ← hv, ← hm]
    congr 1
    simp only [seating, Sense.sign, Option.getD_some]
    ring
  refine ⟨q, hq, by rw [hconstraints]; decide +kernel, ?_, ?_⟩
  · exact hvalue _ _ 2 rfl (by decide +kernel) (by decide +kernel) (by decide +kernel)
  · exact hvalue _ _ 3 rfl (by decide +kernel) (by decide +kernel) (by decide +kernel)

/-- Maximize `n² + xy + 3` for binary `x`, `y` and `z` and an integer `n`. The two equalities share
variables, and one of them has fractional data. -/
def sharing : Problem Rat where
  name := "sharing"
  vars := [⟨"x", .binary, 0⟩, ⟨"y", .binary, 1⟩, ⟨"z", .binary, 2⟩, ⟨"n", .integer (-2) 3, 3⟩]
  objective := ⟨.maximize, ⟨3, Terms.empty, Quadratic.ofProducts [(3, 3, 1), (0, 1, 1)]⟩⟩
  constraints := [.ofLinear "first" (Terms.ofList [(0, 1), (1, 1), (2, -2)]) .eq 1,
    .ofLinear "second" (Terms.ofList [(1, 1), (2, 1 / 2)]) .eq (3 / 2)]

theorem sharing_built : sharing.Built :=
  Problem.built_iff_assemble_eq.mpr (by with_unfolding_all rfl)

/-- The sharing problem with an equality over the integer variable and an inequality. -/
def sharingMore : Problem Rat :=
  { sharing with constraints := sharing.constraints ++
      [.ofLinear "whole" (Terms.ofList [(0, 1), (3, 1)]) .eq 1,
        .ofLinear "loose" (Terms.ofList [(0, 1), (1, 1)]) .le 1] }

theorem sharingMore_built : sharingMore.Built :=
  Problem.built_iff_assemble_eq.mpr (by with_unfolding_all rfl)

/-- At a vector that is not integer the equalities of the sharing problem deviate by `-1/2` and by
one. With the two other constraints the first of these is told. -/
theorem sharing_values :
    (∃ q r, sharing.foldEqualities (some (1 / 2)) = .ok (q, r) ∧
      q.evaluateObjective [1 / 2, 2, 1, 3 / 2] =
        .ok (25 / 4 - 1 / 2 * ((-1 / 2) ^ 2 + 1 ^ 2))) ∧
    ∃ reason, sharingMore.foldEqualities (some (1 / 2)) = .error (.unsupported "whole" reason) := by
  have hgiven : ∀ f : Rat, some (1 / 2) = some f → 0 < f := by
    rintro f ⟨⟩
    norm_num
  constructor
  · obtain ⟨hok, -, hvalues⟩ := Problem.foldEqualities_values sharing_built hgiven
    obtain ⟨⟨q, r⟩, h⟩ := hok.mpr (by decide +kernel)
    obtain ⟨-, -, -, hvalues⟩ := hvalues q r h
    obtain ⟨value, hvalue, hresult⟩ := hvalues [1 / 2, 2, 1, 3 / 2] rfl
    have hbefore : sharing.value [1 / 2, 2, 1, 3 / 2] = 25 / 4 := by decide +kernel
    rw [Problem.evaluateObjective_of_length rfl, hbefore, Except.ok.injEq] at hvalue
    refine ⟨q, r, h, ?_⟩
    rw [hresult, ← hvalue]
    decide +kernel
  · obtain ⟨-, herror, -⟩ := Problem.foldEqualities_values sharingMore_built hgiven
    obtain ⟨reason, h, -⟩ := herror sharing.constraints
      (.ofLinear "whole" (Terms.ofList [(0, 1), (3, 1)]) .eq 1) _ rfl (by decide +kernel)
      (by decide +kernel)
    exact ⟨reason, h⟩

end QuboReduction

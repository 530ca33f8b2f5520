import Mathlib.Algebra.Order.BigOperators.Group.List
import QuboReduction.Proofs.Shape
import QuboReduction.Stage.SquaredDeviation

/-!
# Values of penalties

The penalty of a shape is its cost times the factor, at every assignment, and the penalty of a
linear equality is the square of the difference of its sides times the factor. So the objectives
that the two penalty stages build are the old objective with a multiple of one number added to the
cost.

## Main definitions

* `QuboReduction.Problem.shapeCost` — the cost of all constraints that have a shape.
* `QuboReduction.Problem.brokenShapes` — the constraints with a shape that are not satisfied.
* `QuboReduction.Problem.deviation` — the squared deviations of all constraints.

## Main results

* `QuboReduction.Shape.evaluate_penalty?`, `QuboReduction.evaluate_squaredDeviation` — values of
  penalties.
* `QuboReduction.Problem.evaluate_withShapePenalties`,
  `QuboReduction.Problem.evaluate_withSquaredDeviations` — objectives with penalties.
* `QuboReduction.Problem.exists_shapeCost_eq` — the cost of shapes counts violations.
* `QuboReduction.Problem.feasible_iff_shapeCost` — what the cost of shapes says.
-/

namespace QuboReduction

variable {x : Nat → Rat} {n : Nat}

/-! ### Shapes -/

theorem value_productsOf (vars : List Nat) (a : Rat) :
    (productsOf vars a).value (Pair.product x) = a * pairSum x vars := by
  rw [productsOf, Quadratic.value_ofProducts, List.map_map, pairSum]
  induction pairsOf vars with
  | nil => simp
  | cons e l ih =>
    rw [List.map_cons, List.sum_cons, ih, List.map_cons, List.sum_cons, mul_add]
    rfl

private theorem sum_complements (l : List (Nat × Nat)) (a : Rat) :
    l.foldl (fun total _ => total + a) 0 +
        ((l.flatMap fun e => [(e.1, -a), (e.2, -a)]).map fun t => t.2 * x t.1).sum +
        a * (l.map fun e => x e.1 * x e.2).sum =
      a * (l.map fun e => (1 - x e.1) * (1 - x e.2)).sum := by
  have hfold : ∀ (l : List (Nat × Nat)) (b : Rat),
      l.foldl (fun total _ => total + a) b = b + l.foldl (fun total _ => total + a) 0 := by
    intro l
    induction l with
    | nil => simp
    | cons e l ih =>
      intro b
      rw [List.foldl_cons, List.foldl_cons, ih (b + a), ih (0 + a)]
      ring
  induction l with
  | nil => simp
  | cons e l ih =>
    rw [List.foldl_cons, hfold, List.flatMap_cons, List.map_append, List.sum_append, List.map_cons,
      List.sum_cons, List.map_cons, List.sum_cons]
    simp only [List.map_cons, List.map_nil, List.sum_cons, List.sum_nil]
    linear_combination ih

namespace Shape

/-- **Penalties of shapes.** The penalty of a shape is its cost times the factor, at every
assignment. -/
theorem evaluate_penalty? {s : Shape} {factor : Rat} {penalty : Polynomial Rat}
    (h : s.penalty? factor = some penalty) : penalty.evaluate x = factor * s.cost x := by
  cases s with
  | implicationLe i j =>
    rw [← Option.some.inj h, Polynomial.evaluate_eq]
    simp only [Terms.value_addTerm, Terms.value_empty, Pair.product_of, cost]
    ring
  | implicationGe i j =>
    rw [← Option.some.inj h, Polynomial.evaluate_eq]
    simp only [Terms.value_addTerm, Terms.value_empty, Pair.product_of, cost]
    ring
  | atMostOne vars =>
    rw [← Option.some.inj h, Polynomial.evaluate_eq, value_productsOf, cost]
    simp
  | atMostOneZero vars =>
    rw [← Option.some.inj h, Polynomial.evaluate_eq, value_productsOf, cost, pairSum, pairSum,
      Terms.value_ofList]
    exact sum_complements (pairsOf vars) factor
  | generic => contradiction

theorem penalty?_eq_none_iff {s : Shape} {factor : Rat} :
    s.penalty? factor = none ↔ s = .generic := by
  cases s <;> simp [penalty?]

theorem mem_of_mem_pairsOf {vars : List Nat} {e : Nat × Nat} (h : e ∈ pairsOf vars) :
    e.1 ∈ vars ∧ e.2 ∈ vars := by
  induction vars with
  | nil => simp [pairsOf] at h
  | cons i vars ih =>
    rcases List.mem_append.mp h with h | h
    · obtain ⟨j, hj, rfl⟩ := List.mem_map.mp h
      exact ⟨List.mem_cons_self, List.mem_cons_of_mem _ hj⟩
    · exact ⟨List.mem_cons_of_mem _ (ih h).1, List.mem_cons_of_mem _ (ih h).2⟩

theorem productsOf_below {vars : List Nat} (h : ∀ i ∈ vars, i < n) (a : Rat) :
    (productsOf vars a).Below n := by
  refine Terms.Within.ofList fun t ht => ?_
  simp only [List.map_map, List.mem_map, Function.comp_apply] at ht
  obtain ⟨e, he, rfl⟩ := ht
  exact Nat.max_lt.mpr ⟨h _ (mem_of_mem_pairsOf he).1, h _ (mem_of_mem_pairsOf he).2⟩

/-- The penalty of a shape mentions the variables of the shape only. -/
theorem penalty?_below {s : Shape} {factor : Rat} {penalty : Polynomial Rat}
    (h : s.penalty? factor = some penalty) (hs : ∀ i ∈ s.indices, i < n) : penalty.Below n := by
  cases s with
  | implicationLe i j =>
    have hi := hs i (by simp [indices])
    have hj := hs j (by simp [indices])
    rw [← Option.some.inj h]
    exact ⟨Terms.within_empty.addTerm (S := (· < n)) hi _,
      Terms.within_empty.addTerm (S := fun e : Pair => e.high < n) (Nat.max_lt.mpr ⟨hi, hj⟩) _⟩
  | implicationGe i j =>
    have hi := hs i (by simp [indices])
    have hj := hs j (by simp [indices])
    rw [← Option.some.inj h]
    exact ⟨Terms.within_empty.addTerm (S := (· < n)) hj _,
      Terms.within_empty.addTerm (S := fun e : Pair => e.high < n) (Nat.max_lt.mpr ⟨hi, hj⟩) _⟩
  | atMostOne vars =>
    rw [← Option.some.inj h]
    exact ⟨Terms.within_empty, productsOf_below hs factor⟩
  | atMostOneZero vars =>
    rw [← Option.some.inj h]
    refine ⟨Terms.Within.ofList fun t ht => ?_, productsOf_below hs factor⟩
    obtain ⟨e, he, ht⟩ := List.mem_flatMap.mp ht
    simp only [List.mem_cons, List.not_mem_nil, or_false] at ht
    rcases ht with rfl | rfl
    · exact hs _ (mem_of_mem_pairsOf he).1
    · exact hs _ (mem_of_mem_pairsOf he).2
  | generic => contradiction

end Shape

/-! ### Squared deviations -/

/-- The terms of a square add up to the square of the sum. -/
private theorem sum_squareTerms (factor : Rat) (l : List (Nat × Rat)) :
    ((squareTerms factor l).map fun t => t.2.2 * (x t.1 * x t.2.1)).sum =
      factor * (l.map fun t => t.2 * x t.1).sum ^ 2 := by
  induction l with
  | nil => simp [squareTerms]
  | cons t l ih =>
    have hmixed : ((l.map fun u => (t.1, u.1, Scalar.ofInt 2 * factor * t.2 * u.2)).map
        fun t => t.2.2 * (x t.1 * x t.2.1)).sum =
          2 * factor * t.2 * x t.1 * (l.map fun t => t.2 * x t.1).sum := by
      clear ih
      induction l with
      | nil => simp
      | cons u l ih =>
        rw [List.map_cons, List.map_cons, List.sum_cons, ih, List.map_cons, List.sum_cons]
        simp only [Scalar.ofInt_rat, Int.cast_ofNat]
        ring
    rw [squareTerms, List.map_append, List.sum_append, List.map_cons, List.sum_cons, hmixed, ih,
      List.map_cons, List.sum_cons]
    ring

/-- **Squared deviations.** The penalty of a linear equality is the square of the difference of its
sides times the factor. -/
theorem evaluate_squaredDeviation (linear : Linear Rat) (rhs factor : Rat) :
    (squaredDeviation linear rhs factor).evaluate x = factor * (linear.value x - rhs) ^ 2 := by
  have hlinear : ∀ l : List (Nat × Rat),
      ((l.map fun t => (t.1, Scalar.ofInt (-2) * factor * rhs * t.2)).map
        fun t => t.2 * x t.1).sum = -2 * factor * rhs * (l.map fun t => t.2 * x t.1).sum := by
    intro l
    induction l with
    | nil => simp
    | cons t l ih =>
      rw [List.map_cons, List.map_cons, List.sum_cons, ih, List.map_cons, List.sum_cons]
      simp only [Scalar.ofInt_rat, Int.cast_neg, Int.cast_ofNat]
      ring
  rw [Polynomial.evaluate_eq]
  simp only [squaredDeviation, Terms.value_ofList, Quadratic.value_ofProducts, hlinear,
    sum_squareTerms]
  rw [Terms.value]
  ring

theorem mem_of_mem_squareTerms {factor : Rat} {l : List (Nat × Rat)} {e : Nat × Nat × Rat}
    (h : e ∈ squareTerms factor l) : e.1 ∈ l.map Prod.fst ∧ e.2.1 ∈ l.map Prod.fst := by
  induction l with
  | nil => simp [squareTerms] at h
  | cons t l ih =>
    simp only [squareTerms, List.cons_append, List.mem_cons, List.mem_append, List.mem_map] at h
    rw [List.map_cons]
    rcases h with rfl | ⟨u, hu, rfl⟩ | h
    · exact ⟨List.mem_cons_self, List.mem_cons_self⟩
    · exact ⟨List.mem_cons_self, List.mem_cons_of_mem _ (List.mem_map.mpr ⟨u, hu, rfl⟩)⟩
    · exact ⟨List.mem_cons_of_mem _ (ih h).1, List.mem_cons_of_mem _ (ih h).2⟩

theorem squaredDeviation_below {linear : Linear Rat} (h : linear.Below n) (rhs factor : Rat) :
    (squaredDeviation linear rhs factor).Below n := by
  have hkeys : ∀ i ∈ linear.toList.map Prod.fst, i < n := fun i hi => by
    obtain ⟨t, ht, rfl⟩ := List.mem_map.mp hi
    exact h t ht
  refine ⟨Terms.Within.ofList fun t ht => ?_, Terms.Within.ofList fun t ht => ?_⟩
  · obtain ⟨u, hu, rfl⟩ := List.mem_map.mp ht
    exact h u hu
  · obtain ⟨e, he, rfl⟩ := List.mem_map.mp ht
    obtain ⟨hlow, hhigh⟩ := mem_of_mem_squareTerms he
    exact Nat.max_lt.mpr ⟨hkeys _ hlow, hkeys _ hhigh⟩

/-! ### Objectives with penalties -/

/-- A penalty is added to the cost, whatever the direction is. -/
theorem Objective.evaluate_addPenalty (o : Objective Rat) (sign : Rat) (penalty : Polynomial Rat) :
    (o.addPenalty sign penalty).evaluate x = o.evaluate x + sign * penalty.evaluate x :=
  Polynomial.evaluate_addMultiple o.polynomial penalty sign

/-- What adding penalties for a list of constraints one after another comes to. -/
private theorem foldl_penalties {β : Type} {l : List β} {f : Objective Rat → β → Objective Rat}
    {amount : β → Rat} {factor : Rat} {n : Nat} (o : Objective Rat)
    (hstep : ∀ o : Objective Rat, ∀ b ∈ l, (f o b).sense = o.sense ∧
      (f o b).evaluate x = o.evaluate x + factor * amount b ∧
      (o.polynomial.Below n → (f o b).polynomial.Below n)) :
    (l.foldl f o).sense = o.sense ∧
      (l.foldl f o).evaluate x = o.evaluate x + factor * (l.map amount).sum ∧
      (o.polynomial.Below n → (l.foldl f o).polynomial.Below n) := by
  induction l generalizing o with
  | nil => simp
  | cons b l ih =>
    obtain ⟨hsense, hvalue, hbelow⟩ := hstep o b List.mem_cons_self
    obtain ⟨hsense', hvalue', hbelow'⟩ :=
      ih (f o b) fun o' b' hb' => hstep o' b' (List.mem_cons_of_mem _ hb')
    rw [List.foldl_cons, List.map_cons, List.sum_cons]
    refine ⟨hsense'.trans hsense, ?_, fun h => hbelow' (hbelow h)⟩
    rw [hvalue', hvalue]
    ring

namespace Problem

variable {p q : Problem Rat} {s : List Rat} {c : Constraint Rat}

/-- The cost of all constraints that have a shape. -/
def shapeCost (p : Problem Rat) (x : Nat → Rat) : Rat :=
  (p.constraints.map fun c => (p.shapeOf c).cost x).sum

theorem shapeOf_indices_lt {i : Nat} (h : i ∈ (p.shapeOf c).indices) : i < p.size := by
  by_cases hgeneric : p.shapeOf c = .generic
  · simp [hgeneric, Shape.indices] at h
  · exact isBinaryAt_lt ((shapeOf_spec (x := fun _ => 0) hgeneric).2.1 i h).2

private theorem withShapePenalties_spec (p : Problem Rat) (factor : Rat) (x : Nat → Rat) :
    (p.withShapePenalties factor).sense = p.objective.sense ∧
      (p.withShapePenalties factor).evaluate x =
        p.objective.evaluate x + (p.objective.sense.sign * factor) * p.shapeCost x ∧
      (p.objective.polynomial.Below p.size →
        (p.withShapePenalties factor).polynomial.Below p.size) := by
  refine foldl_penalties p.objective fun o c _ => ?_
  cases h : (p.shapeOf c).penalty? factor with
  | none => simp [Shape.penalty?_eq_none_iff.mp h, Shape.cost]
  | some penalty =>
    refine ⟨rfl, ?_, fun hbelow => hbelow.addMultiple
      (Shape.penalty?_below h fun i hi => shapeOf_indices_lt hi) _⟩
    rw [Objective.evaluate_addPenalty, Shape.evaluate_penalty? h, mul_assoc]

@[simp] theorem sense_withShapePenalties (p : Problem Rat) (factor : Rat) :
    (p.withShapePenalties factor).sense = p.objective.sense :=
  (withShapePenalties_spec p factor fun _ => 0).1

/-- The objective with the penalties of shapes. -/
theorem evaluate_withShapePenalties (p : Problem Rat) (factor : Rat) :
    (p.withShapePenalties factor).evaluate x =
      p.objective.evaluate x + p.objective.sense.sign * (factor * p.shapeCost x) := by
  rw [(withShapePenalties_spec p factor x).2.1, mul_assoc]

theorem WellFormed.withShapePenalties_below (hp : p.WellFormed) (factor : Rat) :
    (p.withShapePenalties factor).polynomial.Below p.size :=
  (withShapePenalties_spec p factor fun _ => 0).2.2 hp.objective_below

/-- The squared deviations of all constraints. -/
def deviation (p : Problem Rat) (x : Nat → Rat) : Rat :=
  (p.constraints.map fun c => (c.evaluate x - c.rhs) ^ 2).sum

private theorem withSquaredDeviations_spec (hlinear : ∀ c ∈ p.constraints, c.isLinear = true)
    (hbelow : ∀ c ∈ p.constraints, c.Below p.size) (factor : Rat) (x : Nat → Rat) :
    (p.withSquaredDeviations factor).sense = p.objective.sense ∧
      (p.withSquaredDeviations factor).evaluate x =
        p.objective.evaluate x + (p.objective.sense.sign * factor) * p.deviation x ∧
      (p.objective.polynomial.Below p.size →
        (p.withSquaredDeviations factor).polynomial.Below p.size) := by
  refine foldl_penalties p.objective fun o c hc => ⟨rfl, ?_, fun h => ?_⟩
  · rw [Objective.evaluate_addPenalty, evaluate_squaredDeviation,
      Constraint.evaluate_of_isLinear (hlinear c hc), mul_assoc]
  · exact h.addMultiple (squaredDeviation_below (hbelow c hc).1 _ _) _

theorem sense_withSquaredDeviations (hp : p.WellFormed)
    (hlinear : ∀ c ∈ p.constraints, c.isLinear = true) (factor : Rat) :
    (p.withSquaredDeviations factor).sense = p.objective.sense :=
  (withSquaredDeviations_spec hlinear hp.constraint_below factor fun _ => 0).1

/-- The objective with squared deviations. -/
theorem evaluate_withSquaredDeviations (hp : p.WellFormed)
    (hlinear : ∀ c ∈ p.constraints, c.isLinear = true) (factor : Rat) :
    (p.withSquaredDeviations factor).evaluate x =
      p.objective.evaluate x + p.objective.sense.sign * (factor * p.deviation x) := by
  rw [(withSquaredDeviations_spec hlinear hp.constraint_below factor x).2.1, mul_assoc]

theorem WellFormed.withSquaredDeviations_below (hp : p.WellFormed)
    (hlinear : ∀ c ∈ p.constraints, c.isLinear = true) (factor : Rat) :
    (p.withSquaredDeviations factor).polynomial.Below p.size :=
  (withSquaredDeviations_spec hlinear hp.constraint_below factor fun _ => 0).2.2 hp.objective_below

/-! ### What the penalties say -/

/-- A sum of numbers that are not negative is zero exactly when all of them are. -/
private theorem sum_eq_zero_iff {β : Type} {l : List β} {f : β → Rat} (h : ∀ b ∈ l, 0 ≤ f b) :
    (l.map f).sum = 0 ↔ ∀ b ∈ l, f b = 0 := by
  induction l with
  | nil => simp
  | cons b l ih =>
    obtain ⟨hb, hl⟩ := List.forall_mem_cons.mp h
    have hsum : 0 ≤ (l.map f).sum := List.sum_nonneg fun a ha => by
      obtain ⟨b', hb', rfl⟩ := List.mem_map.mp ha
      exact hl b' hb'
    rw [List.map_cons, List.sum_cons, add_eq_zero_iff_of_nonneg hb hsum, ih hl,
      List.forall_mem_cons]

/-- At zeros and ones the cost of the shape of a constraint is a natural number. It is zero exactly
when the constraint has no shape of its own or holds. -/
private theorem cost_shapeOf (hx : p.BitsAt x) (c : Constraint Rat) :
    ∃ n : Nat, (p.shapeOf c).cost x = n ∧ (n = 0 ↔ p.shapeOf c = .generic ∨ c.Holds x) := by
  by_cases h : p.shapeOf c = .generic
  · exact ⟨0, by simp [h, Shape.cost], by simp [h]⟩
  · obtain ⟨-, hindices, hholds⟩ := shapeOf_spec (x := x) h
    obtain ⟨⟨n, hn⟩, hzero⟩ := Shape.cost_bits fun i hi => hx i (hindices i hi).2
    rw [hn, Nat.cast_eq_zero, hholds] at hzero
    exact ⟨n, hn, by rw [hzero, or_iff_right h]⟩

/-- The constraints with a shape of their own that an assignment does not satisfy. -/
def brokenShapes (p : Problem Rat) (x : Nat → Rat) : List (Constraint Rat) :=
  p.constraints.filter fun c => p.shapeOf c ≠ .generic ∧ ¬c.Holds x

theorem brokenShapes_eq_nil_iff :
    p.brokenShapes x = [] ↔ ∀ c ∈ p.constraints, p.shapeOf c ≠ .generic → c.Holds x := by
  simp [brokenShapes, List.filter_eq_nil_iff]

/-- **Costs of shapes.** At zeros and ones the cost of all shapes is a natural number. It is at
least the number of constraints with a shape that are broken, and zero only where none is. -/
theorem exists_shapeCost_eq (hx : p.BitsAt x) :
    ∃ n : Nat, p.shapeCost x = n ∧ (p.brokenShapes x).length ≤ n ∧
      (n = 0 ↔ p.brokenShapes x = []) := by
  rw [shapeCost, brokenShapes]
  induction p.constraints with
  | nil => exact ⟨0, by simp⟩
  | cons c cs ih =>
    obtain ⟨m, hm, hzero⟩ := cost_shapeOf hx c
    obtain ⟨n, hn, hle, hnil⟩ := ih
    refine ⟨m + n, by rw [List.map_cons, List.sum_cons, hm, hn, Nat.cast_add], ?_⟩
    by_cases hbroken : p.shapeOf c ≠ .generic ∧ ¬c.Holds x
    · have hone : 1 ≤ m := Nat.one_le_iff_ne_zero.mpr fun h => by tauto
      rw [List.filter_cons_of_pos (by simpa using hbroken), List.length_cons]
      exact ⟨by omega, by simp only [reduceCtorEq, iff_false]; omega⟩
    · have hfree : m = 0 := hzero.mpr (by tauto)
      rw [List.filter_cons_of_neg (by simpa using hbroken), hfree, Nat.zero_add]
      exact ⟨hle, hnil⟩

/-- At admissible vectors the cost of shapes is a natural number. -/
theorem shapeCost_natCast (hs : p.Admissible s) : ∃ n : Nat, p.shapeCost (valueAt s) = n := by
  obtain ⟨n, hn, -⟩ := exists_shapeCost_eq hs.bitsAt
  exact ⟨n, hn⟩

/-- At admissible vectors the cost of shapes is zero exactly when all constraints with a shape
hold. -/
theorem shapeCost_eq_zero_iff (hs : p.Admissible s) :
    p.shapeCost (valueAt s) = 0 ↔
      ∀ c ∈ p.constraints, p.shapeOf c ≠ .generic → c.Holds (valueAt s) := by
  obtain ⟨n, hn, -, hnil⟩ := exists_shapeCost_eq hs.bitsAt
  rw [hn, Nat.cast_eq_zero, hnil, brokenShapes_eq_nil_iff]

/-- **Feasibility.** A vector is feasible when it satisfies the constraints without a shape and the
cost of the others is zero. -/
theorem feasible_iff_shapeCost :
    p.Feasible s ↔ (p.Admissible s ∧ ∀ c ∈ p.genericConstraints, c.Holds (valueAt s)) ∧
      p.shapeCost (valueAt s) = 0 := by
  rw [Feasible, and_assoc]
  refine and_congr_right fun hs => ?_
  simp only [shapeCost_eq_zero_iff hs, genericConstraints, List.mem_filter, decide_eq_true_eq]
  constructor
  · exact fun h => ⟨fun c hc => h c hc.1, fun c hc _ => h c hc⟩
  · intro h c hc
    by_cases hgeneric : p.shapeOf c = .generic
    · exact h.1 c ⟨hc, hgeneric⟩
    · exact h.2 c hc hgeneric

/-- The squared deviations are zero exactly when all equalities hold. -/
theorem deviation_eq_zero_iff (hequality : ∀ c ∈ p.constraints, c.relation = .eq) :
    p.deviation x = 0 ↔ ∀ c ∈ p.constraints, c.Holds x := by
  rw [deviation, sum_eq_zero_iff fun c _ => sq_nonneg _]
  refine forall₂_congr fun c hc => ?_
  rw [pow_eq_zero_iff two_ne_zero, sub_eq_zero, Constraint.Holds, hequality c hc]
  rfl

theorem deviation_nonneg (p : Problem Rat) (x : Nat → Rat) : 0 ≤ p.deviation x :=
  List.sum_nonneg fun a ha => by
    obtain ⟨c, -, rfl⟩ := List.mem_map.mp ha
    exact sq_nonneg _

end Problem

end QuboReduction

import QuboReduction.Proofs.Coefficients
import QuboReduction.Proofs.Gap
import QuboReduction.Proofs.Reachable

/-!
# Corners of the box of bounds

The range that is computed for a left-hand side is a sum of ranges, one for each term, and may be
wider than the values of the left-hand side as soon as two terms pull the same variable in different
directions. Without products each variable occurs in one term only, so the terms reach their ends
together, at a corner of the box: every variable is at the bound that the sign of its coefficient
asks for. Then the range of the gap of an inequality is not wider than needed either.

## Main definitions

* `QuboReduction.Problem.corner` — a vector of bounds.

## Main results

* `QuboReduction.Problem.exists_evaluate_eq_lower`,
  `QuboReduction.Problem.exists_evaluate_eq_upper` — both ends of the range are attained.
* `QuboReduction.Problem.exists_gap_eq_slackRange`,
  `QuboReduction.Problem.exists_gap_eq_leastGap` — both ends of the range of the gap are attained.
* `QuboReduction.Problem.rangeOf_contains_and_attained` — ranges over reachable problems.
-/

namespace QuboReduction

/-! ### Ends of sums -/

namespace Interval

variable {β : Type} {f : β → Interval Rat}

theorem lower_foldl (l : List β) (i : Interval Rat) :
    ((l.map f).foldl add i).lower = i.lower + (l.map fun t => (f t).lower).sum := by
  induction l generalizing i with
  | nil => simp
  | cons t l ih =>
    rw [List.map_cons, List.foldl_cons, ih, List.map_cons, List.sum_cons, ← add_assoc]
    rfl

theorem upper_foldl (l : List β) (i : Interval Rat) :
    ((l.map f).foldl add i).upper = i.upper + (l.map fun t => (f t).upper).sum := by
  induction l generalizing i with
  | nil => simp
  | cons t l ih =>
    rw [List.map_cons, List.foldl_cons, ih, List.map_cons, List.sum_cons, ← add_assoc]
    rfl

variable {i : Interval Rat} {coef : Rat}

/-- A multiple is smallest at the lower end for a positive coefficient and at the upper end for a
negative one, and largest at the other end. -/
theorem scale_eq (hi : i.lower ≤ i.upper) :
    i.scale coef = if coef < 0 then ⟨coef * i.upper, coef * i.lower⟩
      else ⟨coef * i.lower, coef * i.upper⟩ := by
  rw [scale, hull_eq]
  split
  · rename_i hcoef
    have hle := mul_le_mul_of_nonpos_left hi hcoef.le
    rw [min_eq_right hle, max_eq_left hle]
  · rename_i hcoef
    have hle := mul_le_mul_of_nonneg_left hi (not_lt.mp hcoef)
    rw [min_eq_left hle, max_eq_right hle]

end Interval

namespace Problem

variable {p : Problem Rat} {c : Constraint Rat}

/-! ### Vectors of bounds -/

/-- The vector with the upper bound of each variable whose index is chosen, and with the lower
bounds of the other ones. -/
def corner (p : Problem Rat) (up : Nat → Bool) : List Rat :=
  p.vars.mapIdx fun i v => if up i then v.domain.upper else v.domain.lower

theorem valueAt_corner (p : Problem Rat) (up : Nat → Bool) (i : Nat) :
    valueAt (p.corner up) i = if up i then (p.boundsAt i).upper else (p.boundsAt i).lower := by
  rw [boundsAt]
  cases hv : p.variableAt? i with
  | some v =>
    rw [variableAt?] at hv
    simp [valueAt, corner, List.getD_eq_getElem?_getD, hv]
  | none =>
    have hi : (p.corner up).length ≤ i := by
      simpa [corner] using List.getElem?_eq_none_iff.mp hv
    rw [valueAt_of_ge hi]
    simp

theorem admissible_corner (hp : p.WellFormed) (up : Nat → Bool) : p.Admissible (p.corner up) := by
  refine admissible_iff.mpr ⟨by simp [corner, size], fun i v hv => ?_⟩
  have hbounds := hp.lower_le_upper v (List.mem_of_getElem? hv)
  rw [valueAt_corner, boundsAt, hv]
  cases up i
  · exact ⟨v.domain.lower, rfl, le_rfl, hbounds⟩
  · exact ⟨v.domain.upper, rfl, hbounds, le_rfl⟩

theorem boundsAt_lower_le_upper (hp : p.WellFormed) (i : Nat) :
    (p.boundsAt i).lower ≤ (p.boundsAt i).upper :=
  have hcontains := boundsAt_contains (admissible_corner hp fun _ => false) i
  hcontains.1.trans hcontains.2

/-! ### Ends of ranges -/

theorem rangeOf_of_isLinear (hlinear : c.isLinear = true) :
    p.rangeOf c = (c.linear.toList.map fun t => (p.boundsAt t.1).scale t.2).foldl Interval.add
      ⟨0, 0⟩ := by
  rw [rangeOf, Constraint.toList_quadratic hlinear, List.map_nil, List.append_nil]

/-- **The lower end.** A left-hand side without products attains the lower end of its range, with
each variable of a negative coefficient at its upper bound. -/
theorem exists_evaluate_eq_lower (hp : p.WellFormed) (hlinear : c.isLinear = true) :
    ∃ s, p.Admissible s ∧ c.evaluate (valueAt s) = (p.rangeOf c).lower := by
  refine ⟨_, admissible_corner hp fun i => c.linear.coefficient i < 0, ?_⟩
  rw [rangeOf_of_isLinear hlinear, Interval.lower_foldl, Constraint.evaluate_of_isLinear hlinear,
    Terms.value, zero_add]
  refine congrArg List.sum (List.map_congr_left fun t ht => ?_)
  have hcoef : c.linear.coefficient t.1 = t.2 := (Terms.mem_toList_iff.mp ht).2
  rw [valueAt_corner, Interval.scale_eq (boundsAt_lower_le_upper hp t.1), hcoef]
  by_cases h : t.2 < 0 <;> simp [h]

/-- **The upper end.** A left-hand side without products attains the upper end of its range, with
each variable of a negative coefficient at its lower bound. -/
theorem exists_evaluate_eq_upper (hp : p.WellFormed) (hlinear : c.isLinear = true) :
    ∃ s, p.Admissible s ∧ c.evaluate (valueAt s) = (p.rangeOf c).upper := by
  refine ⟨_, admissible_corner hp fun i => !decide (c.linear.coefficient i < 0), ?_⟩
  rw [rangeOf_of_isLinear hlinear, Interval.upper_foldl, Constraint.evaluate_of_isLinear hlinear,
    Terms.value, zero_add]
  refine congrArg List.sum (List.map_congr_left fun t ht => ?_)
  have hcoef : c.linear.coefficient t.1 = t.2 := (Terms.mem_toList_iff.mp ht).2
  rw [valueAt_corner, Interval.scale_eq (boundsAt_lower_le_upper hp t.1), hcoef]
  by_cases h : t.2 < 0 <;> simp [h]

/-! ### Ends of ranges of gaps -/

/-- The slack range of an inequality without products is the gap at some admissible vector. -/
theorem exists_gap_eq_slackRange (hp : p.WellFormed) (hlinear : c.isLinear = true) :
    ∃ s, p.Admissible s ∧ c.gap (valueAt s) = p.slackRange c := by
  obtain ⟨s, hs, hlower⟩ := exists_evaluate_eq_lower hp hlinear
  obtain ⟨t, ht, hupper⟩ := exists_evaluate_eq_upper hp hlinear
  rw [slackRange, ← hlower, ← hupper]
  cases hrelation : c.relation with
  | ge => exact ⟨t, ht, by simp [Constraint.gap, Constraint.slackSign, hrelation]⟩
  | le => exact ⟨s, hs, by simp [Constraint.gap, Constraint.slackSign, hrelation]⟩
  | eq => exact ⟨s, hs, by simp [Constraint.gap, Constraint.slackSign, hrelation]⟩

/-- The least gap that the bounds allow is the gap at some admissible vector, for an inequality
without products. -/
theorem exists_gap_eq_leastGap (hp : p.WellFormed) (hlinear : c.isLinear = true) :
    ∃ s, p.Admissible s ∧ c.gap (valueAt s) = p.leastGap c := by
  obtain ⟨s, hs, hlower⟩ := exists_evaluate_eq_lower hp hlinear
  obtain ⟨t, ht, hupper⟩ := exists_evaluate_eq_upper hp hlinear
  rw [leastGap, ← hlower, ← hupper]
  cases hrelation : c.relation with
  | ge => exact ⟨s, hs, by simp [Constraint.gap, Constraint.slackSign, hrelation]⟩
  | le => exact ⟨t, ht, by simp [Constraint.gap, Constraint.slackSign, hrelation]⟩
  | eq => exact ⟨t, ht, by simp [Constraint.gap, Constraint.slackSign, hrelation]⟩

/-! ### Ranges over reachable problems -/

/-- **Ranges of left-hand sides.** Over a problem that a program can get, every left-hand side lies
in its range at every admissible vector, whatever products and squares it has; without products both
ends of the range are left-hand sides at admissible vectors. -/
theorem rangeOf_contains_and_attained (hp : p.Reachable) (c : Constraint Rat) :
    (∀ s, p.Admissible s →
        (p.rangeOf c).lower ≤ c.evaluate (valueAt s) ∧
          c.evaluate (valueAt s) ≤ (p.rangeOf c).upper) ∧
      (c.isLinear = true →
        (∃ s, p.Admissible s ∧ c.evaluate (valueAt s) = (p.rangeOf c).lower) ∧
          ∃ s, p.Admissible s ∧ c.evaluate (valueAt s) = (p.rangeOf c).upper) :=
  ⟨fun _ hs => rangeOf_contains hs c, fun hlinear =>
    ⟨exists_evaluate_eq_lower hp.wellFormed hlinear,
      exists_evaluate_eq_upper hp.wellFormed hlinear⟩⟩

end Problem

/-- A binary `x` and two integers `m` and `n` with bounds of both signs. -/
def slanting : Problem Rat where
  name := "slanting"
  vars := [⟨"x", .binary, 0⟩, ⟨"m", .integer (-3) 2, 1⟩, ⟨"n", .integer (-2) 4, 2⟩]
  objective := .zero
  constraints := []

/-- The left-hand side `x - 2·m·n + m²`. -/
def bend : Constraint Rat where
  name := "bend"
  linear := Terms.ofList [(0, 1)]
  quadratic := Quadratic.ofProducts [(1, 2, -2), (1, 1, 1)]
  relation := .le
  rhs := 0

/-- The left-hand side `2·x - 3·m + n`. -/
def tilt : Constraint Rat := .ofLinear "tilt" (Terms.ofList [(0, 2), (1, -3), (2, 1)]) .le 0

/-- The bent left-hand side lies between -16 and 34, and the tilted one takes the values -8 and
15. -/
theorem slanting_ranges :
    slanting.Admissible [1, -3, 4] ∧
      (-16 ≤ bend.evaluate (valueAt [1, -3, 4]) ∧ bend.evaluate (valueAt [1, -3, 4]) ≤ 34) ∧
      tilt.isLinear = true ∧
      (∃ s, slanting.Admissible s ∧ tilt.evaluate (valueAt s) = -8) ∧
      ∃ s, slanting.Admissible s ∧ tilt.evaluate (valueAt s) = 15 := by
  have hreachable : slanting.Reachable :=
    Problem.reachable_iff_built.mpr (Problem.built_iff_assemble_eq.mpr rfl)
  have hadmissible : slanting.Admissible [1, -3, 4] := by decide +kernel
  have hlinear : tilt.isLinear = true := by decide +kernel
  have hbend : (slanting.rangeOf bend).lower = -16 ∧ (slanting.rangeOf bend).upper = 34 := by
    decide +kernel
  have htilt : (slanting.rangeOf tilt).lower = -8 ∧ (slanting.rangeOf tilt).upper = 15 := by
    decide +kernel
  obtain ⟨hcontained, -⟩ := Problem.rangeOf_contains_and_attained hreachable bend
  obtain ⟨-, hattained⟩ := Problem.rangeOf_contains_and_attained hreachable tilt
  rw [hbend.1, hbend.2] at hcontained
  rw [htilt.1, htilt.2] at hattained
  exact ⟨hadmissible, hcontained _ hadmissible, hlinear, hattained hlinear⟩

end QuboReduction

import Mathlib.Algebra.Order.Field.Rat
import QuboReduction.Proofs.Assignment
import QuboReduction.Range

/-!
# Ranges contain left-hand sides

The range of a left-hand side that is computed from the bounds of the variables contains its value
at every admissible vector: a linear term lies between its values at the bounds, a product between
its values at the corners and a square between zero or the nearer end and the farther one. Where all
coefficients are multiples of a divisor, so are the ends of the range.

## Main definitions

* `QuboReduction.Interval.Contains` — scalars of an interval.
* `QuboReduction.Interval.MultipleOf` — intervals whose ends are multiples of a divisor.

## Main results

* `QuboReduction.Problem.rangeOf_contains` — left-hand sides at admissible vectors.
* `QuboReduction.Problem.rangeOf_multipleOf` — the ends of the range.
-/

namespace QuboReduction

namespace Interval

variable {i j : Interval Rat} {a b : Rat}

/-- A scalar of an interval. -/
def Contains (i : Interval Rat) (a : Rat) : Prop := i.lower ≤ a ∧ a ≤ i.upper

theorem Contains.add (ha : i.Contains a) (hb : j.Contains b) : (i.add j).Contains (a + b) :=
  ⟨add_le_add ha.1 hb.1, add_le_add ha.2 hb.2⟩

theorem hull_eq (a b : Rat) : hull a b = ⟨min a b, max a b⟩ := by simp [hull]

/-- A linear function on an interval stays between its values at the ends. -/
theorem Contains.scale (ha : i.Contains a) (coef : Rat) : (i.scale coef).Contains (coef * a) := by
  rw [Interval.scale, hull_eq]
  rcases le_total 0 coef with h | h
  · exact ⟨min_le_of_left_le (mul_le_mul_of_nonneg_left ha.1 h),
      le_max_of_le_right (mul_le_mul_of_nonneg_left ha.2 h)⟩
  · exact ⟨min_le_of_right_le (mul_le_mul_of_nonpos_left ha.2 h),
      le_max_of_le_left (mul_le_mul_of_nonpos_left ha.1 h)⟩

/-- A product on a box stays between its values at the corners: it is linear along each side. -/
theorem Contains.scaleProduct (ha : i.Contains a) (hb : j.Contains b) (coef : Rat) :
    (i.scaleProduct coef j).Contains (coef * (a * b)) := by
  have hacross := ha.scale (coef * b)
  have hleft := hb.scale (coef * i.lower)
  have hright := hb.scale (coef * i.upper)
  simp only [Interval.scale, hull_eq, Contains] at hacross hleft hright
  have hcomm : ∀ e : Rat, coef * b * e = coef * e * b := fun e => by ring
  rw [hcomm, hcomm, hcomm] at hacross
  simp only [Interval.scaleProduct, union, hull_eq, Contains, Scalar.least_rat,
    Scalar.greatest_rat, ← mul_assoc]
  constructor
  · exact (min_le_min hleft.1 hright.1).trans hacross.1
  · exact hacross.2.trans (max_le_max hleft.2 hright.2)

/-- A square lies below the square of the farther end, and above the square of the nearer one unless
zero lies between the ends. -/
theorem Contains.square (ha : i.Contains a) : i.square.Contains (a * a) := by
  obtain ⟨hlower, hupper⟩ := ha
  simp only [Interval.square, hull_eq, Contains]
  constructor
  · split
    · exact mul_self_nonneg a
    · rename_i h
      rcases not_and_or.mp h with h | h
      · exact min_le_of_left_le (mul_self_le_mul_self (not_le.mp h).le hlower)
      · exact min_le_of_right_le (by nlinarith [not_le.mp h])
  · rcases le_total 0 a with h | h
    · exact le_max_of_le_right (mul_self_le_mul_self h hupper)
    · exact le_max_of_le_left (by nlinarith)

/-- Sums of scalars of intervals lie in the sum of the intervals. -/
theorem Contains.foldl {β : Type} {f : β → Interval Rat} {g : β → Rat} {l : List β}
    (hstart : i.Contains a) (h : ∀ t ∈ l, (f t).Contains (g t)) :
    ((l.map f).foldl Interval.add i).Contains (a + (l.map g).sum) := by
  induction l generalizing i a with
  | nil => simpa using hstart
  | cons t l ih =>
    rw [List.map_cons, List.foldl_cons, List.map_cons, List.sum_cons, ← add_assoc]
    exact ih (hstart.add (h t List.mem_cons_self)) fun s hs => h s (List.mem_cons_of_mem _ hs)

/-- Both ends are multiples of a divisor. -/
def MultipleOf (i : Interval Rat) (divisor : Rat) : Prop :=
  IsInteger (i.lower / divisor) ∧ IsInteger (i.upper / divisor)

theorem MultipleOf.add {d : Rat} (hi : i.MultipleOf d) (hj : j.MultipleOf d) :
    (i.add j).MultipleOf d := by
  simp only [MultipleOf, Interval.add, add_div]
  exact ⟨hi.1.add hj.1, hi.2.add hj.2⟩

private theorem isInteger_min_div {d : Rat} (ha : IsInteger (a / d)) (hb : IsInteger (b / d)) :
    IsInteger (min a b / d) := by
  rcases min_choice a b with h | h <;> rwa [h]

private theorem isInteger_max_div {d : Rat} (ha : IsInteger (a / d)) (hb : IsInteger (b / d)) :
    IsInteger (max a b / d) := by
  rcases max_choice a b with h | h <;> rwa [h]

theorem MultipleOf.hull {d : Rat} (ha : IsInteger (a / d)) (hb : IsInteger (b / d)) :
    (hull a b).MultipleOf d := by
  rw [hull_eq]
  exact ⟨isInteger_min_div ha hb, isInteger_max_div ha hb⟩

theorem MultipleOf.union {d : Rat} (hi : i.MultipleOf d) (hj : j.MultipleOf d) :
    (i.union j).MultipleOf d := by
  simp only [Interval.union, Scalar.least_rat, Scalar.greatest_rat]
  exact ⟨isInteger_min_div hi.1 hj.1, isInteger_max_div hi.2 hj.2⟩

private theorem isInteger_mul_div {coef d : Rat} (hcoef : IsInteger (coef / d))
    (ha : IsInteger a) : IsInteger (coef * a / d) := by
  rw [mul_div_right_comm]
  exact hcoef.mul ha

/-- An integer multiple of an interval with integer ends. -/
theorem MultipleOf.scale {coef d : Rat} (hcoef : IsInteger (coef / d)) (hi : i.MultipleOf 1) :
    (i.scale coef).MultipleOf d := by
  simp only [MultipleOf, div_one] at hi
  exact MultipleOf.hull (isInteger_mul_div hcoef hi.1) (isInteger_mul_div hcoef hi.2)

theorem MultipleOf.scaleProduct {coef d : Rat} (hcoef : IsInteger (coef / d))
    (hi : i.MultipleOf 1) (hj : j.MultipleOf 1) : (i.scaleProduct coef j).MultipleOf d := by
  simp only [MultipleOf, div_one] at hi hj
  refine MultipleOf.union (MultipleOf.hull ?_ ?_) (MultipleOf.hull ?_ ?_)
  · exact isInteger_mul_div hcoef (hi.1.mul hj.1)
  · exact isInteger_mul_div hcoef (hi.1.mul hj.2)
  · exact isInteger_mul_div hcoef (hi.2.mul hj.1)
  · exact isInteger_mul_div hcoef (hi.2.mul hj.2)

theorem MultipleOf.square (hi : i.MultipleOf 1) : i.square.MultipleOf 1 := by
  have hends : ∀ e : Rat, IsInteger (e / 1) → IsInteger (e * e / 1) := fun e he => by
    rw [div_one] at he ⊢
    exact he.mul he
  have hhull := MultipleOf.hull (hends _ hi.1) (hends _ hi.2)
  refine ⟨?_, hhull.2⟩
  simp only [Interval.square]
  split
  · simp
  · exact hhull.1

theorem MultipleOf.foldl {d : Rat} {l : List (Interval Rat)} (hstart : i.MultipleOf d)
    (h : ∀ j ∈ l, j.MultipleOf d) : (l.foldl Interval.add i).MultipleOf d := by
  induction l generalizing i with
  | nil => exact hstart
  | cons j l ih =>
    exact ih (hstart.add (h j List.mem_cons_self)) fun k hk => h k (List.mem_cons_of_mem _ hk)

end Interval

namespace Problem

variable {p : Problem Rat} {s : List Rat} {c : Constraint Rat}

/-- An entry of an admissible vector lies between the bounds of its variable. -/
theorem boundsAt_contains (hs : p.Admissible s) (i : Nat) :
    (p.boundsAt i).Contains (valueAt s i) := by
  rw [boundsAt]
  cases hv : p.variableAt? i with
  | some v =>
    have hadmits := hs.admits hv
    exact ⟨hadmits.lower_le, hadmits.le_upper⟩
  | none =>
    have hi : p.size ≤ i := List.getElem?_eq_none_iff.mp hv
    rw [valueAt_of_ge (hs.length_eq.le.trans hi)]
    exact ⟨le_rfl, le_rfl⟩

theorem boundsAt_multipleOf (p : Problem Rat) (i : Nat) : (p.boundsAt i).MultipleOf 1 := by
  rw [boundsAt]
  cases p.variableAt? i <;> simp [Interval.MultipleOf]

theorem pairRange_contains (hs : p.Admissible s) (pair : Pair) (coef : Rat) :
    (p.pairRange pair coef).Contains (coef * pair.product (valueAt s)) := by
  rw [pairRange, Pair.product]
  split
  · rename_i h
    have hsquare : pair.low = pair.high := by simpa [Pair.isSquare] using h
    rw [← hsquare]
    exact (boundsAt_contains hs pair.low).square.scale coef
  · exact (boundsAt_contains hs pair.low).scaleProduct (boundsAt_contains hs pair.high) coef

/-- **Containment.** The left-hand side of a constraint lies in its range at every admissible
vector. -/
theorem rangeOf_contains (hs : p.Admissible s) (c : Constraint Rat) :
    (p.rangeOf c).Contains (c.evaluate (valueAt s)) := by
  have hzero : Interval.Contains (⟨0, 0⟩ : Interval Rat) 0 := ⟨le_rfl, le_rfl⟩
  have hlinear := hzero.foldl (l := c.linear.toList)
    (fun t _ => (boundsAt_contains hs t.1).scale t.2)
  have hboth := hlinear.foldl (l := c.quadratic.toList)
    (fun t _ => pairRange_contains hs t.1 t.2)
  rw [zero_add] at hboth
  rw [rangeOf, List.foldl_append, Constraint.evaluate_eq]
  exact hboth

/-- If all coefficients are multiples of a divisor, so are the ends of the range. -/
theorem rangeOf_multipleOf {d : Rat} (hc : ∀ a ∈ c.coefficients, IsInteger (a / d)) :
    (p.rangeOf c).MultipleOf d := by
  have hcoefficient : ∀ a ∈ c.coefficients, IsInteger (a / d) := hc
  simp only [Constraint.coefficients, List.mem_append, Terms.coefficients] at hcoefficient
  refine Interval.MultipleOf.foldl (by simp [Interval.MultipleOf]) fun j hj => ?_
  rcases List.mem_append.mp hj with hj | hj
  · obtain ⟨t, ht, rfl⟩ := List.mem_map.mp hj
    exact .scale (hcoefficient t.2 (Or.inl (List.mem_map.mpr ⟨t, ht, rfl⟩)))
      (p.boundsAt_multipleOf t.1)
  · obtain ⟨t, ht, rfl⟩ := List.mem_map.mp hj
    have hcoef := hcoefficient t.2 (Or.inr (List.mem_map.mpr ⟨t, ht, rfl⟩))
    rw [pairRange]
    split
    · exact .scale hcoef (p.boundsAt_multipleOf t.1.low).square
    · exact .scaleProduct hcoef (p.boundsAt_multipleOf t.1.low) (p.boundsAt_multipleOf t.1.high)

end Problem

end QuboReduction

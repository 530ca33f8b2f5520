import Mathlib.Tactic.LinearCombination
import QuboReduction.Proofs.Record
import QuboReduction.Stage.Binarization

/-!
# Substituting affine expressions

When each variable is replaced by an affine expression over new variables and everything is
multiplied out, values stay what they are: an expression over the new variables has the value that
the old expression has at the values of the affine expressions. This holds at every vector, not only
at zeros and ones.

## Main definitions

* `QuboReduction.Substitution.image` — the values of the old variables.
* `QuboReduction.Substitution.Within` — substitutions that mention the first new variables only.

## Main results

* `QuboReduction.Substitution.evaluate_expand` — values of expanded expressions.
* `QuboReduction.Substitution.evaluate_objective`, `QuboReduction.Substitution.holds_constraint_iff`
  — objectives and constraints over the new variables.
-/

namespace QuboReduction

namespace Substitution

variable {s : Substitution Rat} {x : Nat → Rat} {n : Nat}

/-- The values of the old variables, given those of the new ones. -/
def image (s : Substitution Rat) (x : Nat → Rat) : List Rat := s.map fun m => m.apply x

/-- The value of the terms of an affine expression. -/
private def sumOf (x : Nat → Rat) (terms : List (Nat × Rat)) : Rat :=
  (terms.map fun t => t.2 * x t.1).sum

private theorem sumOf_cons (t : Nat × Rat) (l : List (Nat × Rat)) :
    sumOf x (t :: l) = t.2 * x t.1 + sumOf x l := by
  simp [sumOf]

private theorem sumOf_append (l m : List (Nat × Rat)) :
    sumOf x (l ++ m) = sumOf x l + sumOf x m := by
  simp [sumOf]

private theorem sumOf_scaled (l : List (Nat × Rat)) (a : Rat) :
    sumOf x (l.map fun t => (t.1, a * t.2)) = a * sumOf x l := by
  induction l with
  | nil => simp [sumOf]
  | cons t l ih =>
    rw [List.map_cons, sumOf_cons, ih, sumOf_cons]
    ring

/-- The expression for a variable has the value of the variable; past the end both are zero. -/
theorem formAt_value (s : Substitution Rat) (x : Nat → Rat) (i : Nat) :
    (s.formAt i).1 + ((s.formAt i).2.map fun t => t.2 * x t.1).sum = valueAt (s.image x) i := by
  simp only [formAt, valueAt, image, List.getD_eq_getElem?_getD, List.getElem?_map]
  cases s[i]? with
  | none => simp
  | some m => cases m <;> simp [Mapping.affineForm, Mapping.apply]

private theorem formAt_eq (s : Substitution Rat) (x : Nat → Rat) (i : Nat) :
    valueAt (s.image x) i = (s.formAt i).1 + sumOf x (s.formAt i).2 :=
  (s.formAt_value x i).symm

/-! ### Expanding -/

private theorem sum_linear (l : List (Nat × Rat)) :
    sumOf (valueAt (s.image x)) l = (l.map fun t => t.2 * (s.formAt t.1).1).sum +
      sumOf x (l.flatMap fun t => (s.formAt t.1).2.map fun u => (u.1, t.2 * u.2)) := by
  induction l with
  | nil => simp [sumOf]
  | cons t l ih =>
    rw [List.flatMap_cons, sumOf_append, sumOf_scaled, List.map_cons, List.sum_cons, sumOf_cons, ih,
      formAt_eq]
    ring

/-- The terms of degree two that come from one product. -/
private theorem sum_product (a : Rat) (l m : List (Nat × Rat)) :
    ((l.flatMap fun u => m.map fun v => (u.1, v.1, a * u.2 * v.2)).map
      fun t => t.2.2 * (x t.1 * x t.2.1)).sum = a * sumOf x l * sumOf x m := by
  induction l with
  | nil => simp [sumOf]
  | cons u l ih =>
    have hone : ((m.map fun v => (u.1, v.1, a * u.2 * v.2)).map
        fun t => t.2.2 * (x t.1 * x t.2.1)).sum = a * u.2 * x u.1 * sumOf x m := by
      clear ih
      induction m with
      | nil => simp [sumOf]
      | cons v m ih =>
        rw [List.map_cons, List.map_cons, List.sum_cons, ih, sumOf_cons]
        ring
    rw [List.flatMap_cons, List.map_append, List.sum_append, hone, ih, sumOf_cons]
    ring

private theorem sumOf_crossTerms (pair : Pair) (a : Rat) :
    sumOf x (s.crossTerms pair a) = a * (s.formAt pair.low).1 * sumOf x (s.formAt pair.high).2 +
      a * (s.formAt pair.high).1 * sumOf x (s.formAt pair.low).2 := by
  rw [crossTerms, sumOf_append, sumOf_scaled, sumOf_scaled]

private theorem sum_quadratic (l : List (Pair × Rat)) :
    (l.map fun t => t.2 * t.1.product (valueAt (s.image x))).sum =
      (l.map fun t => t.2 * (s.formAt t.1.low).1 * (s.formAt t.1.high).1).sum +
        sumOf x (l.flatMap fun t => s.crossTerms t.1 t.2) +
        ((l.flatMap fun t => (s.formAt t.1.low).2.flatMap fun u =>
          (s.formAt t.1.high).2.map fun v => (u.1, v.1, t.2 * u.2 * v.2)).map
            fun t => t.2.2 * (x t.1 * x t.2.1)).sum := by
  induction l with
  | nil => simp [sumOf]
  | cons t l ih =>
    rw [List.map_cons, List.sum_cons, ih, Pair.product, formAt_eq, formAt_eq]
    rw [List.map_cons, List.sum_cons, List.flatMap_cons, sumOf_append, sumOf_crossTerms,
      List.flatMap_cons, List.map_append, List.sum_append, sum_product]
    ring

/-- **Expanding keeps values.** What a linear and a quadratic expression expand to has the value of
both at the values of the affine expressions. -/
theorem evaluate_expand (s : Substitution Rat) (linear : Linear Rat) (quadratic : Quadratic Rat) :
    (s.expand linear quadratic).evaluate x =
      linear.value (valueAt (s.image x)) +
        quadratic.value (Pair.product (valueAt (s.image x))) := by
  have hlinear := sum_linear (s := s) (x := x) linear.toList
  have hquadratic := sum_quadratic (s := s) (x := x) quadratic.toList
  rw [Polynomial.evaluate_eq]
  simp only [expand, constants, linearTerms, products, Terms.value_ofList,
    Quadratic.value_ofProducts, ← List.sum_eq_foldl, List.sum_append, List.map_append]
  simp only [sumOf] at hlinear hquadratic
  rw [Terms.value, Terms.value, hlinear, hquadratic]
  ring

/-! ### Objectives and constraints -/

theorem evaluate_objective (s : Substitution Rat) (o : Objective Rat) :
    (s.objective o).evaluate x = o.evaluate (valueAt (s.image x)) := by
  have h := s.evaluate_expand (x := x) o.polynomial.linear o.polynomial.quadratic
  rw [Objective.evaluate, Polynomial.evaluate_eq, Objective.evaluate, Polynomial.evaluate_eq]
  rw [Polynomial.evaluate_eq] at h
  simp only [objective]
  linear_combination h

theorem evaluate_constraint (s : Substitution Rat) (c : Constraint Rat) :
    (s.constraint c).evaluate x - (s.constraint c).rhs =
      c.evaluate (valueAt (s.image x)) - c.rhs := by
  have h := s.evaluate_expand (x := x) c.linear c.quadratic
  rw [Constraint.evaluate_eq, Constraint.evaluate_eq]
  rw [Polynomial.evaluate_eq] at h
  simp only [constraint]
  linear_combination h

/-- Moving constants to the right-hand side does not matter. -/
theorem holds_constraint_iff {c : Constraint Rat} :
    (s.constraint c).Holds x ↔ c.Holds (valueAt (s.image x)) := by
  have h := s.evaluate_constraint (x := x) c
  have hrelation : (s.constraint c).relation = c.relation := rfl
  rw [Constraint.Holds, Constraint.Holds, hrelation]
  cases c.relation with
  | le => rw [Relation.Holds, Relation.Holds, ← sub_nonpos, h, sub_nonpos]
  | ge => rw [Relation.Holds, Relation.Holds, ← sub_nonneg, h, sub_nonneg]
  | eq => rw [Relation.Holds, Relation.Holds, ← sub_eq_zero, h, sub_eq_zero]

theorem isLinear_constraint {c : Constraint Rat} (h : c.isLinear = true) :
    (s.constraint c).isLinear = true := by
  simp [Constraint.isLinear, constraint, expand, products, Constraint.toList_quadratic h,
    Quadratic.ofProducts, Terms.ofList, Terms.addTerms, Terms.empty, Terms.isEmpty]

/-! ### The variables that are mentioned -/

/-- Every affine expression mentions the first `n` new variables only. -/
def Within (s : Substitution Rat) (n : Nat) : Prop := ∀ m ∈ s, ∀ i ∈ m.indices, i < n

theorem Within.mono (h : s.Within n) {k : Nat} (hk : n ≤ k) : s.Within k :=
  fun m hm i hi => (h m hm i hi).trans_le hk

theorem Within.formAt (h : s.Within n) {i : Nat} : ∀ t ∈ (s.formAt i).2, t.1 < n := by
  intro t ht
  rw [Substitution.formAt] at ht
  split at ht
  · rename_i m hm
    have hmem := List.mem_of_getElem? hm
    cases m with
    | identity index =>
      rw [Mapping.affineForm, List.mem_singleton] at ht
      exact h _ hmem t.1 (by simp [Mapping.indices, ht])
    | affine offset terms => exact h _ hmem t.1 (List.mem_map.mpr ⟨t, ht, rfl⟩)
  · simp at ht

theorem Within.expand (h : s.Within n) (linear : Linear Rat) (quadratic : Quadratic Rat) :
    (s.expand linear quadratic).Below n := by
  constructor
  · refine Terms.Within.ofList fun t ht => ?_
    simp only [linearTerms, crossTerms, List.mem_append, List.mem_flatMap, List.mem_map] at ht
    rcases ht with ⟨_, _, u, hu, rfl⟩ | ⟨_, _, ⟨u, hu, rfl⟩ | ⟨u, hu, rfl⟩⟩
    · exact h.formAt u hu
    · exact h.formAt u hu
    · exact h.formAt u hu
  · refine Terms.Within.ofList fun t ht => ?_
    simp only [products, List.mem_map, List.mem_flatMap] at ht
    obtain ⟨_, ⟨_, _, u, hu, v, hv, rfl⟩, rfl⟩ := ht
    exact Nat.max_lt.mpr ⟨h.formAt u hu, h.formAt v hv⟩

/-- Affine expressions over the first variables do not depend on the others. -/
theorem Within.image_congr (h : s.Within n) {y : Nat → Rat} (hxy : ∀ i < n, x i = y i) :
    s.image x = s.image y := by
  refine List.map_congr_left fun m hm => ?_
  cases m with
  | identity index => exact hxy index (h _ hm index (by simp [Mapping.indices]))
  | affine offset terms =>
    simp only [Mapping.apply]
    congr 2
    exact List.map_congr_left fun t ht => by
      rw [hxy t.1 (h _ hm t.1 (List.mem_map.mpr ⟨t, ht, rfl⟩))]

end Substitution

end QuboReduction

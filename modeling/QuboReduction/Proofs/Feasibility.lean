import QuboReduction.Proofs.Documents
import QuboReduction.Proofs.Magnitudes
import QuboReduction.Proofs.Violations

/-!
# Feasibility of vectors of doubles

There are two ways to ask whether a vector is feasible: that no violation is reported for it, and
that every constraint says of itself that it is satisfied. The first one looks for an amount above
the tolerance, the second one for an amount within it. The two agree on numbers. In doubles an
amount may be the value that is not a number, which is neither: an equality whose left-hand side
adds two opposite infinities is not satisfied and is not reported. The amount of an inequality is
always a number, as the positive part of what is not a number is zero.

What is found is sorted before it is counted, so an answer is sure only if the amounts can be
compared. They can as long as the values are numbers, be they infinite: a value that is not a number
is found with an amount that is none either.

## Main definitions

* `QuboReduction.Problem.admits` — all values are admissible.
* `QuboReduction.Constraint.isUndefinedAt` — an equality whose left-hand side is not a number.

## Main results

* `QuboReduction.Problem.WellFormed.isEmpty_findings`,
  `QuboReduction.Problem.WellFormed.isFeasible_eq` — when no violation is reported.
* `QuboReduction.Problem.forall_findings_isNaN_iff` — when the amounts that are found are numbers.
* `QuboReduction.Problem.isFeasible_of_finite_rhs` — feasibility of vectors of doubles.
-/

namespace QuboReduction

/-! ### Reported violations -/

section Scalars

variable {α : Type} [Scalar α] {p : Problem α} {values : List α} {x : Nat → α} {tolerance : α}

namespace Problem

/-- Whether every variable has an admissible value, up to a tolerance. -/
def admits (p : Problem α) (x : Nat → α) (tolerance : α) : Bool :=
  p.vars.all fun v => v.domain.contains (x v.index) tolerance

theorem isEmpty_domainViolations :
    (p.domainViolations x tolerance).isEmpty = p.admits x tolerance := by
  rw [Bool.eq_iff_iff, List.isEmpty_iff, domainViolations, List.filterMap_eq_nil_iff, admits,
    List.all_eq_true]
  simp

theorem isEmpty_constraintViolations : (p.constraintViolations x tolerance).isEmpty =
    p.constraints.all fun c => !decide (tolerance < c.violation x) := by
  rw [Bool.eq_iff_iff, List.isEmpty_iff, constraintViolations, List.filterMap_eq_nil_iff,
    List.all_eq_true]
  simp

/-- Nothing is found when the values are admissible and no constraint is violated by more than the
tolerance. -/
theorem WellFormed.isEmpty_findings (hp : p.WellFormed) (hlength : values.length = p.size) :
    (p.findings values tolerance).isEmpty = (p.admits (valueAt values) tolerance &&
      p.constraints.all fun c => !decide (tolerance < c.violation (valueAt values))) := by
  have happend : ∀ l m : List (Violation α), (l ++ m).isEmpty = (l.isEmpty && m.isEmpty) := by
    intro l m
    cases l <;> rfl
  rw [findings, ← hp.domainViolations_eq hlength, ← constraintViolations_eq, happend,
    isEmpty_domainViolations, isEmpty_constraintViolations]

/-- A vector of the right length is feasible when nothing is found. -/
theorem WellFormed.isFeasible_eq (hp : p.WellFormed) (hlength : values.length = p.size) :
    p.isFeasible values tolerance = .ok (p.findings values tolerance).isEmpty := by
  rw [isFeasible, hp.violations_eq hlength]
  exact congrArg Except.ok (List.mergeSort_perm _ _).isEmpty_eq

end Problem

end Scalars

/-! ### Violations in doubles -/

/-- The positive part of what is not a number is zero. -/
theorem Binary64.isNaN_positivePart (a : Float) : (Scalar.positivePart a).isNaN = false := by
  rw [Scalar.positivePart]
  split
  · rename_i hpos
    exact (Binary64.isNaN_of_lt hpos).2
  · exact Binary64.isNaN_of_isFinite Binary64.isFinite_zero

namespace Constraint

variable {c : Constraint Float} {x : Nat → Float} {tolerance : Float}

/-- Whether the constraint is an equality whose left-hand side is not a number. -/
def isUndefinedAt (c : Constraint Float) (x : Nat → Float) : Bool :=
  c.relation = .eq && (c.evaluate x).isNaN

/-- The amount of an inequality is a number also when its left-hand side is not. -/
theorem isNaN_violation (hrhs : c.rhs.isFinite = true) :
    (c.violation x).isNaN = c.isUndefinedAt x := by
  rw [violation, isUndefinedAt]
  cases hrelation : c.relation with
  | le => exact Binary64.isNaN_positivePart _
  | ge => exact Binary64.isNaN_positivePart _
  | eq => exact (Binary64.isNaN_abs _).trans (Binary64.isNaN_sub hrhs)

/-- A constraint that is not reported is satisfied, or it is an equality that is neither. -/
theorem not_lt_violation (hrhs : c.rhs.isFinite = true) (htolerance : 0 ≤ tolerance) :
    (!decide (tolerance < c.violation x)) = (c.isSatisfied x tolerance || c.isUndefinedAt x) := by
  have hnumber : tolerance.isNaN = false := by
    by_contra h
    exact Binary64.not_le_of_isNaN (Or.inr (Bool.eq_true_of_not_eq_false h)) htolerance
  rw [← isNaN_violation hrhs, isSatisfied, Bool.eq_iff_iff, Bool.not_eq_true',
    decide_eq_false_iff_not, Binary64.not_lt_iff, hnumber, Bool.or_eq_true, decide_eq_true_iff]
  simp

/-- A left-hand side whose terms stay in range together is a finite number. -/
theorem isFinite_evaluate {k l s : Nat}
    (hcoefficients : ∀ a ∈ c.coefficients, Binary64.AtMost (2 ^ k) a)
    (hx : ∀ i, Binary64.AtMost (2 ^ l) (x i)) (hlinear : c.linear.size ≤ 2 ^ s)
    (hquadratic : c.quadratic.size ≤ 2 ^ s) (hs : s ≤ 53) (hrange : k + 2 * l + s < 1023) :
    (c.evaluate x).isFinite = true := by
  obtain ⟨hone, htwo⟩ := List.forall_mem_append.mp hcoefficients
  have hlinear : Binary64.AtMost (2 ^ (k + 2 * l + s)) (c.linear.evaluate x) := by
    refine Binary64.AtMost.sum (k := k + l) (fun y hy => ?_) (by rwa [List.length_map]) hs
      (by omega) (by omega)
    obtain ⟨t, ht, rfl⟩ := List.mem_map.mp hy
    exact (hone _ (List.mem_map_of_mem ht)).mul_two_pow (hx t.1) le_rfl (by omega)
  have hquadratic : Binary64.AtMost (2 ^ (k + 2 * l + s)) (c.quadratic.evaluate x) := by
    refine Binary64.AtMost.sum (k := k + 2 * l) (fun y hy => ?_) (by rwa [List.length_map]) hs
      le_rfl (by omega)
    obtain ⟨t, ht, rfl⟩ := List.mem_map.mp hy
    have hlow := (htwo _ (List.mem_map_of_mem ht)).mul_two_pow (hx t.1.low) le_rfl (by omega)
    exact hlow.mul_two_pow (hx t.1.high) (by omega) (by omega)
  exact (hlinear.add_two_pow hquadratic (Nat.lt_succ_self _) (Nat.lt_succ_self _)
    (by omega)).isFinite

end Constraint

/-! ### Amounts that are found -/

/-- Integers of 64 bits are in the range of doubles. -/
theorem IsWord.isFinite_ofInt {n : Int} (h : IsWord n) :
    (Scalar.ofInt n : Float).isFinite = true := by
  obtain ⟨hlower, hupper⟩ := isWord_iff.mp h
  refine (Binary64.ofInt_atMost (.two_pow (k := 63) (by omega)) (abs_le.mpr ⟨?_, ?_⟩)).isFinite
  · exact_mod_cast hlower
  · exact_mod_cast hupper.le

/-- The distance of a value from the admissible values is a number exactly when the value is one. -/
theorem Violation.isNaN_ofVariable {v : Variable} (hwords : v.domain.InWords) (value : Float) :
    (Violation.ofVariable v value).amount.isNaN = value.isNaN := by
  refine (Binary64.isNaN_abs _).trans ?_
  cases hvalue : value.isNaN with
  | true => exact Binary64.isNaN_sub_of_isNaN hvalue
  | false =>
    have hnearest : (v.domain.nearest value).isFinite = true :=
      Binary64.isFinite_clamp hwords.1.isFinite_ofInt hwords.2.isFinite_ofInt
        (Binary64.isNaN_roundBy _ hvalue)
    rw [Binary64.isNaN_sub hnearest, hvalue]

/-- What is not a number is not admissible. -/
theorem Domain.contains_of_isNaN {d : Domain} {value tolerance : Float}
    (hvalue : value.isNaN = true) : d.contains value tolerance = false := by
  have hdistance : ¬Scalar.abs (value - Scalar.round value) ≤ tolerance :=
    Binary64.not_le_of_isNaN (Or.inl ((Binary64.isNaN_abs _).trans
      (Binary64.isNaN_sub_of_isNaN hvalue)))
  rw [contains, decide_eq_false hdistance, Bool.false_and, Bool.false_and]

namespace Problem

variable {p : Problem Float} {values : List Float} {tolerance : Float}

/-- **The amounts that are found are numbers** exactly when the values are. Constraints do not
matter, as an amount has to exceed the tolerance to be found. -/
theorem forall_findings_isNaN_iff (hwords : ∀ v ∈ p.vars, v.domain.InWords)
    (hlength : values.length = p.size) :
    (∀ w ∈ p.findings values tolerance, w.amount.isNaN = false) ↔
      ∀ a ∈ values, a.isNaN = false := by
  constructor
  · intro h a ha
    have hvalues : (p.vars.zip values).map Prod.snd = values :=
      List.map_snd_zip (by rw [hlength, size])
    obtain ⟨⟨v, a⟩, hmem, rfl⟩ := List.mem_map.mp (hvalues ▸ ha)
    by_contra hnumber
    have hnan : a.isNaN = true := Bool.eq_true_of_not_eq_false hnumber
    have hrejected : (!v.domain.contains a tolerance) = true := by
      rw [Domain.contains_of_isNaN hnan, Bool.not_false]
    have hfound : .ofVariable v a ∈ p.findings values tolerance :=
      List.mem_append_left _ (List.mem_map_of_mem (List.mem_filter.mpr ⟨hmem, hrejected⟩))
    rw [← Violation.isNaN_ofVariable (hwords v (List.of_mem_zip hmem).1), h _ hfound] at hnan
    contradiction
  · intro h w hw
    rcases List.mem_append.mp hw with hw | hw
    · obtain ⟨⟨v, a⟩, hmem, rfl⟩ := List.mem_map.mp hw
      obtain ⟨hv, ha⟩ := List.of_mem_zip (List.mem_filter.mp hmem).1
      rw [Violation.isNaN_ofVariable (hwords v hv), h a ha]
    · obtain ⟨c, hmem, rfl⟩ := List.mem_map.mp hw
      have hexceeds : tolerance < c.violation (valueAt values) := by
        simpa using (List.mem_filter.mp hmem).2
      exact (Binary64.isNaN_of_lt hexceeds).2

/-- Questions to all constraints have the same answer when they have it for each of them. -/
private theorem all_constraints_congr {f g : Constraint Float → Bool}
    (h : ∀ c ∈ p.constraints, f c = g c) : p.constraints.all f = p.constraints.all g := by
  rw [Bool.eq_iff_iff, List.all_eq_true, List.all_eq_true]
  exact forall₂_congr fun c hc => by rw [h c hc]

/-- **Feasibility and satisfaction in doubles.** Nothing is found that is wrong with a vector
exactly when its values are admissible and every constraint is satisfied or is an equality whose
left-hand side is not a number. That is also the answer to whether the vector is feasible if all
amounts that are found are numbers, so that they can be sorted; and they are when the values are
numbers. There are no such equalities when the products of a coefficient and of two values, as many
as there are terms, stay in the range of doubles. -/
theorem isFeasible_of_finite_rhs (hp : p.Reachable)
    (hwords : ∀ v ∈ p.vars, v.domain.InWords)
    (hrhs : ∀ c ∈ p.constraints, c.rhs.isFinite = true)
    (hlength : values.length = p.size) (htolerance : 0 ≤ tolerance) :
    ((p.findings values tolerance).isEmpty = (p.admits (valueAt values) tolerance &&
      p.constraints.all fun c =>
        c.isSatisfied (valueAt values) tolerance || c.isUndefinedAt (valueAt values))) ∧
    ((∀ w ∈ p.findings values tolerance, w.amount.isNaN = false) ↔
      ∀ a ∈ values, a.isNaN = false) ∧
    ((∀ w ∈ p.findings values tolerance, w.amount.isNaN = false) →
      p.isFeasible values tolerance = .ok (p.admits (valueAt values) tolerance &&
        p.constraints.all fun c =>
          c.isSatisfied (valueAt values) tolerance || c.isUndefinedAt (valueAt values))) ∧
    ∀ k l s : Nat, (∀ c ∈ p.constraints, ∀ a ∈ c.coefficients, Binary64.AtMost (2 ^ k) a) →
      (∀ a ∈ values, Binary64.AtMost (2 ^ l) a) →
      (∀ c ∈ p.constraints, c.linear.size ≤ 2 ^ s ∧ c.quadratic.size ≤ 2 ^ s) →
      s ≤ 53 → k + 2 * l + s < 1023 →
        p.isFeasible values tolerance = .ok (p.admits (valueAt values) tolerance &&
          p.constraints.all fun c => c.isSatisfied (valueAt values) tolerance) := by
  have hfound : (p.findings values tolerance).isEmpty = (p.admits (valueAt values) tolerance &&
      p.constraints.all fun c =>
        c.isSatisfied (valueAt values) tolerance || c.isUndefinedAt (valueAt values)) := by
    rw [hp.wellFormed.isEmpty_findings hlength]
    congr 1
    exact all_constraints_congr fun c hc => Constraint.not_lt_violation (hrhs c hc) htolerance
  have hnumbers : (∀ w ∈ p.findings values tolerance, w.amount.isNaN = false) ↔
      ∀ a ∈ values, a.isNaN = false := forall_findings_isNaN_iff hwords hlength
  have hanswer : (∀ w ∈ p.findings values tolerance, w.amount.isNaN = false) →
      p.isFeasible values tolerance = .ok (p.admits (valueAt values) tolerance &&
        p.constraints.all fun c =>
          c.isSatisfied (valueAt values) tolerance || c.isUndefinedAt (valueAt values)) :=
    fun _ => by rw [hp.wellFormed.isFeasible_eq hlength, hfound]
  refine ⟨hfound, hnumbers, hanswer, fun k l s hcoefficients hvalues hcounts hs hrange => ?_⟩
  have hfinite : ∀ a ∈ values, a.isNaN = false := fun a ha =>
    Binary64.isNaN_of_isFinite (hvalues a ha).isFinite
  refine (hanswer (hnumbers.mpr hfinite)).trans ?_
  have hx : ∀ i, Binary64.AtMost (2 ^ l) (valueAt values i) := by
    intro i
    rcases lt_or_ge i values.length with hi | hi
    · rw [valueAt, List.getD_eq_getElem _ _ hi]
      exact hvalues _ (List.getElem_mem hi)
    · rw [valueAt, List.getD_eq_default _ _ hi]
      exact Binary64.zero_atMost (by positivity)
  congr 2
  refine all_constraints_congr fun c hc => ?_
  have hfinite := Constraint.isFinite_evaluate (hcoefficients c hc) hx (hcounts c hc).1
    (hcounts c hc).2 hs hrange
  rw [Constraint.isUndefinedAt, Binary64.isNaN_of_isFinite hfinite, Bool.and_false, Bool.or_false]

end Problem

/-- Two integers of at most two, `3 * x - 4 * y` being two. -/
def metering : Problem Float where
  name := "metering"
  vars := [⟨"x", .integer 0 2, 0⟩, ⟨"y", .integer 0 2, 1⟩]
  objective := Objective.zero
  constraints := [.ofLinear "c" (Terms.ofList [(0, 3), (1, -4)]) .eq 2]

/-- The coefficients of the metering problem are at most `2 ^ 2`, so `[2, 1]` is feasible because it
is admissible and satisfies the equality. An infinite value is a number too, and not admissible. -/
theorem metering_feasible :
    metering.isFeasible [2, 1] 0 = .ok true ∧ metering.isFeasible [2, 1.0 / 0.0] 0 = .ok false := by
  have hbuilt : metering.Built := Problem.built_iff_assemble_eq.mpr rfl
  have hreachable := Problem.reachable_iff_built.mpr hbuilt
  have hwords : ∀ v ∈ metering.vars, v.domain.InWords := by
    simp [metering, Domain.InWords, isWord_iff, Domain.lower, Domain.upper]
  have hrhs : ∀ c ∈ metering.constraints, c.rhs.isFinite = true := by decide +kernel
  have htolerance : (0 : Float) ≤ 0 := by decide +kernel
  constructor
  · have hlength : ([2, 1] : List Float).length = metering.size := rfl
    obtain ⟨-, -, -, hrange⟩ :=
      Problem.isFeasible_of_finite_rhs hreachable hwords hrhs hlength htolerance
    have hfeasible := hrange 2 1 1 (by decide +kernel) (by decide +kernel) (by decide +kernel)
      (by decide) (by decide)
    exact hfeasible.trans (congrArg Except.ok (by decide +kernel))
  · have hlength : ([2, 1.0 / 0.0] : List Float).length = metering.size := rfl
    obtain ⟨-, hnumbers, hanswer, -⟩ :=
      Problem.isFeasible_of_finite_rhs hreachable hwords hrhs hlength htolerance
    exact (hanswer (hnumbers.mpr (by decide +kernel))).trans
      (congrArg Except.ok (by decide +kernel))

/-- Multiples of `1e308` that are taken from each other. -/
def oppositeTerms : Linear Float :=
  ⟨[(0, 1e308), (1, -1e308)], by decide, by decide +kernel⟩

/-- Two integers of at most two, with multiples of `1e308` that are to differ by one. -/
def cancelling : Problem Float where
  name := "cancelling"
  vars := [⟨"x", .integer 0 2, 0⟩, ⟨"y", .integer 0 2, 1⟩]
  objective := Objective.zero
  constraints := [.ofLinear "c" oppositeTerms .eq 1]

/-- **An equality that is not satisfied and not reported.** Both multiples overflow at `[2, 2]`, so
the left-hand side is not a number. -/
theorem cancelling_overlooked :
    cancelling.Reachable ∧ cancelling.AllFinite ∧ (0 : Float) ≤ 1e-9 ∧
      cancelling.isFeasible [2, 2] 1e-9 = .ok true ∧
      cancelling.admits (valueAt [2, 2]) 1e-9 = true ∧
      ∃ c ∈ cancelling.constraints, c.isSatisfied (valueAt [2, 2]) 1e-9 = false := by
  have hbuilt : cancelling.Built := Problem.built_iff_assemble_eq.mpr rfl
  refine ⟨Problem.reachable_iff_built.mpr hbuilt, by decide +kernel, by decide +kernel, ?_,
    by decide +kernel, by decide +kernel⟩
  have hlength : ([2, 2] : List Float).length = cancelling.size := rfl
  exact (hbuilt.wellFormed.isFeasible_eq hlength).trans (congrArg Except.ok (by decide +kernel))

end QuboReduction

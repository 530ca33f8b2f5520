import Mathlib.Algebra.Order.Round
import QuboReduction.Proofs.Violations

/-!
# Values near a range

A value is accepted for a variable when it rounds to an integer of the range and is within the
tolerance of it. A value that is not accepted is reported with the integer to which it rounds,
brought into the range. Over the rational numbers both are about the same integer, one of the range
at the smallest distance: with a tolerance below one half a value is accepted exactly when this
distance is within the tolerance, whichever way halves are rounded and on whichever side of the
range the value is.

## Main definitions

* `QuboReduction.Domain.IsNearest` — an admissible value at the smallest distance.

## Main results

* `QuboReduction.Rational.abs_sub_nearest_le`, `QuboReduction.Rational.nearest_eq_of_abs_lt` — the
  integer to which a number rounds.
* `QuboReduction.Domain.isNearest_nearest` — the reported value is the nearest one.
* `QuboReduction.Domain.contains_iff_exists_near` — accepted values.
* `QuboReduction.Domain.contains_iff_and_reported` — accepted and reported values.
-/

namespace QuboReduction

/-! ### Rounding -/

namespace Rational

/-- A half goes away from zero on either side of it. -/
theorem nearest_eq (a : Rat) : nearest a = if a < 0 then -round (-a) else round a := by
  rw [nearest, round_eq, round_eq]
  rfl

/-- No integer is nearer than the one to which a number rounds. -/
theorem abs_sub_nearest_le (a : Rat) (k : Int) : |a - nearest a| ≤ |a - k| := by
  rw [nearest_eq]
  split
  · calc |a - (-round (-a) : Int)| = |-a - round (-a)| := by
          rw [← abs_neg]
          push_cast
          ring_nf
      _ ≤ |-a - (-k : Int)| := round_le (-a) (-k)
      _ = |a - k| := by
          rw [← abs_neg]
          push_cast
          ring_nf
  · exact round_le a k

/-- A number that is nearer to an integer than one half rounds to it. -/
theorem nearest_eq_of_abs_lt {a : Rat} {k : Int} (h : |a - k| < 1 / 2) : nearest a = k := by
  have hnearest : |a - nearest a| ≤ |a - k| := abs_sub_nearest_le a k
  have hdistance : |((nearest a - k : Int) : Rat)| < 1 :=
    calc |((nearest a - k : Int) : Rat)| = |(a - k) - (a - nearest a)| := by
          push_cast
          ring_nf
      _ ≤ |a - k| + |a - nearest a| := abs_sub _ _
      _ < 1 := by linarith
  have hzero : |nearest a - k| < 1 := by exact_mod_cast hdistance
  exact sub_eq_zero.mp (Int.abs_lt_one_iff.mp hzero)

/-- A number that rounds below an integer is not above it. -/
theorem le_of_nearest_lt {a : Rat} {k : Int} (h : nearest a < k) : a ≤ k := by
  have hn : (nearest a : Rat) < k := by exact_mod_cast h
  by_contra! hlt
  have hnearest : |a - nearest a| ≤ |a - k| := abs_sub_nearest_le a k
  rw [abs_of_pos (by linarith), abs_of_pos (by linarith)] at hnearest
  linarith

/-- A number that rounds above an integer is not below it. -/
theorem le_of_lt_nearest {a : Rat} {k : Int} (h : k < nearest a) : k ≤ a := by
  have hn : (k : Rat) < nearest a := by exact_mod_cast h
  by_contra! hlt
  have hnearest : |a - nearest a| ≤ |a - k| := abs_sub_nearest_le a k
  rw [abs_of_neg (by linarith), abs_of_neg (by linarith)] at hnearest
  linarith

end Rational

/-! ### Ranges -/

namespace Domain

variable {d : Domain} {a b t : Rat}

/-- A value that is admissible and at the smallest distance from another one. -/
structure IsNearest (d : Domain) (a b : Rat) : Prop where
  /-- The value is an integer of the range. -/
  admits : d.Admits b
  /-- No integer of the range is nearer. -/
  abs_sub_le : ∀ k : Int, d.lower ≤ k → k ≤ d.upper → |a - b| ≤ |a - k|

/-- **The value that is reported** as required is an admissible one at the smallest distance. -/
theorem isNearest_nearest (hbounds : d.lower ≤ d.upper) (a : Rat) :
    d.IsNearest a (d.nearest a) := by
  have hclamp : (d.nearest a : Rat) =
      Scalar.clamp (d.lower : Rat) d.upper (Rational.nearest a : Int) := rfl
  rw [hclamp, Scalar.clamp]
  simp only [Int.cast_lt]
  rcases lt_or_ge (Rational.nearest a) d.lower with hlower | hlower
  · -- the value is below the range
    have ha : a ≤ d.lower := Rational.le_of_nearest_lt hlower
    rw [if_pos hlower, if_neg (not_lt.mpr (by exact_mod_cast hbounds))]
    refine ⟨⟨d.lower, rfl, le_rfl, hbounds⟩, fun k hk _ => ?_⟩
    have hk : (d.lower : Rat) ≤ k := by exact_mod_cast hk
    rw [abs_of_nonpos (by linarith), abs_of_nonpos (by linarith)]
    linarith
  · rw [if_neg (not_lt.mpr hlower)]
    rcases lt_or_ge d.upper (Rational.nearest a) with hupper | hupper
    · -- the value is above the range
      have ha : d.upper ≤ a := Rational.le_of_lt_nearest hupper
      rw [if_pos (by exact_mod_cast hupper)]
      refine ⟨⟨d.upper, rfl, hbounds, le_rfl⟩, fun k _ hk => ?_⟩
      have hk : (k : Rat) ≤ d.upper := by exact_mod_cast hk
      rw [abs_of_nonneg (by linarith), abs_of_nonneg (by linarith)]
      linarith
    · rw [if_neg (not_lt.mpr (by exact_mod_cast hupper))]
      exact ⟨⟨Rational.nearest a, rfl, hlower, hupper⟩,
        fun k _ _ => Rational.abs_sub_nearest_le a k⟩

/-- A value is accepted exactly when an integer of the range is within the tolerance. -/
theorem contains_iff_exists_near (ht : t < 1 / 2) :
    d.contains a t = true ↔ ∃ k : Int, d.lower ≤ k ∧ k ≤ d.upper ∧ |a - k| ≤ t := by
  have hround : (Scalar.round a : Rat) = (Rational.nearest a : Int) := rfl
  simp only [contains, Bool.and_eq_true, decide_eq_true_eq, Scalar.abs_rat, Scalar.ofInt_rat,
    hround, Int.cast_le]
  constructor
  · rintro ⟨⟨hnear, hlower⟩, hupper⟩
    exact ⟨Rational.nearest a, hlower, hupper, hnear⟩
  · rintro ⟨k, hlower, hupper, hnear⟩
    rw [Rational.nearest_eq_of_abs_lt (hnear.trans_lt ht)]
    exact ⟨⟨hnear, hlower⟩, hupper⟩

end Domain

/-! ### Reports -/

namespace Problem

variable {α : Type} [Scalar α] {p : Problem α} {values : List α} {tolerance : α} {v : Variable}

/-- A value that is not accepted is found. -/
theorem WellFormed.ofVariable_mem_findings (hp : p.WellFormed) (hlength : values.length = p.size)
    (hv : v ∈ p.vars) (h : v.domain.contains (valueAt values v.index) tolerance = false) :
    .ofVariable v (valueAt values v.index) ∈ p.findings values tolerance := by
  refine List.mem_append_left _ (List.mem_map.mpr ⟨(v, valueAt values v.index), ?_, rfl⟩)
  rw [hp.zip_values hlength]
  exact List.mem_filter.mpr ⟨List.mem_map_of_mem hv, by simpa using h⟩

/-- What is found about the value of a variable is one finding. -/
theorem WellFormed.eq_ofVariable_of_mem_findings (hp : p.WellFormed)
    (hlength : values.length = p.size) (hv : v ∈ p.vars) {w : Violation α}
    (hw : w ∈ p.findings values tolerance) (hname : w.name = v.name) {d : Domain}
    (hrequirement : w.requirement = .member d) :
    w = .ofVariable v (valueAt values v.index) := by
  rcases List.mem_append.mp hw with hw | hw
  · obtain ⟨q, hq, rfl⟩ := List.mem_map.mp hw
    rw [hp.zip_values hlength] at hq
    obtain ⟨u, hu, rfl⟩ := List.mem_map.mp (List.mem_filter.mp hq).1
    rw [List.inj_on_of_nodup_map hp.variableNames_nodup hu hv hname]
  · obtain ⟨c, -, rfl⟩ := List.mem_map.mp hw
    contradiction

end Problem

/-- **Accepted and reported values.** With a tolerance below one half a value is accepted for a
variable exactly when an integer of its range is within the tolerance. Otherwise the report on the
vector has one entry for the variable. The value that it requires is an integer of the range at the
smallest distance, its amount is this distance, and the amount exceeds the tolerance. -/
theorem Domain.contains_iff_and_reported (d : Domain) (hbounds : d.lower ≤ d.upper)
    (a tolerance : Rat) (hhalf : tolerance < 1 / 2) :
    (d.contains a tolerance = true ↔
        ∃ k : Int, d.lower ≤ k ∧ k ≤ d.upper ∧ |a - k| ≤ tolerance) ∧
      (d.contains a tolerance = false →
        ∀ (p : Problem Rat) (values : List Rat) (v : Variable), p.Reachable →
          values.length = p.size → v ∈ p.vars → v.domain = d → valueAt values v.index = a →
          ∃ report, p.violations values tolerance = .ok report ∧
            ∃ w ∈ report, (w.name = v.name ∧ w.requirement = .member d) ∧
              (∀ u ∈ report, u.name = v.name ∧ u.requirement = .member d → u = w) ∧
              d.IsNearest a w.required ∧ w.actual = a ∧ w.amount = |a - w.required| ∧
              tolerance < w.amount) := by
  refine ⟨contains_iff_exists_near hhalf, ?_⟩
  rintro hrefused p values v hp hlength hv rfl rfl
  have hreport : p.violations values tolerance = .ok _ := hp.wellFormed.violations_eq hlength
  have hperm := hp.wellFormed.perm_findings hlength hreport
  have hnearest := isNearest_nearest hbounds (valueAt values v.index)
  have hamount : (Violation.ofVariable v (valueAt values v.index)).amount =
      |valueAt values v.index - v.domain.nearest (valueAt values v.index)| := Scalar.abs_rat _
  refine ⟨_, hreport, .ofVariable v (valueAt values v.index),
    hperm.mem_iff.mpr (hp.wellFormed.ofVariable_mem_findings hlength hv hrefused), ⟨rfl, rfl⟩,
    fun u hu h => ?_, hnearest, rfl, hamount, ?_⟩
  · exact hp.wellFormed.eq_ofVariable_of_mem_findings hlength hv (hperm.mem_iff.mp hu) h.1 h.2
  · -- an integer of the range within the tolerance would have been accepted
    rw [hamount]
    by_contra! hnear
    obtain ⟨k, hk, hlower, hupper⟩ := hnearest.admits
    rw [hk] at hnear
    have haccepted := (contains_iff_exists_near hhalf).mpr ⟨k, hlower, hupper, hnear⟩
    rw [haccepted] at hrefused
    contradiction

/-- A binary variable, an integer from minus three to two, and a constraint of the same name. -/
def levelling : Problem Rat where
  name := "levelling"
  vars := [⟨"x", .binary, 0⟩, ⟨"n", .integer (-3) 2, 1⟩]
  objective := Objective.zero
  constraints := [.ofLinear "n" (Terms.ofList [(0, 1), (1, 1)]) .le 0]

/-- Just below the range a value is accepted. Further above it the report requires the upper bound,
apart from what it says of the constraint of the same name. -/
theorem levelling_reported :
    (Domain.integer (-3) 2).contains (-31 / 10 : Rat) (1 / 5) = true ∧
      ∃ report, levelling.violations [1, 9 / 4] (1 / 5) = .ok report ∧
        ∃ w ∈ report, w.name = "n" ∧ w.requirement = .member (.integer (-3) 2) ∧
          w.required = 2 ∧ w.amount = 1 / 4 := by
  have hbounds : (Domain.integer (-3) 2).lower ≤ (Domain.integer (-3) 2).upper := by decide
  have hhalf : (1 / 5 : Rat) < 1 / 2 := by norm_num
  obtain ⟨haccepted, -⟩ := Domain.contains_iff_and_reported _ hbounds (-31 / 10) _ hhalf
  obtain ⟨-, hreported⟩ := Domain.contains_iff_and_reported _ hbounds (9 / 4) _ hhalf
  have hbuilt : levelling.Built := Problem.built_iff_assemble_eq.mpr rfl
  obtain ⟨report, hreport, w, hw, ⟨hname, hrequirement⟩, -, hnearest, -, hamount, -⟩ :=
    hreported (by decide +kernel) levelling [1, 9 / 4] ⟨"n", .integer (-3) 2, 1⟩
      (Problem.reachable_iff_built.mpr hbuilt) rfl (by decide) rfl rfl
  have hrequired : w.required = 2 := by
    obtain ⟨k, hk, -, hupper⟩ := hnearest.admits
    have hnear := hnearest.abs_sub_le 2 (by decide) (by decide)
    rw [hk] at hnear ⊢
    have hlower : 9 / 4 - (k : Rat) ≤ 1 / 4 :=
      ((le_abs_self _).trans hnear).trans (by norm_num [abs_of_pos])
    have hle : (2 : Rat) ≤ k := by linarith
    have hupper : (k : Rat) ≤ 2 := by exact_mod_cast hupper
    exact le_antisymm hupper hle
  refine ⟨haccepted.mpr ⟨-3, by decide, by decide, ?_⟩, report, hreport, w, hw, hname,
    hrequirement, hrequired, ?_⟩
  · norm_num [abs_of_neg]
  · rw [hamount, hrequired]
    norm_num [abs_of_pos]

end QuboReduction

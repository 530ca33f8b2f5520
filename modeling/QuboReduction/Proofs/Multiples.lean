import QuboReduction.Proofs.Decision

/-!
# Multiples and negations of inequalities

The same inequality can be written in many ways: both sides may be multiplied by a positive number,
or negated with the direction of the comparison turned around. The range of the left-hand side and
the common divisor of the coefficients are multiplied along with the sides, so the gap stays, and
turning the direction exchanges the two ends of the range and the two directions of rounding.

## Main definitions

* `QuboReduction.Constraint.multiply`, `QuboReduction.Constraint.negate` — the constraint with its
  sides multiplied or negated.

## Main results

* `QuboReduction.Problem.rangeOf_multiply` — the range of a multiple.
* `QuboReduction.Constraint.divisor_multiply`, `QuboReduction.Constraint.divisor_negate` — the
  common divisor.
* `QuboReduction.Problem.slackRange_multiply`, `QuboReduction.Problem.slackRange_negate` — the range
  of the gap.
* `QuboReduction.Constraint.tightened_multiply`, `QuboReduction.Constraint.tightened_negate` — the
  equality that an inequality becomes.
-/

namespace QuboReduction

/-! ### Multiples of ranges -/

namespace Interval

variable {i j : Interval Rat}

theorem scale_hull (k a b : Rat) : (hull a b).scale k = hull (k * a) (k * b) := by
  simp only [scale, hull_eq]
  rcases le_total a b with h | h
  · rw [min_eq_left h, max_eq_right h]
  · rw [min_eq_right h, max_eq_left h, min_comm, max_comm]

theorem scale_scale (i : Interval Rat) (coef k : Rat) :
    (i.scale coef).scale k = i.scale (coef * k) := by
  rw [scale.eq_1 coef, scale_hull, scale, ← mul_assoc, ← mul_assoc, mul_comm k]

theorem lower_le_upper_hull (a b : Rat) : (hull a b).lower ≤ (hull a b).upper := by
  rw [hull_eq]
  exact min_le_max

theorem lower_le_upper_union (hi : i.lower ≤ i.upper) : (i.union j).lower ≤ (i.union j).upper := by
  simp only [union, Scalar.least_rat, Scalar.greatest_rat]
  exact (min_le_left _ _).trans (hi.trans (le_max_left _ _))

theorem scale_add (hi : i.lower ≤ i.upper) (hj : j.lower ≤ j.upper) (k : Rat) :
    (i.add j).scale k = (i.scale k).add (j.scale k) := by
  rw [scale_eq (i := i.add j) (add_le_add hi hj), scale_eq hi, scale_eq hj]
  split <;> simp only [add, mul_add]

theorem scale_union (hi : i.lower ≤ i.upper) (hj : j.lower ≤ j.upper) (k : Rat) :
    (i.union j).scale k = (i.scale k).union (j.scale k) := by
  rw [scale_eq (lower_le_upper_union hi), scale_eq hi, scale_eq hj]
  simp only [union, Scalar.least_rat, Scalar.greatest_rat]
  split
  · rename_i hk
    have hanti : Antitone fun a : Rat => k * a := antitone_mul_left hk.le
    rw [mk.injEq]
    exact ⟨hanti.map_max, hanti.map_min⟩
  · rename_i hk
    rw [mk.injEq]
    exact ⟨mul_min_of_nonneg _ _ (not_lt.mp hk), mul_max_of_nonneg _ _ (not_lt.mp hk)⟩

theorem scaleProduct_mul (i j : Interval Rat) (coef k : Rat) :
    i.scaleProduct (coef * k) j = (i.scaleProduct coef j).scale k := by
  rw [scaleProduct, scaleProduct, scale_union (lower_le_upper_hull _ _) (lower_le_upper_hull _ _),
    scale_hull, scale_hull]
  simp only [mul_comm coef k, mul_assoc]

theorem scale_foldl {l : List (Interval Rat)} (hl : ∀ j ∈ l, j.lower ≤ j.upper)
    (hi : i.lower ≤ i.upper) (k : Rat) :
    (l.foldl add i).scale k = (l.map fun j => j.scale k).foldl add (i.scale k) := by
  induction l generalizing i with
  | nil => rfl
  | cons j l ih =>
    obtain ⟨hj, hl⟩ := List.forall_mem_cons.mp hl
    rw [List.foldl_cons, ih hl (i := i.add j) (add_le_add hi hj), scale_add hi hj, List.map_cons,
      List.foldl_cons]

end Interval

/-! ### Multiples of constraints -/

namespace Constraint

/-- Both sides multiplied by a number. -/
def multiply (c : Constraint Rat) (k : Rat) : Constraint Rat :=
  { c with linear := c.linear.scale k, quadratic := c.quadratic.scale k, rhs := c.rhs * k }

/-- Both sides negated, and the direction of the comparison turned around. -/
def negate (c : Constraint Rat) : Constraint Rat :=
  { c.multiply (-1) with relation := c.relation.flip }

variable {c : Constraint Rat} {k : Rat} {x : Nat → Rat}

@[simp] theorem name_negate (c : Constraint Rat) : c.negate.name = c.name := rfl

theorem evaluate_multiply (c : Constraint Rat) (k : Rat) (x : Nat → Rat) :
    (c.multiply k).evaluate x = k * c.evaluate x := by
  simp only [evaluate_eq, multiply, Terms.value_scale]
  ring

/-- A positive multiple says the same. -/
theorem holds_multiply_iff (hk : 0 < k) : (c.multiply k).Holds x ↔ c.Holds x := by
  have hle : ∀ a b : Rat, k * a ≤ b * k ↔ a ≤ b := fun a b => by
    rw [mul_comm b, mul_le_mul_iff_right₀ hk]
  have hge : ∀ a b : Rat, b * k ≤ k * a ↔ b ≤ a := fun a b => by
    rw [mul_comm b, mul_le_mul_iff_right₀ hk]
  have heq : ∀ a b : Rat, k * a = b * k ↔ a = b := fun a b => by
    rw [mul_comm b, mul_right_inj' hk.ne']
  rw [Holds, evaluate_multiply, Holds]
  simp only [multiply]
  cases c.relation with
  | le => exact hle _ _
  | ge => exact hge _ _
  | eq => exact heq _ _

theorem coefficients_multiply (hk : k ≠ 0) :
    (c.multiply k).coefficients = c.coefficients.map fun a => a * k := by
  simp only [coefficients, multiply, Terms.coefficients, Terms.toList_scale hk, List.map_append,
    List.map_map]
  rfl

theorem coefficients_negate (c : Constraint Rat) :
    c.negate.coefficients = c.coefficients.map fun a => -a := by
  have h := coefficients_multiply (c := c) (k := -1) (by norm_num)
  simp only [mul_neg_one] at h
  exact h

theorem ne_zero_of_mem_coefficients {a : Rat} (ha : a ∈ c.coefficients) : a ≠ 0 := by
  simp only [coefficients, List.mem_append, Terms.coefficients, List.mem_map] at ha
  rcases ha with ⟨t, ht, rfl⟩ | ⟨t, ht, rfl⟩
  · simpa using c.linear.nonzero t ht
  · simpa using c.quadratic.nonzero t ht

/-! ### Integer coefficients and their common divisor -/

theorem IsRegular.multiply (hc : c.IsRegular) {n : Nat} (hn : 1 ≤ n) :
    (c.multiply n).IsRegular := by
  have hne : (n : Rat) ≠ 0 := by exact_mod_cast (Nat.lt_of_succ_le hn).ne'
  rw [IsRegular, coefficients_multiply hne, List.forall_mem_map]
  exact fun a ha => (hc a ha).mul (IsInteger.intCast n)

/-- The coefficients are at most as large as their multiples. -/
theorem IsExact.of_multiply {n : Nat} (hn : 1 ≤ n) (hc : (c.multiply n).IsExact) : c.IsExact := by
  have hone : (1 : Rat) ≤ n := by exact_mod_cast hn
  rw [IsExact, coefficients_multiply (zero_lt_one.trans_le hone).ne', List.forall_mem_map] at hc
  intro a ha
  have hle := hc a ha
  rw [abs_mul, abs_of_nonneg (zero_le_one.trans hone)] at hle
  exact (le_mul_of_one_le_right (abs_nonneg a) hone).trans hle

theorem isRegular_negate_iff : c.negate.IsRegular ↔ c.IsRegular := by
  have hneg : ∀ a : Rat, IsInteger (-a) ↔ IsInteger a := fun a =>
    ⟨fun h => by simpa using h.neg, IsInteger.neg⟩
  simp only [IsRegular, coefficients_negate, List.forall_mem_map, hneg]

theorem isExact_negate_iff : c.negate.IsExact ↔ c.IsExact := by
  simp only [IsExact, coefficients_negate, List.forall_mem_map, abs_neg]

private theorem natAbs_mul {a : Rat} (ha : IsInteger a) (n : Nat) :
    (Scalar.truncate (Scalar.abs (a * n))).toNat =
      (Scalar.truncate (Scalar.abs a)).toNat * n := by
  obtain ⟨m, rfl⟩ := ha
  have hmul : (m : Rat) * n = ((m * n : Int) : Rat) := by push_cast; rfl
  rw [hmul, truncate_abs_intCast, truncate_abs_intCast, Int.natAbs_mul, Int.natAbs_natCast]

/-- The divisor of a multiple, if there are coefficients at all. -/
theorem divisor_multiply (hc : c.IsRegular) (hne : c.coefficients ≠ []) {n : Nat} (hn : 1 ≤ n) :
    (c.multiply n).divisor = c.divisor * n := by
  have hpos : (n : Rat) ≠ 0 := by exact_mod_cast (Nat.lt_of_succ_le hn).ne'
  have hmem : ∀ {a}, a ∈ c.coefficients → a * n ∈ (c.multiply n).coefficients := fun {a} ha => by
    rw [coefficients_multiply hpos]
    exact List.mem_map.mpr ⟨a, ha, rfl⟩
  obtain ⟨a, ha⟩ := List.exists_mem_of_ne_nil _ hne
  have hzero : (Scalar.truncate (Scalar.abs a)).toNat ≠ 0 := by
    obtain ⟨m, rfl⟩ := hc a ha
    have hm : m ≠ 0 := by exact_mod_cast ne_zero_of_mem_coefficients ha
    rw [truncate_abs_intCast]
    exact Int.natAbs_ne_zero.mpr hm
  have hzero' : (Scalar.truncate (Scalar.abs (a * n))).toNat ≠ 0 := by
    rw [natAbs_mul (hc a ha)]
    exact Nat.mul_ne_zero hzero (Nat.lt_of_succ_le hn).ne'
  have hall : ∀ {k : Nat}, (∀ a ∈ c.coefficients, k ∣ (Scalar.truncate (Scalar.abs a)).toNat * n) →
      k ∣ (c.multiply n).divisor := fun {k} hk => by
    refine dvd_divisor (hmem ha) hzero' ?_
    rw [coefficients_multiply hpos, List.forall_mem_map]
    exact fun b hb => natAbs_mul (hc b hb) n ▸ hk b hb
  refine Nat.dvd_antisymm ?_ (hall fun b hb => Nat.mul_dvd_mul_right (divisor_dvd hb) n)
  -- the divisor of the multiple is a multiple of the factor, and what remains divides all
  obtain ⟨d, hd⟩ := hall (k := n) fun b _ => Nat.dvd_mul_left n _
  rw [hd, Nat.mul_comm n]
  refine Nat.mul_dvd_mul_right (dvd_divisor ha hzero fun b hb => ?_) n
  have hdvd := divisor_dvd (hmem hb)
  rw [natAbs_mul (hc b hb), hd, Nat.mul_comm] at hdvd
  exact Nat.dvd_of_mul_dvd_mul_right (Nat.lt_of_succ_le hn) hdvd

theorem divisor_negate (c : Constraint Rat) : c.negate.divisor = c.divisor := by
  simp only [divisor, coefficients_negate, List.foldl_map, Scalar.abs_rat, abs_neg]

end Constraint

/-! ### Ranges and gaps -/

namespace Problem

variable {p : Problem Rat} {c : Constraint Rat}

theorem lower_le_upper_pairRange (p : Problem Rat) (pair : Pair) (coef : Rat) :
    (p.pairRange pair coef).lower ≤ (p.pairRange pair coef).upper := by
  rw [pairRange]
  split
  · exact Interval.lower_le_upper_hull _ _
  · exact Interval.lower_le_upper_union (Interval.lower_le_upper_hull _ _)

theorem pairRange_mul (p : Problem Rat) (pair : Pair) (coef k : Rat) :
    p.pairRange pair (coef * k) = (p.pairRange pair coef).scale k := by
  rw [pairRange, pairRange]
  split
  · rw [Interval.scale_scale]
  · rw [Interval.scaleProduct_mul]

/-- The range of every term of a constraint is in order. -/
private theorem lower_le_upper_terms (p : Problem Rat) (c : Constraint Rat) :
    ∀ j ∈ (c.linear.toList.map fun t => (p.boundsAt t.1).scale t.2) ++
      c.quadratic.toList.map fun t => p.pairRange t.1 t.2, j.lower ≤ j.upper := by
  rw [List.forall_mem_append, List.forall_mem_map, List.forall_mem_map]
  exact ⟨fun t _ => Interval.lower_le_upper_hull _ _, fun t _ => p.lower_le_upper_pairRange t.1 t.2⟩

/-- **Multiples of ranges.** The range of a multiple is the multiple of the range. -/
theorem rangeOf_multiply (p : Problem Rat) (c : Constraint Rat) {k : Rat} (hk : k ≠ 0) :
    p.rangeOf (c.multiply k) = (p.rangeOf c).scale k := by
  have hstart : Interval.scale k ⟨0, 0⟩ = ⟨0, 0⟩ := by
    rw [Interval.scale_eq le_rfl]
    simp
  rw [rangeOf, rangeOf, Interval.scale_foldl (p.lower_le_upper_terms c) le_rfl, hstart]
  simp only [Constraint.multiply, Terms.toList_scale hk, List.map_append, List.map_map,
    Function.comp_def, Interval.scale_scale, pairRange_mul]

theorem rangeOf_lower_le_upper (p : Problem Rat) (c : Constraint Rat) :
    (p.rangeOf c).lower ≤ (p.rangeOf c).upper := by
  suffices h : ∀ (l : List (Interval Rat)) (i : Interval Rat), (∀ j ∈ l, j.lower ≤ j.upper) →
      i.lower ≤ i.upper → (l.foldl Interval.add i).lower ≤ (l.foldl Interval.add i).upper from
    h _ _ (p.lower_le_upper_terms c) le_rfl
  intro l
  induction l with
  | nil => exact fun i _ hi => hi
  | cons j l ih =>
    intro i hl hi
    obtain ⟨hj, hl⟩ := List.forall_mem_cons.mp hl
    exact ih (i.add j) hl (add_le_add hi hj)

theorem rangeOf_negate (p : Problem Rat) (c : Constraint Rat) :
    p.rangeOf c.negate = ⟨-(p.rangeOf c).upper, -(p.rangeOf c).lower⟩ := by
  have hmultiply : p.rangeOf c.negate = p.rangeOf (c.multiply (-1)) := rfl
  rw [hmultiply, rangeOf_multiply p c (by norm_num),
    Interval.scale_eq (p.rangeOf_lower_le_upper c), if_pos (by norm_num)]
  simp only [neg_one_mul]

end Problem

namespace Constraint

variable {c : Constraint Rat} {n : Nat} {upper : Int}

theorem roundedRhs_multiply (hc : c.IsRegular) (hne : c.coefficients ≠ []) (hn : 1 ≤ n) :
    (c.multiply n).roundedRhs = c.roundedRhs := by
  have hpos : (n : Rat) ≠ 0 := by exact_mod_cast (Nat.lt_of_succ_le hn).ne'
  have hrhs : (c.multiply n).rhs / (c.multiply n).divisor = c.rhs / c.divisor := by
    rw [divisor_multiply hc hne hn, Nat.cast_mul]
    exact mul_div_mul_right _ _ hpos
  rw [roundedRhs, roundedRhs, hrhs]
  rfl

/-- Turning an inequality around exchanges the two directions of rounding. -/
theorem roundedRhs_negate (hrelation : c.relation ≠ .eq) :
    c.negate.roundedRhs = -c.roundedRhs := by
  have hrhs : c.negate.rhs / c.negate.divisor = -(c.rhs / c.divisor) := by
    rw [divisor_negate, ← neg_div]
    simp only [negate, multiply, mul_neg_one]
  rw [roundedRhs, roundedRhs, hrhs]
  cases hcase : c.relation with
  | le => simp [negate, hcase, Relation.flip, Int.ceil_neg]
  | ge => simp [negate, hcase, Relation.flip, Int.floor_neg]
  | eq => contradiction

theorem slackSign_negate (hrelation : c.relation ≠ .eq) : c.negate.slackSign = -c.slackSign := by
  rw [slackSign, slackSign]
  cases hcase : c.relation with
  | le => simp [negate, hcase, Relation.flip]
  | ge => simp [negate, hcase, Relation.flip]
  | eq => contradiction

/-- A multiple becomes the same equality. -/
theorem tightened_multiply (hc : c.IsRegular) (hne : c.coefficients ≠ []) (hn : 1 ≤ n) :
    (c.multiply n).tightened ((c.multiply n).slackOf upper) = c.tightened (c.slackOf upper) := by
  have hpos : (n : Rat) ≠ 0 := by exact_mod_cast (Nat.lt_of_succ_le hn).ne'
  have hfactor : (n : Rat) * (1 / ((c.divisor * n : Nat) : Rat)) = 1 / c.divisor := by
    rw [Nat.cast_mul, mul_one_div, div_mul_cancel_right₀ hpos, one_div]
  have hscale : ∀ {κ : Type} [Ord κ] [Std.LawfulEqOrd κ] [Std.TransOrd κ] (e : Terms κ Rat),
      (e.scale n).scale (1 / ((c.divisor * n : Nat) : Rat)) = e.scale (1 / c.divisor) := fun e =>
    Terms.ext_of_value fun m => by
      rw [Terms.value_scale, Terms.value_scale, Terms.value_scale, ← hfactor]
      ring
  simp only [tightened, slackOf, divisor_multiply hc hne hn, roundedRhs_multiply hc hne hn]
  simp only [multiply, hscale]

/-- The negation becomes the negated equality. -/
theorem tightened_negate (hrelation : c.relation ≠ .eq) :
    c.negate.tightened (c.negate.slackOf upper) = (c.tightened (c.slackOf upper)).negate := by
  have hscale : ∀ {κ : Type} [Ord κ] [Std.LawfulEqOrd κ] [Std.TransOrd κ] (e : Terms κ Rat),
      (e.scale (-1)).scale (1 / c.divisor) = (e.scale (1 / c.divisor)).scale (-1) := fun e =>
    Terms.ext_of_value fun m => by
      simp only [Terms.value_scale]
      ring
  simp only [tightened, slackOf, divisor_negate, roundedRhs_negate hrelation]
  simp only [negate, multiply, hscale, mul_neg_one, Relation.flip]

end Constraint

namespace Problem

variable {p : Problem Rat} {c : Constraint Rat} {n : Nat}

/-- The ends of the range of a multiple, after division. -/
private theorem rangeOf_multiply_div (hc : c.IsRegular) (hne : c.coefficients ≠ []) (hn : 1 ≤ n) :
    (p.rangeOf (c.multiply n)).lower / (c.multiply n).divisor =
        (p.rangeOf c).lower / c.divisor ∧
      (p.rangeOf (c.multiply n)).upper / (c.multiply n).divisor =
        (p.rangeOf c).upper / c.divisor := by
  have hpos : (0 : Rat) < n := by exact_mod_cast Nat.lt_of_succ_le hn
  rw [rangeOf_multiply p c hpos.ne', Interval.scale_eq (p.rangeOf_lower_le_upper c),
    if_neg (not_lt.mpr hpos.le), Constraint.divisor_multiply hc hne hn, Nat.cast_mul, mul_comm]
  simp only [mul_comm (n : Rat)]
  exact ⟨mul_div_mul_right _ _ hpos.ne', mul_div_mul_right _ _ hpos.ne'⟩

theorem slackRange_multiply (hc : c.IsRegular) (hne : c.coefficients ≠ []) (hn : 1 ≤ n) :
    p.slackRange (c.multiply n) = p.slackRange c := by
  obtain ⟨hlower, hupper⟩ := rangeOf_multiply_div (p := p) hc hne hn
  rw [slackRange, slackRange, hlower, hupper, Constraint.roundedRhs_multiply hc hne hn]
  rfl

theorem leastGap_multiply (hc : c.IsRegular) (hne : c.coefficients ≠ []) (hn : 1 ≤ n) :
    p.leastGap (c.multiply n) = p.leastGap c := by
  obtain ⟨hlower, hupper⟩ := rangeOf_multiply_div (p := p) hc hne hn
  rw [leastGap, leastGap, hlower, hupper, Constraint.roundedRhs_multiply hc hne hn]
  rfl

theorem slackRange_negate (hrelation : c.relation ≠ .eq) :
    p.slackRange c.negate = p.slackRange c := by
  rw [slackRange, slackRange, rangeOf_negate, Constraint.divisor_negate,
    Constraint.roundedRhs_negate hrelation]
  cases hcase : c.relation with
  | le =>
    simp only [Constraint.negate, hcase, Relation.flip]
    ring
  | ge =>
    simp only [Constraint.negate, hcase, Relation.flip]
    ring
  | eq => contradiction

theorem leastGap_negate (hrelation : c.relation ≠ .eq) : p.leastGap c.negate = p.leastGap c := by
  rw [leastGap, leastGap, rangeOf_negate, Constraint.divisor_negate,
    Constraint.roundedRhs_negate hrelation]
  cases hcase : c.relation with
  | le =>
    simp only [Constraint.negate, hcase, Relation.flip]
    ring
  | ge =>
    simp only [Constraint.negate, hcase, Relation.flip]
    ring
  | eq => contradiction

end Problem

end QuboReduction

import QuboReduction.Proofs.Range
import QuboReduction.Stage.Slack

/-!
# The gap of an inequality

After division by the common divisor of its coefficients the left-hand side of an inequality is an
integer, so rounding the right-hand side leaves the same assignments. What is missing to equality is
the *gap*: an assignment satisfies the inequality when its gap is not negative, and the gap is never
above the range that is provided for the slack variable.

## Main definitions

* `QuboReduction.Constraint.gap` — the value of the slack variable that makes both sides equal.
* `QuboReduction.Problem.slackRange` — the largest gap that the bounds of the variables allow.
* `QuboReduction.Constraint.IsRegular`, `QuboReduction.Constraint.IsExact` — constraints with
  integer coefficients and with coefficients that are not too large.

## Main results

* `QuboReduction.Problem.slackFor_eq` — the slack of an inequality in closed form.
* `QuboReduction.Constraint.holds_iff_gap_nonneg` — satisfied inequalities in terms of gaps.
* `QuboReduction.Problem.slackFor_error`, `QuboReduction.Problem.slackFor_some` — why an inequality
  is refused, and what an accepted one gives.
-/

namespace QuboReduction

/-! ### The common divisor -/

private theorem foldl_gcd_dvd {β : Type} (f : β → Nat) (l : List β) (g : Nat) :
    l.foldl (fun g a => Nat.gcd g (f a)) g ∣ g ∧
      ∀ a ∈ l, l.foldl (fun g a => Nat.gcd g (f a)) g ∣ f a := by
  induction l generalizing g with
  | nil => simp
  | cons b l ih =>
    obtain ⟨hstart, hrest⟩ := ih (Nat.gcd g (f b))
    rw [List.foldl_cons]
    refine ⟨hstart.trans (Nat.gcd_dvd_left _ _), List.forall_mem_cons.mpr ⟨?_, hrest⟩⟩
    exact hstart.trans (Nat.gcd_dvd_right _ _)

private theorem dvd_foldl_gcd {β : Type} {f : β → Nat} {l : List β} {g k : Nat} (hg : k ∣ g)
    (hl : ∀ a ∈ l, k ∣ f a) : k ∣ l.foldl (fun g a => Nat.gcd g (f a)) g := by
  induction l generalizing g with
  | nil => exact hg
  | cons b l ih =>
    obtain ⟨hb, hl⟩ := List.forall_mem_cons.mp hl
    exact ih (Nat.dvd_gcd hg hb) hl

namespace Constraint

section Divisor

variable {α : Type} [Scalar α] {c : Constraint α}

theorem one_le_divisor (c : Constraint α) : 1 ≤ c.divisor := Nat.le_max_right _ _

/-- The divisor divides the integer parts of all coefficients. -/
theorem divisor_dvd {a : α} (ha : a ∈ c.coefficients) :
    c.divisor ∣ (Scalar.truncate (Scalar.abs a)).toNat := by
  have hfold := (foldl_gcd_dvd (fun a => (Scalar.truncate (Scalar.abs a)).toNat)
    c.coefficients 0).2 a ha
  rw [divisor]
  rcases Nat.eq_zero_or_pos (Scalar.truncate (Scalar.abs a)).toNat with h | h
  · simp [h]
  · rwa [Nat.max_eq_left (Nat.pos_of_dvd_of_pos hfold h)]

/-- Every common divisor of the integer parts divides the divisor, unless they are all zero. -/
theorem dvd_divisor {k : Nat} {a : α} (ha : a ∈ c.coefficients)
    (hzero : (Scalar.truncate (Scalar.abs a)).toNat ≠ 0)
    (hk : ∀ a ∈ c.coefficients, k ∣ (Scalar.truncate (Scalar.abs a)).toNat) : k ∣ c.divisor := by
  have hfold := (foldl_gcd_dvd (fun a => (Scalar.truncate (Scalar.abs a)).toNat)
    c.coefficients 0).2 a ha
  rw [divisor, Nat.max_eq_left (Nat.pos_of_dvd_of_pos hfold (Nat.pos_of_ne_zero hzero))]
  exact dvd_foldl_gcd (Nat.dvd_zero k) hk

end Divisor

variable {c : Constraint Rat} {x : Nat → Rat}

/-- All coefficients are integers. -/
def IsRegular (c : Constraint Rat) : Prop := ∀ a ∈ c.coefficients, IsInteger a

/-- No coefficient is above `2 ^ 53` in magnitude. -/
def IsExact (c : Constraint Rat) : Prop := ∀ a ∈ c.coefficients, |a| ≤ 2 ^ 53

instance : DecidablePred IsRegular := fun _ => inferInstanceAs (Decidable (∀ _ ∈ _, _))

instance : DecidablePred IsExact := fun _ => inferInstanceAs (Decidable (∀ _ ∈ _, _))

/-- The integer part of the magnitude of an integer. -/
theorem truncate_abs_intCast (n : Int) :
    (Scalar.truncate (Scalar.abs (n : Rat))).toNat = n.natAbs := by
  rw [Scalar.abs_rat, ← Int.cast_abs, Scalar.truncate_intCast, Int.abs_eq_natAbs,
    Int.toNat_natCast]

theorem divisor_pos (c : Constraint Rat) : (0 : Rat) < c.divisor := by
  exact_mod_cast Nat.lt_of_succ_le c.one_le_divisor

/-- The divisor divides every integer coefficient. -/
theorem IsRegular.isInteger_div (hc : c.IsRegular) {a : Rat} (ha : a ∈ c.coefficients) :
    IsInteger (a / c.divisor) := by
  obtain ⟨n, rfl⟩ := hc a ha
  have hdvd : c.divisor ∣ n.natAbs := by
    have hdvd := divisor_dvd ha
    rwa [truncate_abs_intCast] at hdvd
  obtain ⟨k, hk⟩ := Int.natCast_dvd.mpr hdvd
  refine ⟨k, ?_⟩
  rw [div_eq_iff c.divisor_pos.ne', hk]
  push_cast
  ring

/-! ### Gaps -/

/-- The right-hand side after division, rounded to an integer that leaves the same assignments. -/
def roundedRhs (c : Constraint Rat) : Rat :=
  match c.relation with
  | .ge => (⌈c.rhs / c.divisor⌉ : Int)
  | _ => (⌊c.rhs / c.divisor⌋ : Int)

/-- The coefficient of the slack variable. -/
def slackSign (c : Constraint Rat) : Rat :=
  match c.relation with
  | .ge => -1
  | _ => 1

/-- What is missing to equality after division: the value of the slack variable that makes both
sides equal. -/
def gap (c : Constraint Rat) (x : Nat → Rat) : Rat :=
  c.slackSign * (c.roundedRhs - c.evaluate x / c.divisor)

/-- The slack of an inequality when the slack variable goes up to `upper`. -/
def slackOf (c : Constraint Rat) (upper : Int) : Slack Rat :=
  ⟨c.divisor, c.roundedRhs, upper, c.slackSign⟩

@[simp] theorem slackSign_mul_slackSign (c : Constraint Rat) : c.slackSign * c.slackSign = 1 := by
  rw [slackSign]
  split <;> norm_num

theorem isInteger_slackSign (c : Constraint Rat) : IsInteger c.slackSign := by
  rw [slackSign]
  split
  · exact IsInteger.one.neg
  · exact .one

theorem isInteger_roundedRhs (c : Constraint Rat) : IsInteger c.roundedRhs := by
  rw [roundedRhs]
  split <;> exact .intCast _

/-- After division the left-hand side of a regular constraint is an integer at integers. -/
theorem IsRegular.isInteger_evaluate_div (hc : c.IsRegular) (hx : ∀ i, IsInteger (x i)) :
    IsInteger (c.evaluate x / c.divisor) := by
  rw [evaluate_eq, add_div]
  refine IsInteger.add (Terms.isInteger_value_div (fun t ht => ?_) fun t ht => ?_)
    (Terms.isInteger_value_div (fun t ht => ?_) fun t ht => ?_)
  · exact hc.isInteger_div (List.mem_append_left _ (List.mem_map.mpr ⟨t, ht, rfl⟩))
  · exact hx t.1
  · exact hc.isInteger_div (List.mem_append_right _ (List.mem_map.mpr ⟨t, ht, rfl⟩))
  · exact (hx t.1.low).mul (hx t.1.high)

theorem IsRegular.isInteger_gap (hc : c.IsRegular) (hx : ∀ i, IsInteger (x i)) :
    IsInteger (c.gap x) :=
  c.isInteger_slackSign.mul (c.isInteger_roundedRhs.sub (hc.isInteger_evaluate_div hx))

/-- **Rounding is exact.** At integers a regular inequality holds exactly when its gap is not
negative. -/
theorem holds_iff_gap_nonneg (hrelation : c.relation ≠ .eq) (hc : c.IsRegular)
    (hx : ∀ i, IsInteger (x i)) : c.Holds x ↔ 0 ≤ c.gap x := by
  obtain ⟨n, hn⟩ := hc.isInteger_evaluate_div hx
  have hdivide : ∀ a b : Rat, a ≤ b ↔ a / c.divisor ≤ b / c.divisor := fun a b =>
    (div_le_div_iff_of_pos_right c.divisor_pos).symm
  cases hcase : c.relation with
  | eq => contradiction
  | le =>
    simp only [Holds, Relation.Holds, gap, slackSign, roundedRhs, hcase, hn, one_mul,
      sub_nonneg, Int.cast_le, Int.le_floor]
    rw [hdivide, hn]
  | ge =>
    simp only [Holds, Relation.Holds, gap, slackSign, roundedRhs, hcase, hn, neg_one_mul,
      neg_sub, sub_nonneg, Int.cast_le, Int.ceil_le]
    rw [hdivide, hn]

end Constraint

/-! ### The range of the gap -/

namespace Problem

variable {p : Problem Rat} {c : Constraint Rat} {s : List Rat}

/-- The largest gap that the bounds of the variables allow: the number of values of the slack
variable besides zero. -/
def slackRange (p : Problem Rat) (c : Constraint Rat) : Rat :=
  match c.relation with
  | .ge => (p.rangeOf c).upper / c.divisor - c.roundedRhs
  | _ => c.roundedRhs - (p.rangeOf c).lower / c.divisor

/-- The smallest gap that the bounds of the variables allow. -/
def leastGap (p : Problem Rat) (c : Constraint Rat) : Rat :=
  match c.relation with
  | .ge => (p.rangeOf c).lower / c.divisor - c.roundedRhs
  | _ => c.roundedRhs - (p.rangeOf c).upper / c.divisor

theorem gap_le_slackRange (hs : p.Admissible s) (c : Constraint Rat) :
    c.gap (valueAt s) ≤ p.slackRange c := by
  obtain ⟨hlower, hupper⟩ := rangeOf_contains hs c
  have hlower := (div_le_div_iff_of_pos_right c.divisor_pos).mpr hlower
  have hupper := (div_le_div_iff_of_pos_right c.divisor_pos).mpr hupper
  rw [slackRange, Constraint.gap, Constraint.slackSign]
  cases c.relation with
  | ge => dsimp only; linarith
  | le => dsimp only; linarith
  | eq => dsimp only; linarith

theorem leastGap_le_gap (hs : p.Admissible s) (c : Constraint Rat) :
    p.leastGap c ≤ c.gap (valueAt s) := by
  obtain ⟨hlower, hupper⟩ := rangeOf_contains hs c
  have hlower := (div_le_div_iff_of_pos_right c.divisor_pos).mpr hlower
  have hupper := (div_le_div_iff_of_pos_right c.divisor_pos).mpr hupper
  rw [leastGap, Constraint.gap, Constraint.slackSign]
  cases c.relation with
  | ge => dsimp only; linarith
  | le => dsimp only; linarith
  | eq => dsimp only; linarith

/-- An inequality that some admissible vector satisfies has a slack range that is not negative. -/
theorem slackRange_nonneg (hrelation : c.relation ≠ .eq) (hc : c.IsRegular) (hs : p.Admissible s)
    (hholds : c.Holds (valueAt s)) : 0 ≤ p.slackRange c :=
  ((Constraint.holds_iff_gap_nonneg hrelation hc hs.isInteger).mp hholds).trans
    (gap_le_slackRange hs c)

theorem isInteger_slackRange (hc : c.IsRegular) : IsInteger (p.slackRange c) := by
  obtain ⟨hlower, hupper⟩ := p.rangeOf_multipleOf fun a ha => hc.isInteger_div ha
  rw [slackRange]
  split
  · exact hupper.sub c.isInteger_roundedRhs
  · exact c.isInteger_roundedRhs.sub hlower

/-! ### The slack of an inequality -/

theorem exactLimit_rat : (exactLimit : Rat) = 2 ^ 53 := by
  norm_num [exactLimit]

private theorem slack_steps (c : Constraint Rat)
    {divisor lower upper bound rounded range least sign : Rat} :
    (do
      if range < 0 then throw (.infeasibleBounds c.name lower upper bound)
      if 0 ≤ least then return none
      return some ⟨divisor, rounded, ← slackUpper c range, sign⟩ :
        Except (ConversionError Rat) (Option (Slack Rat))) =
      if range < 0 then .error (.infeasibleBounds c.name lower upper bound)
      else if 0 ≤ least then .ok none
      else if 2 ^ 53 < range then .error (.unsupported c.name .wideSlack)
      else .ok (some ⟨divisor, rounded, Scalar.truncate range, sign⟩) := by
  rw [slackUpper, exactLimit_rat]
  split
  · rfl
  · split
    · rfl
    · split <;> rfl

/-- **The slack in closed form.** -/
theorem slackFor_eq (p : Problem Rat) (c : Constraint Rat) :
    p.slackFor c =
      if ¬c.IsRegular then .error (.unsupported c.name .fractionalCoefficient)
      else if ¬c.IsExact then .error (.unsupported c.name .largeCoefficient)
      else if p.slackRange c < 0 then
        .error (.infeasibleBounds c.name ((p.rangeOf c).lower / c.divisor)
          ((p.rangeOf c).upper / c.divisor) (c.rhs / c.divisor))
      else if 0 ≤ p.leastGap c then .ok none
      else if 2 ^ 53 < p.slackRange c then .error (.unsupported c.name .wideSlack)
      else .ok (some ⟨c.divisor, c.roundedRhs, Scalar.truncate (p.slackRange c), c.slackSign⟩) := by
  have hintegral : (c.coefficients.any fun a => !Scalar.isIntegral a) = true ↔ ¬c.IsRegular := by
    simp [Constraint.IsRegular, ← Scalar.isIntegral_iff]
  have hlarge : (c.coefficients.any fun a => decide ((exactLimit : Rat) < Scalar.abs a)) = true ↔
      ¬c.IsExact := by
    simp [Constraint.IsExact, exactLimit_rat]
  have hrelation : c.relation = .ge ∨ c.relation = .le ∨ c.relation = .eq := by
    cases c.relation <;> simp
  rw [slackFor]
  simp only [hintegral, hlarge]
  split
  · rfl
  split
  · rfl
  refine Eq.trans ?_ (slack_steps c)
  rcases hrelation with h | h | h <;>
    simp only [slackRange, leastGap, Constraint.roundedRhs, Constraint.slackSign, h, sub_neg,
      sub_nonneg, Scalar.ceil_rat, Scalar.floor_rat, Scalar.ofInt_rat, Int.cast_natCast]

/-- An inequality is refused because of its coefficients, because its range stays away from its
right-hand side, or because its slack would be too wide. -/
theorem slackFor_error {e : ConversionError Rat} (h : p.slackFor c = .error e) :
    (¬c.IsRegular ∧ e = .unsupported c.name .fractionalCoefficient) ∨
      (¬c.IsExact ∧ e = .unsupported c.name .largeCoefficient) ∨
      (c.IsRegular ∧ p.slackRange c < 0 ∧ e = .infeasibleBounds c.name
        ((p.rangeOf c).lower / c.divisor) ((p.rangeOf c).upper / c.divisor)
        (c.rhs / c.divisor)) ∨
      (2 ^ 53 < p.slackRange c ∧ e = .unsupported c.name .wideSlack) := by
  rw [slackFor_eq] at h
  split_ifs at h with hregular hexact hrange hleast hwide <;>
    simp_all

theorem slackFor_none (h : p.slackFor c = .ok none) : c.IsRegular ∧ 0 ≤ p.leastGap c := by
  rw [slackFor_eq] at h
  split_ifs at h with hregular hexact hrange hleast hwide <;>
    simp_all

/-- An inequality that is violated somewhere is given a slack up to its slack range. -/
theorem slackFor_some {slack : Slack Rat} (h : p.slackFor c = .ok (some slack)) :
    c.IsRegular ∧ ∃ upper : Int, (upper : Rat) = p.slackRange c ∧ 0 ≤ upper ∧
      slack = c.slackOf upper := by
  rw [slackFor_eq] at h
  split_ifs at h with hregular hexact hrange hleast hwide
  · simp at h
  · obtain ⟨upper, hupper⟩ := isInteger_slackRange (p := p) hregular
    rw [hupper, Scalar.truncate_intCast, Except.ok.injEq, Option.some.injEq] at h
    refine ⟨hregular, upper, hupper.symm, ?_, h.symm⟩
    rw [hupper, not_lt] at hrange
    exact_mod_cast hrange

end Problem

end QuboReduction

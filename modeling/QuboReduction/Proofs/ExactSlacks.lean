import QuboReduction.Proofs.Corners
import QuboReduction.Proofs.ExactRanges

/-!
# Slack variables that reach every assignment

In double precision the range of a slack variable is computed from rounded bounds, products and
sums, and only the coefficients and the range itself are checked against `2 ^ 53`. An inequality
whose terms together stay within this limit loses no assignment, with one exception: a range of
`2 ^ 53 + 1` is rounded to `2 ^ 53` before it is checked, so the slack variable stops one short of
what is needed. Beyond the limit even a small range can be too small, since rounding the bounds of
the variables hides behind it.

## Main definitions

* `QuboReduction.Constraint.slackAt`, `QuboReduction.Problem.slackRangeAt` — the slack that an
  assignment needs, and the largest one that the bounds of the variables allow.
* `QuboReduction.Problem.Emits` — what the stage leaves of an inequality with a slack.
* `QuboReduction.Problem.KeepsAll` — every assignment finds its slack in the range.

## Main results

* `QuboReduction.Problem.slackUpper_exact` — the largest slack.
* `QuboReduction.Problem.addSlacks_keepsAll` — the inequalities that lose no assignment.
* `QuboReduction.drifting_loses` — a small range that is too small.
-/

namespace QuboReduction

open Binary64 (Exactly ExactWithin IsExactInteger RoundedFrom value)

/-! ### The slack of an assignment -/

namespace Constraint

variable {c : Constraint Rat} {x : Nat → Rat} {rhs : Rat}

/-- The slack that makes both sides equal after division, next to a given right-hand side. -/
def slackAt (c : Constraint Rat) (rhs : Rat) (x : Nat → Rat) : Rat :=
  c.slackSign * (rhs - c.evaluate x / c.divisor)

theorem slackAt_eq (c : Constraint Rat) (rhs : Rat) (x : Nat → Rat) :
    c.slackAt rhs x = c.gap x + c.slackSign * (rhs - c.roundedRhs) := by
  rw [slackAt, gap]
  ring

/-- The slack is the only number that solves the equality. -/
theorem add_slackSign_mul_eq_iff {n : Rat} :
    c.evaluate x / c.divisor + c.slackSign * n = rhs ↔ n = c.slackAt rhs x := by
  have hsign := c.slackSign_mul_slackSign
  rw [slackAt]
  constructor
  · intro h
    linear_combination c.slackSign * h - n * hsign
  · rintro rfl
    linear_combination (rhs - c.evaluate x / c.divisor) * hsign

end Constraint

namespace Problem

variable {p : Problem Rat} {c : Constraint Rat} {s : List Rat} {rhs : Rat}

/-- The largest slack that the bounds of the variables allow next to a given right-hand side. -/
def slackRangeAt (p : Problem Rat) (c : Constraint Rat) (rhs : Rat) : Rat :=
  match c.relation with
  | .ge => (p.rangeOf c).upper / c.divisor - rhs
  | _ => rhs - (p.rangeOf c).lower / c.divisor

theorem slackRangeAt_eq (p : Problem Rat) (c : Constraint Rat) (rhs : Rat) :
    p.slackRangeAt c rhs = p.slackRange c + c.slackSign * (rhs - c.roundedRhs) := by
  rw [slackRangeAt, slackRange, Constraint.slackSign]
  cases c.relation <;> ring

theorem slackAt_le_slackRangeAt (hs : p.Admissible s) (c : Constraint Rat) (rhs : Rat) :
    c.slackAt rhs (valueAt s) ≤ p.slackRangeAt c rhs := by
  rw [Constraint.slackAt_eq, slackRangeAt_eq]
  linarith [gap_le_slackRange hs c]

/-- Without products the largest slack is needed by some admissible vector. -/
theorem exists_slackAt_eq (hp : p.WellFormed) (hlinear : c.isLinear = true) (rhs : Rat) :
    ∃ s, p.Admissible s ∧ c.slackAt rhs (valueAt s) = p.slackRangeAt c rhs := by
  obtain ⟨s, hs, hgap⟩ := exists_gap_eq_slackRange hp hlinear
  exact ⟨s, hs, by rw [Constraint.slackAt_eq, slackRangeAt_eq, hgap]⟩

end Problem

/-! ### Rounding a right-hand side -/

namespace Binary64.RoundedFrom

variable {q e : Rat} {x : Float}

/-- Rounding a quotient and then rounding it down keeps the integers below it, and adds at most one
integer above it. -/
theorem floor_spec (h : RoundedFrom q x) (he : IsInteger e) (hle : |e| ≤ 2 ^ 53) :
    (e ≤ q → e ≤ ⌊value x⌋) ∧ (e < ⌊value x⌋ → e ≤ q) := by
  have hrepresentable : Representable e := .of_isInteger he hle
  obtain ⟨n, rfl⟩ := he
  constructor
  · intro hn
    exact_mod_cast Int.le_floor.mpr (h.rounds.ge n hrepresentable hn)
  · intro hn
    by_contra hq
    have hfloor : (⌊value x⌋ : Rat) ≤ n :=
      (Int.floor_le _).trans (h.rounds.le n hrepresentable (not_le.mp hq).le)
    linarith

theorem ceil_spec (h : RoundedFrom q x) (he : IsInteger e) (hle : |e| ≤ 2 ^ 53) :
    (q ≤ e → ⌈value x⌉ ≤ e) ∧ (⌈value x⌉ < e → q ≤ e) := by
  have hrepresentable : Representable e := .of_isInteger he hle
  obtain ⟨n, rfl⟩ := he
  constructor
  · intro hn
    exact_mod_cast Int.ceil_le.mpr (h.rounds.le n hrepresentable hn)
  · intro hn
    by_contra hq
    have hceil : (n : Rat) ≤ ⌈value x⌉ :=
      (h.rounds.ge n hrepresentable (not_le.mp hq).le).trans (Int.le_ceil _)
    linarith

end Binary64.RoundedFrom

namespace Problem

variable {p q : Problem Float} {r : Record Float} {c : Constraint Float} {slack : Slack Float}

/-- **The largest slack** is the difference of two integers within the limit. A difference of
`2 ^ 53 + 1` is rounded to the limit, and a larger one is refused. -/
theorem slackUpper_exact {a b : Rat} {x y : Float} {upper : Int}
    (hx : ExactWithin (2 ^ 53) a x) (hy : ExactWithin (2 ^ 53) b y) (hba : b ≤ a)
    (h : slackUpper c (x - y) = .ok upper) :
    (upper : Rat) = a - b ∨ a - b = 2 ^ 53 + 1 ∧ upper = 2 ^ 53 := by
  have hinteger : IsInteger (a - b) := hx.isInteger.sub hy.isInteger
  have hwide : |a - b| ≤ 2 ^ 54 := by
    rw [abs_of_nonneg (sub_nonneg.mpr hba)]
    linarith [(abs_le.mp hx.abs_le).2, (abs_le.mp hy.abs_le).1]
  have hround := hx.sub_rounded hy.toExactly (.two_pow (by omega)) hwide
  rw [slackUpper] at h
  split_ifs at h with hlimit
  rw [Binary64.lt_iff_value_lt exactLimit_atMost.isFinite hround.isFinite, value_exactLimit,
    not_lt] at hlimit
  have hlimit : Binary64.value (x - y) ≤ 2 ^ 53 := by exact_mod_cast hlimit
  have hupper : Binary64.integerPart (x - y) = upper := Except.ok.inj h
  obtain ⟨n, hn⟩ := hinteger
  rw [hn] at hround ⊢
  have hpos : (0 : Rat) ≤ n := hn ▸ sub_nonneg.mpr hba
  rcases le_or_gt n (2 ^ 53) with hle | hlarge
  · left
    have hle : (n : Rat) ≤ 2 ^ 53 := by exact_mod_cast hle
    have hexact := hround.exactly_of_isInteger (.intCast n) (by rwa [abs_of_nonneg hpos])
    rw [← hupper, Binary64.integerPart_of_value_eq hexact.isFinite hexact.value_eq]
  · right
    have hnext : n = 2 ^ 53 + 1 := by
      by_contra hne
      have hge := hround.rounds.ge _ .limit_add_two
        (by exact_mod_cast (by omega : 2 ^ 53 + 2 ≤ n))
      linarith
    have hcast : (n : Rat) = 2 ^ 53 + 1 := by exact_mod_cast hnext
    rw [hcast] at hround
    refine ⟨hcast, ?_⟩
    rcases hround.exactly_neighbour with hexact | hexact
    · rw [← hupper]
      exact Binary64.integerPart_of_value_eq hexact.isFinite (n := 2 ^ 53)
        (by rw [hexact.value_eq]; norm_num)
    · rw [hexact.value_eq] at hlimit
      norm_num at hlimit

/-! ### What a slack is computed from -/

private theorem exactly_divisor (hc : ∀ a ∈ c.coefficients, IsExactInteger a) :
    Exactly c.divisor (Scalar.ofInt (c.divisor : Int)) :=
  Binary64.exactly_natCast (divisor_le fun a ha => (hc a ha).toAtMost)

private theorem one_le_cast_divisor (c : Constraint Float) : (1 : Rat) ≤ c.divisor := by
  exact_mod_cast c.one_le_divisor

/-- The ends of the divided range are exact. -/
private theorem bounds_exactWithin (hc : ∀ a ∈ c.coefficients, IsExactInteger a)
    (hreach : p.toRat.reach c.toRat ≤ 2 ^ 53) :
    ExactWithin (2 ^ 53) ((p.toRat.rangeOf c.toRat).lower / c.divisor)
        ((p.rangeOf c).lower / Scalar.ofInt c.divisor) ∧
      ExactWithin (2 ^ 53) ((p.toRat.rangeOf c.toRat).upper / c.divisor)
        ((p.rangeOf c).upper / Scalar.ofInt c.divisor) := by
  have hone := one_le_cast_divisor c
  have hmultiple := p.toRat.rangeOf_multipleOf (c := c.toRat) fun a ha =>
    (Constraint.isRegular_toRat hc).isInteger_div ha
  rw [Constraint.divisor_toRat hc] at hmultiple
  have hends := rangeOf_exactWithin hc hreach
  have hdivide : ∀ {a : Rat} {x : Float}, ExactWithin (p.toRat.reach c.toRat) a x →
      IsInteger (a / c.divisor) →
        ExactWithin (2 ^ 53) (a / c.divisor) (x / Scalar.ofInt (c.divisor : Int)) := by
    intro a x hx hinteger
    have habs : |a / c.divisor| ≤ 2 ^ 53 := by
      rw [abs_div, Nat.abs_cast]
      exact (div_le_self (abs_nonneg a) hone).trans (hx.abs_le.trans hreach)
    exact ⟨hx.toExactly.div (exactly_divisor hc) (by positivity) hinteger habs, hinteger, habs⟩
  exact ⟨hdivide hends.lower hmultiple.1, hdivide hends.upper hmultiple.2⟩

/-- The divided right-hand side is rounded once. -/
private theorem rhs_rounded (hc : ∀ a ∈ c.coefficients, IsExactInteger a)
    (hrhs : c.rhs.isFinite = true) :
    RoundedFrom (Binary64.value c.rhs / c.divisor) (c.rhs / Scalar.ofInt c.divisor) := by
  have hone := one_le_cast_divisor c
  refine Exactly.div_rounded ⟨hrhs, rfl⟩ (exactly_divisor hc) (by positivity)
    (Binary64.isDouble_abs_value hrhs) ?_
  rw [abs_div, Nat.abs_cast]
  exact div_le_self (abs_nonneg _) hone

/-- Within the limit the divided left-hand side is an integer at admissible vectors. -/
private theorem evaluate_div_spec (hc : ∀ a ∈ c.coefficients, IsExactInteger a)
    (hreach : p.toRat.reach c.toRat ≤ 2 ^ 53) {s : List Rat} (hs : p.toRat.Admissible s) :
    IsInteger (c.toRat.evaluate (valueAt s) / c.divisor) ∧
      |c.toRat.evaluate (valueAt s) / c.divisor| ≤ 2 ^ 53 := by
  have hpos : (0 : Rat) < c.divisor := zero_lt_one.trans_le (one_le_cast_divisor c)
  have hinteger := (Constraint.isRegular_toRat hc).isInteger_evaluate_div hs.isInteger
  rw [Constraint.divisor_toRat hc] at hinteger
  obtain ⟨hlower, hupper⟩ := rangeOf_contains hs c.toRat
  obtain ⟨hlow, hhigh⟩ := bounds_exactWithin hc hreach
  refine ⟨hinteger, abs_le.mpr ⟨?_, ?_⟩⟩
  · exact (abs_le.mp hlow.abs_le).1.trans ((div_le_div_iff_of_pos_right hpos).mpr hlower)
  · exact ((div_le_div_iff_of_pos_right hpos).mpr hupper).trans (abs_le.mp hhigh.abs_le).2

theorem value_sign (h : p.slackFor c = .ok (some slack)) :
    Binary64.value slack.sign = c.toRat.slackSign := by
  obtain ⟨-, ⟨hrelation, hsign, -⟩ | ⟨hrelation, hsign, -⟩⟩ := slackFor_steps h
  · have hge : c.toRat.relation = .ge := hrelation
    rw [Constraint.slackSign, hge, hsign]
    exact Binary64.exactly_one.neg.value_eq
  · have hle : c.toRat.slackSign = 1 := by
      have hne : c.toRat.relation ≠ .ge := hrelation
      rw [Constraint.slackSign]
      split
      · contradiction
      · rfl
    rw [hle, hsign]
    exact Binary64.exactly_one.value_eq

/-- **Rounding the right-hand side** loses no assignment, and whoever needs a positive slack
satisfies the inequality. -/
theorem slackAt_spec (hrelation : c.relation ≠ .eq) (hrhs : c.rhs.isFinite = true)
    (hreach : p.toRat.reach c.toRat ≤ 2 ^ 53) (h : p.slackFor c = .ok (some slack)) {s : List Rat}
    (hs : p.toRat.Admissible s) :
    (c.toRat.Holds (valueAt s) → 0 ≤ c.toRat.slackAt (Binary64.value slack.rhs) (valueAt s)) ∧
      (0 < c.toRat.slackAt (Binary64.value slack.rhs) (valueAt s) → c.toRat.Holds (valueAt s)) := by
  have hc := isExactInteger_of_slackFor h
  have hpos : (0 : Rat) < c.divisor := zero_lt_one.trans_le (one_le_cast_divisor c)
  obtain ⟨hinteger, hle⟩ := evaluate_div_spec hc hreach hs
  have hround := rhs_rounded hc hrhs
  have hdivide : ∀ a b : Rat, a ≤ b ↔ a / c.divisor ≤ b / c.divisor := fun a b =>
    (div_le_div_iff_of_pos_right hpos).symm
  obtain ⟨hdivisor, ⟨hge, -, hvalue, -⟩ | ⟨hne, -, hvalue, -⟩⟩ := slackFor_steps h
  · have hge : c.toRat.relation = .ge := hge
    rw [hvalue, hdivisor, Binary64.value_ceil hround.isFinite]
    simp only [Constraint.Holds, Relation.Holds, Constraint.slackAt, Constraint.slackSign, hge,
      Constraint.divisor_toRat hc, neg_one_mul, neg_sub, sub_nonneg, sub_pos]
    rw [hdivide]
    exact hround.ceil_spec hinteger hle
  · have hbelow : c.toRat.relation = .le := by
      change c.relation = .le
      cases hcase : c.relation with
      | le => rfl
      | ge => exact absurd hcase hne
      | eq => exact absurd hcase hrelation
    rw [hvalue, hdivisor, Binary64.value_floor hround.isFinite]
    simp only [Constraint.Holds, Relation.Holds, Constraint.slackAt, Constraint.slackSign, hbelow,
      Constraint.divisor_toRat hc, one_mul, sub_nonneg, sub_pos]
    rw [hdivide]
    exact hround.floor_spec hinteger hle

/-- The right-hand side lies between the ends of the divided range, and the slack variable goes up
to the difference, as far as this is not rounded. -/
theorem upper_spec (hrhs : c.rhs.isFinite = true) (hreach : p.toRat.reach c.toRat ≤ 2 ^ 53)
    (h : p.slackFor c = .ok (some slack)) :
    (slack.upper : Rat) = p.toRat.slackRangeAt c.toRat (Binary64.value slack.rhs) ∨
      p.toRat.slackRangeAt c.toRat (Binary64.value slack.rhs) = 2 ^ 53 + 1 ∧
        slack.upper = 2 ^ 53 := by
  have hc := isExactInteger_of_slackFor h
  obtain ⟨hlower, hupper⟩ := bounds_exactWithin hc hreach
  obtain ⟨hfinite, hinteger⟩ := isInteger_slack_rhs h hrhs
  -- the right-hand side is within the limit since it lies between the ends
  have hwithin : ∀ {a b : Rat}, |a| ≤ 2 ^ 53 → |b| ≤ 2 ^ 53 → a ≤ Binary64.value slack.rhs →
      Binary64.value slack.rhs ≤ b →
        ExactWithin (2 ^ 53) (Binary64.value slack.rhs) slack.rhs := fun ha hb hle hge =>
    ⟨⟨hfinite, rfl⟩, hinteger, abs_le.mpr
      ⟨(abs_le.mp ha).1.trans hle, hge.trans (abs_le.mp hb).2⟩⟩
  obtain ⟨hdivisor, ⟨hge, -, -, hfeasible, hneeded, hrange⟩ |
    ⟨hne, -, -, hfeasible, hneeded, hrange⟩⟩ := slackFor_steps h
  · have hge : c.toRat.relation = .ge := hge
    rw [hdivisor] at hfeasible hneeded hrange
    rw [Binary64.lt_iff_value_lt hupper.isFinite hfinite, hupper.value_eq, not_lt] at hfeasible
    rw [Binary64.le_iff_value_le hfinite hlower.isFinite, hlower.value_eq, not_le] at hneeded
    have hexact := hwithin hlower.abs_le hupper.abs_le hneeded.le hfeasible
    simp only [slackRangeAt, hge, Constraint.divisor_toRat hc]
    exact slackUpper_exact hupper hexact hfeasible hrange
  · have hle : ∀ rhs, p.toRat.slackRangeAt c.toRat rhs =
        rhs - (p.toRat.rangeOf c.toRat).lower / c.divisor := fun rhs => by
      have hne : c.toRat.relation ≠ .ge := hne
      rw [slackRangeAt, Constraint.divisor_toRat hc]
      split
      · contradiction
      · rfl
    rw [hdivisor] at hfeasible hneeded hrange
    rw [Binary64.lt_iff_value_lt hfinite hlower.isFinite, hlower.value_eq, not_lt] at hfeasible
    rw [Binary64.le_iff_value_le hupper.isFinite hfinite, hupper.value_eq, not_le] at hneeded
    have hexact := hwithin hlower.abs_le hupper.abs_le hfeasible hneeded.le
    rw [hle]
    exact slackUpper_exact hexact hlower hfeasible hrange

/-! ### The stage -/

/-- What the stage leaves of an inequality with a slack: an equality, with a variable for the slack
unless it can only be zero. -/
def Emits {α : Type} [Scalar α] (q : Problem α) (c : Constraint α) (slack : Slack α) : Prop :=
  if 0 < slack.upper then
    ∃ index, q.variableAt? index = some ⟨slackName c, .integer 0 slack.upper, index⟩ ∧
      { c.tightened slack with
        linear := (c.tightened slack).linear.addTerm index slack.sign } ∈ q.constraints
  else c.tightened slack ∈ q.constraints

/-- Every admissible assignment that satisfies the inequality has a slack in the range of the slack
variable that solves the divided equality exactly. -/
def KeepsAll (p : Problem Float) (c : Constraint Float) (slack : Slack Float) : Prop :=
  ∀ s, p.toRat.Admissible s → c.toRat.Holds (valueAt s) → ∃ n : Int, 0 ≤ n ∧ n ≤ slack.upper ∧
    c.toRat.evaluate (valueAt s) / c.divisor + Binary64.value slack.sign * n =
      Binary64.value slack.rhs

section Emission

variable {α : Type} [Scalar α] {p q q' : Problem α} {r : Record α} {c : Constraint α}
  {slack : Slack α}

theorem Emits.mono (h : q.Emits c slack) {extra : List Variable} (hvars : q'.vars = q.vars ++ extra)
    (hmem : ∀ d ∈ q.constraints, d ∈ q'.constraints) : q'.Emits c slack := by
  rw [Emits] at h ⊢
  split
  · rename_i hpos
    rw [if_pos hpos] at h
    obtain ⟨index, hvariable, hequality⟩ := h
    refine ⟨index, ?_, hmem _ hequality⟩
    rw [variableAt?, hvars, List.getElem?_append_left (variableAt?_lt hvariable)]
    exact hvariable
  · rename_i hpos
    rw [if_neg hpos] at h
    exact hmem _ h

/-- What the stage has left of the inequalities that it has been through. -/
def EmitsAll (p : Problem α) (done : List (Constraint α)) (q : Problem α) : Prop :=
  ∀ c ∈ done, c.relation ≠ .eq →
    p.slackFor c = .ok none ∨ ∃ slack, p.slackFor c = .ok (some slack) ∧ q.Emits c slack

theorem EmitsAll.snoc {done : List (Constraint α)} (h : p.EmitsAll done q) {extra : List Variable}
    (hvars : q'.vars = q.vars ++ extra) (hmem : ∀ d ∈ q.constraints, d ∈ q'.constraints)
    (hc : c.relation ≠ .eq →
      p.slackFor c = .ok none ∨ ∃ slack, p.slackFor c = .ok (some slack) ∧ q'.Emits c slack) :
    p.EmitsAll (done ++ [c]) q' := by
  intro d hd hrelation
  rcases List.mem_append.mp hd with hd | hd
  · exact (h d hd hrelation).imp_right fun ⟨slack, hslack, hemits⟩ =>
      ⟨slack, hslack, hemits.mono hvars hmem⟩
  · rw [List.mem_singleton.mp hd] at hrelation ⊢
    exact hc hrelation

theorem EmitsAll.step {done : List (Constraint α)} {slacks slacks' : List Nat}
    (h : p.EmitsAll done q) (hnamed : c.name ≠ "")
    (hstep : p.addTightened (q, slacks) c = .ok (q', slacks')) : p.EmitsAll (done ++ [c]) q' := by
  rcases addTightened_ok hstep with ⟨hrelation, hadd, -⟩ | ⟨-, hnone, rfl, -⟩ |
    ⟨-, slack, hslack, ⟨hupper, hadd, -⟩ | ⟨hupper, q₁, index, hvariable, hadd, -⟩⟩
  · obtain ⟨-, -, rfl⟩ := (addConstraint_named_eq_ok_iff hnamed).mp hadd
    exact h.snoc (List.append_nil _).symm (fun d hd => List.mem_append_left _ hd)
      fun hne => absurd hrelation hne
  · exact h.snoc (List.append_nil _).symm (fun d hd => hd) fun _ => .inl hnone
  · have hname : (c.tightened slack).name ≠ "" := hnamed
    obtain ⟨-, -, rfl⟩ := (addConstraint_named_eq_ok_iff hname).mp hadd
    refine h.snoc (List.append_nil _).symm (fun d hd => List.mem_append_left _ hd) fun _ =>
      .inr ⟨slack, hslack, ?_⟩
    rw [Emits, if_neg (Int.not_lt.mpr hupper)]
    exact List.mem_append_right _ List.mem_cons_self
  · obtain ⟨-, -, rfl, rfl⟩ := addVariable_eq_ok_iff.mp hvariable
    have hname : ({ c.tightened slack with
        linear := (c.tightened slack).linear.addTerm q.size slack.sign } :
          Constraint α).name ≠ "" := hnamed
    obtain ⟨-, -, rfl⟩ := (addConstraint_named_eq_ok_iff hname).mp hadd
    refine h.snoc rfl (fun d hd => List.mem_append_left _ hd) fun _ => .inr ⟨slack, hslack, ?_⟩
    rw [Emits, if_pos hupper]
    exact ⟨q.size, by simp [variableAt?, declare, size],
      List.mem_append_right _ List.mem_cons_self⟩

/-- Every inequality that the stage accepts is dropped or has a slack, for which it emits an
equality and a variable. -/
theorem addSlacks_emitsAll (hp : p.WellFormed) (h : p.addSlacks = .ok (q, r)) :
    p.EmitsAll p.constraints q := by
  obtain ⟨q₀, slacks, hobjective, hrun, -⟩ := addSlacks_steps h
  exact foldlM_ok_of_step (motive := fun done state => p.EmitsAll done state.1) (by simp [EmitsAll])
    (fun before c after _ _ hsplit hs hstep =>
      hs.step (hp.constraint_named c (by simp [hsplit])) hstep) hrun

end Emission

/-- Whether an inequality loses assignments is told by the largest slack. -/
theorem keepsAll_of_upper_eq (hrelation : c.relation ≠ .eq) (hrhs : c.rhs.isFinite = true)
    (hreach : p.toRat.reach c.toRat ≤ 2 ^ 53) (h : p.slackFor c = .ok (some slack))
    (hupper : (slack.upper : Rat) = p.toRat.slackRangeAt c.toRat (Binary64.value slack.rhs)) :
    p.KeepsAll c slack := by
  intro s hs hholds
  have hc := isExactInteger_of_slackFor h
  obtain ⟨n, hn⟩ : IsInteger (c.toRat.slackAt (Binary64.value slack.rhs) (valueAt s)) := by
    rw [Constraint.slackAt, Constraint.divisor_toRat hc]
    exact c.toRat.isInteger_slackSign.mul
      ((isInteger_slack_rhs h hrhs).2.sub (evaluate_div_spec hc hreach hs).1)
  have hnonneg := (slackAt_spec hrelation hrhs hreach h hs).1 hholds
  have hle := slackAt_le_slackRangeAt hs c.toRat (Binary64.value slack.rhs)
  rw [hn] at hnonneg
  rw [hn, ← hupper] at hle
  refine ⟨n, by exact_mod_cast hnonneg, by exact_mod_cast hle, ?_⟩
  rw [value_sign h, ← Constraint.divisor_toRat hc]
  exact Constraint.add_slackSign_mul_eq_iff.mpr hn.symm

/-- Without products an assignment needs the largest slack, so it is lost when the slack variable
stops short of it. -/
theorem not_keepsAll_of_upper_lt (hp : p.WellFormed) (hrelation : c.relation ≠ .eq)
    (hlinear : c.isLinear = true) (hrhs : c.rhs.isFinite = true)
    (hreach : p.toRat.reach c.toRat ≤ 2 ^ 53) (h : p.slackFor c = .ok (some slack))
    (hpos : 0 < p.toRat.slackRangeAt c.toRat (Binary64.value slack.rhs))
    (hupper : (slack.upper : Rat) < p.toRat.slackRangeAt c.toRat (Binary64.value slack.rhs)) :
    ¬p.KeepsAll c slack := by
  intro hkeeps
  have hc := isExactInteger_of_slackFor h
  obtain ⟨s, hs, hneeded⟩ := exists_slackAt_eq hp.toRat (Constraint.isLinear_toRat hlinear)
    (Binary64.value slack.rhs)
  obtain ⟨n, -, hn, heq⟩ := hkeeps s hs
    ((slackAt_spec hrelation hrhs hreach h hs).2 (hneeded ▸ hpos))
  rw [value_sign h, ← Constraint.divisor_toRat hc, Constraint.add_slackSign_mul_eq_iff,
    hneeded] at heq
  have hn : (n : Rat) ≤ slack.upper := by exact_mod_cast hn
  linarith

/-- **The inequalities that lose no assignment.** Take an inequality whose terms together stay
within `2 ^ 53`. If the stage for slack variables accepts it, then it is dropped or its slack
variable goes up to exactly the largest slack that the bounds of the variables allow, and every
admissible assignment that satisfies the inequality has a slack in this range that solves the
divided equality exactly. The one exception is a largest slack of `2 ^ 53 + 1`: the slack variable
goes up to `2 ^ 53` only, and without products an assignment is lost. -/
theorem addSlacks_keepsAll (hp : p.Built) (h : Stage.inequalityToEquality.apply p = .ok (q, r))
    (hmem : c ∈ p.constraints) (hrelation : c.relation ≠ .eq) (hrhs : c.rhs.isFinite = true)
    (hreach : p.toRat.reach c.toRat ≤ 2 ^ 53) :
    p.slackFor c = .ok none ∨ ∃ slack, p.slackFor c = .ok (some slack) ∧ q.Emits c slack ∧
      ((slack.upper : Rat) = p.toRat.slackRangeAt c.toRat (Binary64.value slack.rhs) ∧
          p.KeepsAll c slack ∨
        p.toRat.slackRangeAt c.toRat (Binary64.value slack.rhs) = 2 ^ 53 + 1 ∧
          slack.upper = 2 ^ 53 ∧ (c.isLinear = true → ¬p.KeepsAll c slack)) := by
  refine (addSlacks_emitsAll hp.wellFormed h c hmem hrelation).imp_right ?_
  rintro ⟨slack, hslack, hemits⟩
  refine ⟨slack, hslack, hemits, ?_⟩
  rcases upper_spec hrhs hreach hslack with hupper | ⟨hwide, hupper⟩
  · exact .inl ⟨hupper, keepsAll_of_upper_eq hrelation hrhs hreach hslack hupper⟩
  · refine .inr ⟨hwide, hupper, fun hlinear =>
      not_keepsAll_of_upper_lt hp.wellFormed hrelation hlinear hrhs hreach hslack ?_ ?_⟩
    · rw [hwide]
      norm_num
    · rw [hwide, hupper]
      norm_num

end Problem

/-- At least `-9` for `4k - 6x`. -/
def floorBound : Constraint Float := .ofLinear "floor" (Terms.ofList [(0, -6), (2, 4)]) .ge (-9)

/-- At most one. -/
def ceilingBound : Constraint Float := .ofLinear "ceiling" (Terms.ofList [(1, 1)]) .le 1

/-- A binary variable `x`, an integer from `-2 ^ 53` to `2 ^ 53` and an integer `k` from -5 to 7. -/
def damming : Problem Float where
  name := "damming"
  vars := [⟨"x", .binary, 0⟩, ⟨"n", .integer (-2 ^ 53) (2 ^ 53), 1⟩, ⟨"k", .integer (-5) 7, 2⟩]
  objective := Objective.zero
  constraints := [floorBound, ceilingBound]

theorem damming_built : damming.Built := Problem.built_iff_assemble_eq.mpr rfl

/-- The first inequality of the damming problem loses no assignment. The second one needs a slack of
`2 ^ 53 + 1` at the smallest value of its variable, which is lost. -/
theorem damming_keepsAll :
    ∃ q r, Stage.inequalityToEquality.apply damming = .ok (q, r) ∧
      (∃ slack, q.Emits floorBound slack ∧ slack.upper = 18 ∧
        damming.KeepsAll floorBound slack) ∧
      ∃ slack, q.Emits ceilingBound slack ∧ slack.upper = 2 ^ 53 ∧
        ¬damming.KeepsAll ceilingBound slack := by
  have hok : (Stage.inequalityToEquality.apply damming).isOk = true := by decide +kernel
  obtain ⟨⟨q, r⟩, h⟩ := isOk_iff.mp hok
  have hfloor : (damming.slackFor floorBound).toOption.map
      (fun slack => slack.map fun slack => slack.upper) = some (some 18) := by decide +kernel
  have hceiling : (damming.slackFor ceilingBound).toOption.map
      (fun slack => slack.map fun slack => (slack.upper, value slack.rhs)) =
        some (some (2 ^ 53, 1)) := by decide +kernel
  refine ⟨q, r, h, ?_, ?_⟩
  · rcases Problem.addSlacks_keepsAll damming_built h (c := floorBound) (by simp [damming])
      (by decide) (by decide +kernel) (by decide +kernel) with
      hnone | ⟨slack, hslack, hemits, hcase⟩
    · simp [hnone, Except.toOption] at hfloor
    · have hupper : slack.upper = 18 := by simpa [hslack, Except.toOption] using hfloor
      rcases hcase with ⟨-, hkeeps⟩ | ⟨-, hwide, -⟩
      · exact ⟨slack, hemits, hupper, hkeeps⟩
      · omega
  · rcases Problem.addSlacks_keepsAll damming_built h (c := ceilingBound) (by simp [damming])
      (by decide) (by decide +kernel) (by decide +kernel) with
      hnone | ⟨slack, hslack, hemits, hcase⟩
    · simp [hnone, Except.toOption] at hceiling
    · obtain ⟨hupper, hrhs⟩ : slack.upper = 2 ^ 53 ∧ value slack.rhs = 1 := by
        simpa [hslack, Except.toOption] using hceiling
      rcases hcase with ⟨hrange, -⟩ | ⟨-, -, hloses⟩
      · have hwide : damming.toRat.slackRangeAt ceilingBound.toRat 1 = 2 ^ 53 + 1 := by
          decide +kernel
        rw [hrhs, hwide, hupper] at hrange
        norm_num at hrange
      · exact ⟨slack, hemits, hupper, hloses (by decide)⟩

/-- At most `-9007199254740987`. -/
def driftingBound : Constraint Float :=
  .ofLinear "c" (Terms.ofList [(0, 1)]) .le (-9007199254740987)

/-- An integer from `-2 ^ 53 - 1` to zero, whose lower bound is not a double. -/
def drifting : Problem Float where
  name := "drifting"
  vars := [⟨"n", .integer (-9007199254740993) 0, 0⟩]
  objective := Objective.zero
  constraints := [driftingBound]

/-- **A small range that is too small.** The lower bound is rounded to `-2 ^ 53`, so the slack goes
up to five, and the assignment of the lower bound, which satisfies the inequality and needs six, is
lost. -/
theorem drifting_loses :
    drifting.Built ∧ (∀ v ∈ drifting.vars, v.domain.InWords) ∧
      drifting.toRat.Admissible [-9007199254740993] ∧
      driftingBound.toRat.Holds (valueAt [-9007199254740993]) ∧
      ∃ q r slack, Stage.inequalityToEquality.apply drifting = .ok (q, r) ∧
        drifting.slackFor driftingBound = .ok (some slack) ∧ q.Emits driftingBound slack ∧
        slack.upper = 5 ∧ driftingBound.toRat.slackAt (value slack.rhs)
          (valueAt [-9007199254740993]) = 6 ∧ ¬drifting.KeepsAll driftingBound slack := by
  have hbuilt : drifting.Built := Problem.built_iff_assemble_eq.mpr rfl
  have hok : (Stage.inequalityToEquality.apply drifting).isOk = true := by decide +kernel
  obtain ⟨⟨q, r⟩, h⟩ := isOk_iff.mp hok
  have hfields : (drifting.slackFor driftingBound).toOption.map (fun slack => slack.map fun slack =>
      (slack.upper, driftingBound.toRat.slackAt (value slack.rhs)
        (valueAt [-9007199254740993]))) = some (some (5, 6)) := by decide +kernel
  have hadmissible : drifting.toRat.Admissible [-9007199254740993] := by decide +kernel
  have hholds : driftingBound.toRat.Holds (valueAt [-9007199254740993]) := by decide +kernel
  refine ⟨hbuilt, by simp [drifting, Domain.InWords, isWord_iff, Domain.lower, Domain.upper],
    hadmissible, hholds, ?_⟩
  rcases Problem.addSlacks_emitsAll hbuilt.wellFormed h driftingBound (by simp [drifting])
    (by decide) with hnone | ⟨slack, hslack, hemits⟩
  · simp [hnone, Except.toOption] at hfields
  · obtain ⟨hupper, hneeded⟩ : slack.upper = 5 ∧ driftingBound.toRat.slackAt (value slack.rhs)
        (valueAt [-9007199254740993]) = 6 := by
      simpa [hslack, Except.toOption] using hfields
    refine ⟨q, r, slack, h, hslack, hemits, hupper, hneeded, fun hkeeps => ?_⟩
    obtain ⟨n, -, hn, heq⟩ := hkeeps _ hadmissible hholds
    have hdivisor : driftingBound.divisor = driftingBound.toRat.divisor := by decide +kernel
    rw [Problem.value_sign hslack, hdivisor, Constraint.add_slackSign_mul_eq_iff, hneeded] at heq
    have heq : n = 6 := by exact_mod_cast heq
    omega

end QuboReduction

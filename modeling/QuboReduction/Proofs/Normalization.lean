import QuboReduction.Proofs.Gap
import QuboReduction.Proofs.IntegralDoubles
import QuboReduction.Proofs.Reciprocal
import QuboReduction.Proofs.StageMagnitudes

/-!
# Normalized inequalities in double precision

The stage for slack variables divides the coefficients of an inequality by their greatest common
divisor. It does so by multiplying them by its reciprocal, so a coefficient of the equality can miss
the integer that it stands for by a part in `2 ^ 51`. The coefficients are exact for every divisor
whose reciprocal is close enough, in particular for all divisors below 49. The right-hand side is
divided, not multiplied, and rounded, so it is always an integer.

## Main definitions

* `QuboReduction.Binary64.DividedBy` — a coefficient after division.
* `QuboReduction.Constraint.NormalizesTo` — an equality that stands for a divided inequality.

## Main results

* `QuboReduction.Problem.addSlacks_normalizes` — the equalities that the stage leaves.
* `QuboReduction.scattering_not_exact` — a coefficient that is not exact.
-/

namespace QuboReduction

namespace Binary64

variable {g : Nat} {a b : Float}

/-- The integer that a coefficient is divided to. -/
def quotient (g : Nat) (a : Float) : Int := integerPart a / g

/-- The coefficient `b` stands for the integer that the coefficient `a` is divided to by `g`. -/
structure DividedBy (g : Nat) (a b : Float) : Prop where
  /-- The division leaves no remainder. -/
  value_eq : value a = quotient g a * g
  /-- The result is a finite number. -/
  isFinite : b.isFinite = true
  /-- It is the integer up to a part in `2 ^ 51`. -/
  abs_sub_le : |value b - quotient g a| ≤ |(quotient g a : Rat)| / 2 ^ 51
  /-- It is the integer itself if the reciprocal of the divisor is close enough. -/
  eq_of_exact : ExactReciprocal g → value b = quotient g a

/-- A coefficient that the stage for slack variables accepts. -/
structure IsExactInteger (a : Float) : Prop extends AtMost (2 ^ 53) a where
  /-- It is an integer. -/
  isInteger : IsInteger (value a)

theorem IsExactInteger.value_eq (h : IsExactInteger a) : value a = integerPart a := by
  obtain ⟨n, hn⟩ := h.isInteger
  rw [integerPart_of_value_eq h.isFinite hn, hn]

/-- The integer part of the absolute value of a coefficient. -/
theorem IsExactInteger.truncate_abs (h : IsExactInteger a) :
    (Scalar.truncate (Scalar.abs a)).toNat = (integerPart a).natAbs := by
  obtain ⟨hfinite, habs⟩ := value_abs h.isFinite
  have hpart : integerPart a.abs = |integerPart a| := by
    refine integerPart_of_value_eq hfinite ?_
    rw [habs, h.value_eq, Int.cast_abs]
  change (integerPart a.abs).toNat = _
  rw [hpart, Int.abs_eq_natAbs, Int.toNat_natCast]

/-- A coefficient that `g` divides is divided by multiplying it by the reciprocal. -/
theorem IsExactInteger.dividedBy (h : IsExactInteger a) (hpos : 0 < g) (hg : g ≤ 2 ^ 53)
    (hdvd : g ∣ (integerPart a).natAbs) : DividedBy g a (a * reciprocal g) := by
  have hvalue : value a = quotient g a * g := by
    have hmul : quotient g a * g = integerPart a := Int.ediv_mul_cancel (Int.natCast_dvd.mpr hdvd)
    rw [h.value_eq, ← hmul]
    push_cast
    rfl
  obtain ⟨hfinite, herror, hexact⟩ := mul_reciprocal hpos hg h.isFinite hvalue h.abs_le
  exact ⟨hvalue, hfinite, herror, hexact⟩

/-- A coefficient that is not zero is not divided to zero. -/
theorem DividedBy.value_ne_zero (h : DividedBy g a b) (ha : value a ≠ 0) : value b ≠ 0 := by
  intro hzero
  have herror := h.abs_sub_le
  rw [hzero, zero_sub, abs_neg] at herror
  have hpos : 0 < |(quotient g a : Rat)| := by
    refine abs_pos.mpr fun hquotient => ha ?_
    rw [h.value_eq, hquotient, zero_mul]
  linarith [div_lt_self hpos (by norm_num : (1 : Rat) < 2 ^ 51)]

/-! ### Terms -/

/-- The terms `t` have the keys of the terms `s`, and coefficients that are divided by `g`. -/
def TermsDividedBy {κ : Type} (g : Nat) (s t : List (κ × Float)) : Prop :=
  List.Forall₂ (fun s t => t.1 = s.1 ∧ DividedBy g s.2 t.2) s t

theorem value_ne_zero_of_beq (ha : a.isFinite = true) (h : (a == 0.0) = false) : value a ≠ 0 := by
  intro hzero
  rw [(beq_iff_value_eq ha isFinite_zero).mpr (by rw [hzero, value_zero])] at h
  contradiction

/-- **No term goes away** when a sum is multiplied by the reciprocal of a divisor of its
coefficients. -/
theorem termsDividedBy_scale {κ : Type} [Ord κ] {e : Terms κ Float} (hpos : 0 < g)
    (hg : g ≤ 2 ^ 53)
    (he : ∀ a ∈ e.coefficients, IsExactInteger a ∧ g ∣ (integerPart a).natAbs) :
    TermsDividedBy g e.toList (e.scale (reciprocal g)).toList := by
  have hdivided : ∀ t ∈ e.toList, DividedBy g t.2 (t.2 * reciprocal g) := fun t ht => by
    obtain ⟨hexact, hdvd⟩ := he t.2 (List.mem_map_of_mem ht)
    exact hexact.dividedBy hpos hg hdvd
  have hkept : (e.scale (reciprocal g)).toList =
      e.toList.map fun t => (t.1, t.2 * reciprocal g) := by
    refine List.filter_eq_self.mpr fun u hu => ?_
    obtain ⟨t, ht, rfl⟩ := List.mem_map.mp hu
    have hfinite := (he t.2 (List.mem_map_of_mem ht)).1.isFinite
    have hne := (hdivided t ht).value_ne_zero (value_ne_zero_of_beq hfinite (e.nonzero t ht))
    rw [Bool.not_eq_true', ← Bool.not_eq_true]
    exact fun hzero => hne (((beq_iff_value_eq (hdivided t ht).isFinite isFinite_zero).mp
      hzero).trans value_zero)
  rw [hkept, TermsDividedBy, List.forall₂_map_right_iff]
  exact List.forall₂_same.mpr fun t ht => ⟨rfl, hdivided t ht⟩

end Binary64

open Binary64 (DividedBy ExactReciprocal IsExactInteger TermsDividedBy integerPart quotient
  reciprocal value)

/-! ### Equalities -/

namespace Constraint

variable {c d : Constraint Float} {size index : Nat} {sign : Float}

/-- The equality `d` stands for the inequality `c` over `size` variables, divided by the common
divisor of its coefficients. -/
structure NormalizesTo (c d : Constraint Float) (size : Nat) : Prop where
  /-- It has the name of the inequality. -/
  name_eq : d.name = c.name
  /-- It is an equality. -/
  relation_eq : d.relation = .eq
  /-- The terms of degree one are divided, and the term of a slack variable may come after them. -/
  linear : ∃ terms slack, d.linear.toList = terms ++ slack ∧
    TermsDividedBy c.divisor c.linear.toList terms ∧
      (slack = [] ∨ ∃ index sign, size ≤ index ∧ (sign = 1 ∨ sign = -1) ∧
        slack = [(index, sign)])
  /-- The terms of degree two are divided. -/
  quadratic : TermsDividedBy c.divisor c.quadratic.toList d.quadratic.toList
  /-- The integers that the coefficients stand for have no common divisor. -/
  coprime : c.coefficients ≠ [] →
    ∀ k : Nat, (∀ a ∈ c.coefficients, (k : Int) ∣ quotient c.divisor a) → k = 1
  /-- The right-hand side is an integer. -/
  rhs : c.rhs.isFinite = true → d.rhs.isFinite = true ∧ IsInteger (value d.rhs)

theorem nonzero_coefficients (c : Constraint Float) : ∀ a ∈ c.coefficients, (a == 0.0) = false := by
  intro a ha
  rcases List.mem_append.mp ha with ha | ha
  · obtain ⟨t, ht, rfl⟩ := List.mem_map.mp ha
    exact c.linear.nonzero t ht
  · obtain ⟨t, ht, rfl⟩ := List.mem_map.mp ha
    exact c.quadratic.nonzero t ht

theorem divisor_dvd_integerPart (hc : ∀ a ∈ c.coefficients, IsExactInteger a) :
    ∀ a ∈ c.coefficients, c.divisor ∣ (integerPart a).natAbs := fun a ha =>
  (hc a ha).truncate_abs ▸ divisor_dvd ha

/-- After division by their greatest common divisor the coefficients have no common divisor. -/
theorem quotients_coprime (hc : ∀ a ∈ c.coefficients, IsExactInteger a)
    (hne : c.coefficients ≠ []) {k : Nat}
    (hk : ∀ a ∈ c.coefficients, (k : Int) ∣ quotient c.divisor a) : k = 1 := by
  obtain ⟨a, ha⟩ := List.exists_mem_of_ne_nil _ hne
  have hdvd : k * c.divisor ∣ c.divisor := by
    refine dvd_divisor ha ?_ fun b hb => ?_
    · rw [(hc a ha).truncate_abs, Int.natAbs_ne_zero]
      intro hzero
      refine Binary64.value_ne_zero_of_beq (hc a ha).isFinite (c.nonzero_coefficients a ha) ?_
      rw [(hc a ha).value_eq, hzero, Int.cast_zero]
    · have hcancel : quotient c.divisor b * c.divisor = integerPart b :=
        Int.ediv_mul_cancel (Int.natCast_dvd.mpr (divisor_dvd_integerPart hc b hb))
      rw [(hc b hb).truncate_abs, ← Int.natCast_dvd, ← hcancel]
      push_cast
      exact mul_dvd_mul_right (hk b hb) _
  exact Nat.dvd_one.mp (Nat.dvd_of_mul_dvd_mul_right c.one_le_divisor (by simpa using hdvd))

/-- The equality keeps its meaning when a slack variable is added to it that comes after all other
variables. -/
theorem NormalizesTo.addTerm (h : c.NormalizesTo d size)
    (hterms : TermsDividedBy c.divisor c.linear.toList d.linear.toList)
    (hbelow : d.linear.Below index) (hindex : size ≤ index) (hsign : sign = 1 ∨ sign = -1) :
    c.NormalizesTo { d with linear := d.linear.addTerm index sign } size := by
  have hlast : (d.linear.addTerm index sign).toList = d.linear.toList ++ [(index, sign)] := by
    refine Terms.insertTerm_of_last ?_ fun t ht => ?_
    · rcases hsign with rfl | rfl <;> decide +kernel
    · exact Nat.compare_eq_lt.mpr (hbelow t ht)
  exact ⟨h.name_eq, h.relation_eq,
    ⟨_, _, hlast, hterms, Or.inr ⟨index, sign, hindex, hsign, rfl⟩⟩, h.quadratic, h.coprime, h.rhs⟩

end Constraint

namespace Problem

variable {p q : Problem Float} {r : Record Float} {c : Constraint Float} {slack : Slack Float}

/-- A slack is only computed for integers that are not too large. -/
theorem slackFor_coefficients {α : Type} [Scalar α] {p : Problem α} {c : Constraint α}
    {slack : Slack α} (h : p.slackFor c = .ok (some slack)) :
    ∀ a ∈ c.coefficients, Scalar.isIntegral a = true ∧ ¬exactLimit < Scalar.abs a := by
  simp only [slackFor] at h
  split at h
  · contradiction
  · rename_i hintegral
    split at h
    · contradiction
    · rename_i hlarge
      simp only [List.any_eq_true, not_exists, not_and, Bool.not_eq_true', Bool.not_eq_false,
        decide_eq_true_iff] at hintegral hlarge
      exact fun a ha => ⟨hintegral a ha, hlarge a ha⟩

theorem isExactInteger_of_slackFor (h : p.slackFor c = .ok (some slack)) :
    ∀ a ∈ c.coefficients, IsExactInteger a := by
  intro a ha
  obtain ⟨hintegral, hlarge⟩ := slackFor_coefficients h a ha
  obtain ⟨hfinite, hinteger⟩ := Binary64.isInteger_of_isIntegral hintegral
  obtain ⟨habs, hvalue⟩ := Binary64.value_abs hfinite
  refine ⟨⟨hfinite, ?_⟩, hinteger⟩
  rw [← hvalue, ← not_lt]
  refine fun hlt => hlarge ((Binary64.lt_iff_value_lt exactLimit_atMost.isFinite habs).mpr ?_)
  rw [value_exactLimit]
  exact_mod_cast hlt

/-- The right-hand side is divided and rounded to an integer. -/
theorem isInteger_slack_rhs (h : p.slackFor c = .ok (some slack))
    (hrhs : c.rhs.isFinite = true) :
    slack.rhs.isFinite = true ∧ IsInteger (Binary64.value slack.rhs) := by
  obtain ⟨hfinite, hone⟩ := divisor_atMost (k := 53)
    (fun a ha => (isExactInteger_of_slackFor h a ha).toAtMost) (by omega)
  have hquotient : (c.rhs / Scalar.ofInt c.divisor).isFinite = true :=
    (Binary64.AtMost.div ⟨hrhs, le_rfl⟩ hfinite.isFinite hone
      (Binary64.isDouble_abs_value hrhs)).isFinite
  obtain ⟨hdivisor, hround, -, -⟩ := slackFor_fields h
  rw [← hdivisor] at hquotient
  rcases hround with hround | hround
  · rw [hround]
    exact Binary64.isInteger_roundBy Binary64.abs_ceilDiv_le hquotient
  · rw [hround]
    exact Binary64.isInteger_roundBy Binary64.abs_floorDiv_le hquotient

/-- **Division.** An equality without a slack variable stands for the divided inequality. -/
theorem tightened_normalizesTo (h : p.slackFor c = .ok (some slack)) (size : Nat) :
    TermsDividedBy c.divisor c.linear.toList (c.tightened slack).linear.toList ∧
      c.NormalizesTo (c.tightened slack) size := by
  have hc := isExactInteger_of_slackFor h
  have hle : c.divisor ≤ 2 ^ 53 := divisor_le fun a ha => (hc a ha).toAtMost
  obtain ⟨hdivisor, -, -, -⟩ := slackFor_fields h
  have hreciprocal : 1 / slack.divisor = reciprocal c.divisor := by rw [hdivisor]; rfl
  have hdvd : ∀ a ∈ c.coefficients, IsExactInteger a ∧ c.divisor ∣ (integerPart a).natAbs :=
    fun a ha => ⟨hc a ha, Constraint.divisor_dvd_integerPart hc a ha⟩
  have hlinear := Binary64.termsDividedBy_scale c.one_le_divisor hle fun a ha =>
    hdvd a (List.mem_append_left _ ha)
  have hquadratic := Binary64.termsDividedBy_scale c.one_le_divisor hle fun a ha =>
    hdvd a (List.mem_append_right _ ha)
  rw [← hreciprocal] at hlinear hquadratic
  exact ⟨hlinear, rfl, rfl, ⟨_, [], (List.append_nil _).symm, hlinear, Or.inl rfl⟩, hquadratic,
    fun hne _ => Constraint.quotients_coprime hc hne, isInteger_slack_rhs h⟩

/-! ### The stage -/

/-- What has become of the inequalities that the stage has been through. -/
structure NormalizedSoFar (p : Problem Float) (done : List (Constraint Float))
    (q : Problem Float) : Prop where
  /-- The variables of the source are kept. -/
  size_le : p.size ≤ q.size
  /-- An inequality is dropped, or there is an equality that stands for it. -/
  normalizes : ∀ c ∈ done, c.relation ≠ .eq →
    p.slackFor c = .ok none ∨ ∃ d ∈ q.constraints, c.NormalizesTo d p.size

theorem NormalizedSoFar.snoc {done : List (Constraint Float)} {q' : Problem Float}
    (h : p.NormalizedSoFar done q) (hsize : q.size ≤ q'.size)
    (hmem : ∀ d ∈ q.constraints, d ∈ q'.constraints)
    (hc : c.relation ≠ .eq →
      p.slackFor c = .ok none ∨ ∃ d ∈ q'.constraints, c.NormalizesTo d p.size) :
    p.NormalizedSoFar (done ++ [c]) q' := by
  refine ⟨h.size_le.trans hsize, fun b hb hrelation => ?_⟩
  rcases List.mem_append.mp hb with hb | hb
  · exact (h.normalizes b hb hrelation).imp_right fun ⟨d, hd, hnormalizes⟩ =>
      ⟨d, hmem d hd, hnormalizes⟩
  · rw [List.mem_singleton.mp hb] at hrelation ⊢
    exact hc hrelation

theorem NormalizedSoFar.step {done : List (Constraint Float)} {q' : Problem Float}
    {slacks slacks' : List Nat} (h : p.NormalizedSoFar done q) (hbelow : c.Below p.size)
    (hnamed : c.name ≠ "") (hstep : p.addTightened (q, slacks) c = .ok (q', slacks')) :
    p.NormalizedSoFar (done ++ [c]) q' := by
  rcases addTightened_ok hstep with ⟨hrelation, hadd, -⟩ | ⟨-, hnone, rfl, -⟩ |
    ⟨-, slack, hslack, ⟨-, hadd, -⟩ | ⟨-, q₁, index, hvariable, hadd, -⟩⟩
  · obtain ⟨-, -, rfl⟩ := (addConstraint_named_eq_ok_iff hnamed).mp hadd
    exact h.snoc le_rfl (fun d hd => List.mem_append_left _ hd) fun hne => absurd hrelation hne
  · exact h.snoc le_rfl (fun d hd => hd) fun _ => Or.inl hnone
  · have hname : (c.tightened slack).name ≠ "" := hnamed
    obtain ⟨-, -, rfl⟩ := (addConstraint_named_eq_ok_iff hname).mp hadd
    exact h.snoc le_rfl (fun d hd => List.mem_append_left _ hd) fun _ =>
      Or.inr ⟨_, List.mem_append_right _ List.mem_cons_self, (tightened_normalizesTo hslack _).2⟩
  · obtain ⟨-, -, rfl, rfl⟩ := addVariable_eq_ok_iff.mp hvariable
    have hname : ({ c.tightened slack with
        linear := (c.tightened slack).linear.addTerm q.size slack.sign } :
          Constraint Float).name ≠ "" := hnamed
    obtain ⟨-, -, rfl⟩ := (addConstraint_named_eq_ok_iff hname).mp hadd
    obtain ⟨-, -, hsign, -⟩ := slackFor_fields hslack
    obtain ⟨hterms, hnormalizes⟩ := tightened_normalizesTo hslack p.size
    have hlinear : (c.tightened slack).linear.Below q.size :=
      Linear.Below.mono (hbelow.1.scale _) h.size_le
    have hsize : q.size ≤ (q.declare (slackName c) (.integer 0 slack.upper)).size := by simp
    refine h.snoc hsize (fun d hd => List.mem_append_left _ hd) fun _ => Or.inr ⟨_, ?_,
      hnormalizes.addTerm hterms hlinear h.size_le hsign⟩
    exact List.mem_append_right _ List.mem_cons_self

/-- **Normalized inequalities.** An inequality that the stage for slack variables accepts is
dropped, or becomes an equality whose coefficients stand for integers without a common divisor next
to an integer and the unit coefficient of a slack variable. Each coefficient is its integer up to a
part in `2 ^ 51`, and it is that integer if the reciprocal of the divisor is close enough, as it is
for all divisors below 49. -/
theorem addSlacks_normalizes (hp : p.Built)
    (h : Stage.inequalityToEquality.apply p = .ok (q, r)) :
    (∀ c ∈ p.constraints, c.relation ≠ .eq →
      p.slackFor c = .ok none ∨ ∃ d ∈ q.constraints, c.NormalizesTo d p.size) ∧
      ∀ g, 0 < g → g < 49 → ExactReciprocal g := by
  obtain ⟨q₀, slacks, hobjective, hrun, -⟩ := addSlacks_steps h
  obtain ⟨-, rfl⟩ := setObjective_eq_ok_iff.mp hobjective
  have hrun := foldlM_ok_of_step (motive := fun done state => p.NormalizedSoFar done state.1)
    ⟨le_rfl, by simp⟩
    (fun before c after _ _ hsplit hs hstep =>
      have hc : c ∈ p.constraints := by simp [hsplit]
      hs.step (hp.wellFormed.constraint_below c hc) (hp.wellFormed.constraint_named c hc) hstep)
    hrun
  exact ⟨hrun.normalizes, fun g => Binary64.exactReciprocal_of_lt⟩

end Problem

/-! ### A coefficient that is not exact -/

/-- An inequality between 49 times and 98 times a bit and 100. -/
def scatteringBound : Constraint Float := .ofLinear "c" (.ofList [(0, 49), (1, 98)]) .le 100

/-- Two bits and an inequality between them. -/
def scattering : Problem Float where
  name := "scattering"
  vars := [⟨"x", .binary, 0⟩, ⟨"y", .binary, 1⟩]
  objective := Objective.zero
  constraints := [scatteringBound]

theorem scattering_built : scattering.Built := Problem.built_iff_assemble_eq.mpr rfl

/-- The bound of the scattering problem is kept by the slack stage, and its divisor is taken out of
all its coefficients. -/
theorem scattering_normalizes :
    ∃ q r, Stage.inequalityToEquality.apply scattering = .ok (q, r) ∧
      ∃ d ∈ q.constraints, scatteringBound.NormalizesTo d 2 := by
  have hok : (Stage.inequalityToEquality.apply scattering).isOk = true := by decide +kernel
  obtain ⟨⟨q, r⟩, h⟩ := isOk_iff.mp hok
  have hkept : (scattering.slackFor scatteringBound).toOption.any Option.isSome = true := by
    decide +kernel
  obtain ⟨hnormalizes, -⟩ := Problem.addSlacks_normalizes scattering_built h
  refine ⟨q, r, h, (hnormalizes scatteringBound List.mem_cons_self (by decide)).resolve_left ?_⟩
  intro hnone
  simp [hnone, Except.toOption] at hkept

/-- **A coefficient that is not exact.** The coefficients 49 and 98 are divided by 49, and neither
result is the integer that it stands for. -/
theorem scattering_not_exact :
    scattering.Built ∧ scatteringBound.divisor = 49 ∧
      scatteringBound.linear.toList.map (fun t => (t.1, value t.2)) = [(0, 49), (1, 98)] ∧
      ∃ q r, Stage.inequalityToEquality.apply scattering = .ok (q, r) ∧
        q.constraints.map (fun d => (d.linear.toList.map fun t => (t.1, value t.2), value d.rhs)) =
          [([(0, 1 - 1 / 2 ^ 53), (1, 2 - 1 / 2 ^ 52), (2, 1)], 2)] := by
  have hrun : (Stage.inequalityToEquality.apply scattering).toOption.map (fun s =>
      s.1.constraints.map fun d => (d.linear.toList.map fun t => (t.1, value t.2), value d.rhs)) =
        some [([(0, 1 - 1 / 2 ^ 53), (1, 2 - 1 / 2 ^ 52), (2, 1)], 2)] := by decide +kernel
  refine ⟨scattering_built, by decide +kernel, by decide +kernel, ?_⟩
  cases h : Stage.inequalityToEquality.apply scattering with
  | error e => simp [h, Except.toOption] at hrun
  | ok s => exact ⟨s.1, s.2, rfl, by simpa [h, Except.toOption] using hrun⟩

end QuboReduction

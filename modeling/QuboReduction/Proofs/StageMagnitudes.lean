import QuboReduction.Proofs.BitMagnitudes
import QuboReduction.Proofs.IntegralDoubles
import QuboReduction.Proofs.PenaltyMagnitudes
import QuboReduction.Stage.SquaredDeviation

/-!
# Magnitudes after stages

What each stage of the standard pipeline does to the magnitudes of the numbers of a problem, and to
the numbers of its variables and constraints. The bounds are powers of two; a stage adds to the
exponents what its products and sums can add.

## Main definitions

* `QuboReduction.Problem.Magnitudes` — problems with finite numbers of bounded magnitudes.
* `QuboReduction.Problem.SlacksBelow` — problems with bounded slack variables.

## Main results

* `QuboReduction.Problem.foldShapes_magnitudes`, `QuboReduction.Problem.addSlacks_magnitudes`,
  `QuboReduction.Problem.binarize_magnitudes`, `QuboReduction.Problem.foldEqualities_magnitudes`,
  `QuboReduction.Problem.orient_magnitudes` — the stages.
* `QuboReduction.Problem.addSlacks_counts` — the variables and constraints after the stage for slack
  variables.
-/

namespace QuboReduction

open Binary64 (AtMost)

namespace Problem

variable {p q : Problem Float} {r : Record Float} {given : Option Float} {i k l m n s t u w : Nat}

/-- The numbers of a problem are finite, and their magnitudes are at most powers of two: those of
the objective, of the coefficients of the constraints, and of the right-hand sides. -/
@[mk_iff]
structure Magnitudes (p : Problem Float) (k l m : Nat) : Prop where
  /-- The numbers of the objective are bounded. -/
  objective : p.objective.polynomial.AtMost (2 ^ k)
  /-- The numbers of the constraints are bounded. -/
  constraints : ∀ c ∈ p.constraints, c.AtMost (2 ^ l) (2 ^ m)

instance (p : Problem Float) : Decidable (p.Magnitudes k l m) :=
  decidable_of_iff _ (magnitudes_iff p k l m).symm

theorem Magnitudes.of_addConstraint {c : Constraint Float} (hp : p.Magnitudes k l m)
    (hc : c.AtMost (2 ^ l) (2 ^ m)) (h : p.addConstraint c = .ok q) : q.Magnitudes k l m := by
  obtain ⟨-, -, rfl⟩ := addConstraint_eq_ok_iff.mp h
  refine ⟨hp.objective, fun d hd => ?_⟩
  rcases List.mem_append.mp hd with hd | hd
  · exact hp.constraints d hd
  · rw [List.mem_singleton.mp hd]
    exact ⟨hc.linear, hc.quadratic, hc.rhs⟩

theorem Magnitudes.of_addConstraints {cs : List (Constraint Float)} (hp : p.Magnitudes k l m)
    (hcs : ∀ c ∈ cs, c.AtMost (2 ^ l) (2 ^ m)) (h : p.addConstraints cs = .ok q) :
    q.Magnitudes k l m :=
  foldlM_ok_of_step (motive := fun _ q => q.Magnitudes k l m) hp
    (fun before c after _ _ hl hs hstep =>
      hs.of_addConstraint (hcs c (by simp [hl])) hstep) h

/-! ### The stage for shapes -/

theorem foldShapes_counts (h : p.foldShapes given = .ok (q, r)) :
    q.vars = p.vars ∧ q.constraints.length ≤ p.constraints.length := by
  obtain ⟨_, _, -, hobjective, hconstraints, -⟩ := foldShapes_steps h
  obtain ⟨-, rfl⟩ := setObjective_eq_ok_iff.mp hobjective
  obtain ⟨hvars, hlength⟩ := vars_of_addConstraints hconstraints
  have hfilter : p.genericConstraints.length ≤ p.constraints.length := List.length_filter_le _ _
  exact ⟨hvars, by simpa [hlength, variablesOnly] using hfilter⟩

/-- The constraints without a shape are kept as they are. -/
theorem foldShapes_constraints (hp : p.WellFormed) (h : p.foldShapes given = .ok (q, r)) :
    q.constraints = p.genericConstraints := by
  obtain ⟨_, _, -, hobjective, hconstraints, -⟩ := foldShapes_steps h
  obtain ⟨-, rfl⟩ := setObjective_eq_ok_iff.mp hobjective
  have hnamed : ∀ c ∈ p.genericConstraints, c.name ≠ "" := fun c hc =>
    hp.constraint_named c (List.mem_filter.mp hc).1
  obtain ⟨-, -, rfl⟩ :=
    (addConstraints_eq_ok_iff hnamed (by simp [variablesOnly])).mp hconstraints
  simp [variablesOnly]

/-- **The stage for shapes** adds a penalty for each constraint with a shape to the objective, and
keeps the other constraints. -/
theorem foldShapes_magnitudes (hp : p.WellFormed) (hm : p.Magnitudes k l m)
    (hfactor : ∀ f, p.penaltyFactor given = .ok f → AtMost (2 ^ i) f) (hsize : p.size ≤ 2 ^ s)
    (hcount : p.constraints.length ≤ 2 ^ t) (hs : 2 * s ≤ 53) (ht : t < 53)
    (hk : k + t + 1 ≤ n) (hi : i + 2 * s + t + 1 ≤ n) (hlarge : n < 1024)
    (h : p.foldShapes given = .ok (q, r)) : q.Magnitudes n l m := by
  obtain ⟨factor, _, hok, hobjective, hconstraints, -⟩ := foldShapes_steps h
  obtain ⟨-, rfl⟩ := setObjective_eq_ok_iff.mp hobjective
  have hpenalties : (p.withShapePenalties factor).polynomial.AtMost (2 ^ n) :=
    withShapePenalties_atMost hm.objective hp (hfactor factor hok) hsize hcount hs ht hk hi hlarge
  exact Magnitudes.of_addConstraints (l := l) (m := m) ⟨hpenalties, by simp [variablesOnly]⟩
    (fun c hc => hm.constraints c (List.mem_filter.mp hc).1) hconstraints

/-! ### The stage for slack variables -/

/-- The slack of an inequality depends on the bounds of the variables only. -/
theorem slackFor_congr {α : Type} [Scalar α] {p q : Problem α} (h : q.vars = p.vars)
    (c : Constraint α) : q.slackFor c = p.slackFor c := by
  have hbounds : q.boundsAt = p.boundsAt := by
    funext i
    rw [boundsAt, variableAt?, h]
    rfl
  have hrange : q.rangeOf c = p.rangeOf c := by
    simp only [rangeOf, pairRange, hbounds]
  simp only [slackFor, hrange]

/-- What a slack is computed from, and what its right-hand side has been compared with. -/
theorem slackFor_steps {α : Type} [Scalar α] {p : Problem α} {c : Constraint α} {slack : Slack α}
    (h : p.slackFor c = .ok (some slack)) :
    slack.divisor = Scalar.ofInt c.divisor ∧
      ((c.relation = .ge ∧ slack.sign = -1 ∧ slack.rhs = Scalar.ceil (c.rhs / slack.divisor) ∧
          ¬(p.rangeOf c).upper / slack.divisor < slack.rhs ∧
          ¬slack.rhs ≤ (p.rangeOf c).lower / slack.divisor ∧
          slackUpper c ((p.rangeOf c).upper / slack.divisor - slack.rhs) = .ok slack.upper) ∨
        (c.relation ≠ .ge ∧ slack.sign = 1 ∧ slack.rhs = Scalar.floor (c.rhs / slack.divisor) ∧
          ¬slack.rhs < (p.rangeOf c).lower / slack.divisor ∧
          ¬(p.rangeOf c).upper / slack.divisor ≤ slack.rhs ∧
          slackUpper c (slack.rhs - (p.rangeOf c).lower / slack.divisor) = .ok slack.upper)) := by
  simp only [slackFor] at h
  split at h
  · contradiction
  · split at h
    · contradiction
    · split at h
      · rename_i hrelation
        split at h
        · contradiction
        · rename_i hfeasible
          split at h
          · simp [pure, Except.pure] at h
          · rename_i hneeded
            obtain ⟨upper, hupper, h⟩ := bind_eq_ok.mp h
            rw [pure_eq_ok, Option.some.injEq] at h
            rw [← h]
            exact ⟨rfl, Or.inl ⟨hrelation, rfl, rfl, hfeasible, hneeded, hupper⟩⟩
      · rename_i hrelation
        split at h
        · contradiction
        · rename_i hfeasible
          split at h
          · simp [pure, Except.pure] at h
          · rename_i hneeded
            obtain ⟨upper, hupper, h⟩ := bind_eq_ok.mp h
            rw [pure_eq_ok, Option.some.injEq] at h
            rw [← h]
            exact ⟨rfl, Or.inr ⟨hrelation, rfl, rfl, hfeasible, hneeded, hupper⟩⟩

theorem slackFor_fields {α : Type} [Scalar α] {p : Problem α} {c : Constraint α} {slack : Slack α}
    (h : p.slackFor c = .ok (some slack)) :
    slack.divisor = Scalar.ofInt c.divisor ∧
      (slack.rhs = Scalar.ceil (c.rhs / slack.divisor) ∨
        slack.rhs = Scalar.floor (c.rhs / slack.divisor)) ∧
      (slack.sign = 1 ∨ slack.sign = -1) ∧
      ∃ range, slackUpper c range = .ok slack.upper := by
  obtain ⟨hdivisor, ⟨-, hsign, hrhs, -, -, hupper⟩ | ⟨-, hsign, hrhs, -, -, hupper⟩⟩ :=
    slackFor_steps h
  · exact ⟨hdivisor, Or.inl hrhs, Or.inr hsign, _, hupper⟩
  · exact ⟨hdivisor, Or.inr hrhs, Or.inl hsign, _, hupper⟩

theorem exactLimit_atMost : AtMost (2 ^ 53) (exactLimit : Float) :=
  Binary64.ofInt_atMost (n := 9007199254740992) (.two_pow (by omega)) (by norm_num)

theorem value_exactLimit : Binary64.value (exactLimit : Float) = (2 ^ 53 : Int) :=
  (Binary64.value_ofNat (n := 9007199254740992) (by norm_num)).trans (by norm_num)

/-- The largest value of a slack is small enough to be a double. -/
theorem slackUpper_le {c : Constraint Float} {range : Float} {upper : Int}
    (h : slackUpper c range = .ok upper) : upper ≤ 2 ^ 53 := by
  rw [slackUpper] at h
  split_ifs at h with hlimit
  rw [← Except.ok.inj h]
  change Binary64.integerPart range ≤ 2 ^ 53
  by_cases hfinite : range.isFinite = true
  · refine Binary64.integerPart_le hfinite ?_
    rw [← value_exactLimit]
    exact not_lt.mp fun hlt =>
      hlimit ((Binary64.lt_iff_value_lt exactLimit_atMost.isFinite hfinite).mpr hlt)
  · rw [Binary64.integerPart, if_neg hfinite]
    norm_num

variable {c : Constraint Float} {slack : Slack Float}

theorem foldl_gcd_le {as : List Float} {g : Nat} (has : ∀ a ∈ as, AtMost (2 ^ k) a)
    (hg : g ≤ 2 ^ k) :
    as.foldl (fun g a => Nat.gcd g (Scalar.truncate (Scalar.abs a)).toNat) g ≤ 2 ^ k := by
  induction as generalizing g with
  | nil => exact hg
  | cons a as ih =>
    obtain ⟨ha, has⟩ := List.forall_mem_cons.mp has
    refine ih has ?_
    rcases Nat.eq_zero_or_pos g with rfl | hpos
    · have hpart := Binary64.abs_integerPart_le (n := 2 ^ k) (by push_cast; exact ha.abs)
      refine (Nat.gcd_zero_left _).trans_le ?_
      exact Int.toNat_le.mpr (le_of_abs_le hpart)
    · exact (Nat.le_of_dvd hpos (Nat.gcd_dvd_left _ _)).trans hg

theorem divisor_le (hc : ∀ a ∈ c.coefficients, AtMost (2 ^ k) a) : c.divisor ≤ 2 ^ k :=
  max_le (foldl_gcd_le hc (Nat.zero_le _)) Nat.one_le_two_pow

/-- The greatest common divisor is a double that is at least one. -/
theorem divisor_atMost (hc : ∀ a ∈ c.coefficients, AtMost (2 ^ k) a) (hk : k < 1024) :
    AtMost (2 ^ k) (Scalar.ofInt c.divisor : Float) ∧
      1 ≤ Binary64.value (Scalar.ofInt c.divisor : Float) := by
  have hcast : ((c.divisor : Nat) : Rat) ≤ 2 ^ k := by exact_mod_cast divisor_le hc
  exact ⟨Binary64.ofNat_atMost (.two_pow hk) hcast,
    Binary64.one_le_ofNat (.two_pow hk) hcast (Nat.lt_of_lt_of_le one_pos (le_max_right _ _))⟩

/-- Dividing by a common divisor and rounding the right-hand side keeps the magnitudes. -/
theorem tightened_atMost (hc : c.AtMost (2 ^ k) (2 ^ l)) (h : p.slackFor c = .ok (some slack))
    (hk : k < 1024) (hl : l < 1024) : (c.tightened slack).AtMost (2 ^ k) (2 ^ l) := by
  obtain ⟨hdivisor, hrhs, -, -⟩ := slackFor_fields h
  have hcoefficients : ∀ a ∈ c.coefficients, AtMost (2 ^ k) a := by
    intro a ha
    rcases List.mem_append.mp ha with ha | ha
    · obtain ⟨u, hu, rfl⟩ := List.mem_map.mp ha
      exact hc.linear u hu
    · obtain ⟨u, hu, rfl⟩ := List.mem_map.mp ha
      exact hc.quadratic u hu
  obtain ⟨hfinite, hone⟩ := divisor_atMost hcoefficients hk
  rw [← hdivisor] at hfinite hone
  have hinverse : AtMost 1 (1 / slack.divisor) :=
    one_atMost.div hfinite.isFinite hone (by simpa using IsDouble.two_pow (k := 0) (by omega))
  have hscale : ∀ a, AtMost (2 ^ k) a → AtMost (2 ^ k) (a * (1 / slack.divisor)) := fun a ha =>
    ha.mul hinverse (.two_pow hk) (mul_one _).le
  have hquotient : AtMost (2 ^ l) (c.rhs / slack.divisor) :=
    hc.rhs.div hfinite.isFinite hone (.two_pow hl)
  refine ⟨hc.linear.scale hscale, hc.quadratic.scale hscale, ?_⟩
  change AtMost (2 ^ l) slack.rhs
  rcases hrhs with hrhs | hrhs
  · rw [hrhs]
    exact Binary64.ceil_atMost hquotient
  · rw [hrhs]
    exact Binary64.floor_atMost hquotient

/-- All slack variables have values below `2 ^ 54`. -/
theorem slackFor_upper_lt (h : p.slackFor c = .ok (some slack)) (hw : 54 ≤ w) :
    slack.upper < 2 ^ w := by
  obtain ⟨-, -, -, range, hupper⟩ := slackFor_fields h
  calc slack.upper ≤ 2 ^ 53 := slackUpper_le hupper
    _ < 2 ^ w := pow_lt_pow_right₀ one_lt_two (by omega)

/-- The slack variables have values below a power of two. -/
def SlacksBelow (p : Problem Float) (w : Nat) : Prop :=
  ∀ c ∈ p.constraints, c.relation ≠ .eq → ∀ slack, p.slackFor c = .ok (some slack) →
    slack.upper < 2 ^ w

/-- What a constraint of the source adds to the problem under construction. -/
structure SlacksSoFar (p : Problem Float) (w : Nat) (done : List (Constraint Float))
    (q : Problem Float) : Prop where
  /-- At most one variable was added for each constraint. -/
  size_le : q.size ≤ p.size + done.length
  /-- At most one constraint was added for each constraint. -/
  length_le : q.constraints.length ≤ done.length
  /-- The variables have bounds between powers of two. -/
  within : ∀ v ∈ q.vars, v.domain.Within w

theorem SlacksSoFar.step {q' : Problem Float} {slacks slacks' : List Nat}
    {done : List (Constraint Float)} (h : p.SlacksSoFar w done q)
    (hupper : c.relation ≠ .eq → ∀ slack, p.slackFor c = .ok (some slack) → slack.upper < 2 ^ w)
    (hstep : p.addTightened (q, slacks) c = .ok (q', slacks')) :
    p.SlacksSoFar w (done ++ [c]) q' := by
  obtain ⟨hsize, hlength, hwithin⟩ := h
  have hdone : (done ++ [c]).length = done.length + 1 := by simp
  rcases addTightened_ok hstep with ⟨-, hq, -⟩ | ⟨-, -, rfl, -⟩ |
    ⟨hrelation, slack, hslack, ⟨-, hq, -⟩ | ⟨hpos, q₁, index, hvariable, hq, -⟩⟩
  · obtain ⟨-, -, rfl⟩ := addConstraint_eq_ok_iff.mp hq
    exact ⟨hsize.trans (by omega), by simpa using hlength, hwithin⟩
  · exact ⟨by omega, by omega, hwithin⟩
  · obtain ⟨-, -, rfl⟩ := addConstraint_eq_ok_iff.mp hq
    exact ⟨hsize.trans (by omega), by simpa using hlength, hwithin⟩
  · obtain ⟨-, -, rfl⟩ := addConstraint_eq_ok_iff.mp hq
    obtain ⟨-, -, rfl, -⟩ := addVariable_eq_ok_iff.mp hvariable
    have hupper := hupper hrelation slack hslack
    refine ⟨?_, by simpa [declare] using hlength, fun v hv => ?_⟩
    · exact (size_declare _ _).trans_le (by omega)
    · rcases List.mem_append.mp hv with hv | hv
      · exact hwithin v hv
      · rw [List.mem_singleton.mp hv]
        have hzero : (0 : Int) < 2 ^ w := by positivity
        refine ⟨⟨?_, ?_⟩, ?_, ?_⟩ <;> simp only [Domain.lower, Domain.upper] <;> omega

/-- At most one variable is added for each constraint. -/
theorem addSlacks_counts (hwithin : ∀ v ∈ p.vars, v.domain.Within w) (hslacks : p.SlacksBelow w)
    (h : p.addSlacks = .ok (q, r)) : p.SlacksSoFar w p.constraints q := by
  obtain ⟨q₀, slacks, hobjective, hrun, -⟩ := addSlacks_steps h
  obtain ⟨-, rfl⟩ := setObjective_eq_ok_iff.mp hobjective
  exact foldlM_ok_of_step (motive := fun done state => p.SlacksSoFar w done state.1)
    ⟨le_rfl, le_rfl, hwithin⟩
    (fun _ c _ _ _ hsplit hs hstep => hs.step (hslacks c (by simp [hsplit])) hstep) hrun

theorem Magnitudes.addTightened {q' : Problem Float} {slacks slacks' : List Nat}
    (hq : q.Magnitudes k (l + 1) m) (hc : c.AtMost (2 ^ l) (2 ^ m)) (hl : l + 1 < 1024)
    (hm : m < 1024) (hstep : p.addTightened (q, slacks) c = .ok (q', slacks')) :
    q'.Magnitudes k (l + 1) m := by
  have hpow : (2 : Rat) ^ l ≤ 2 ^ (l + 1) := pow_le_pow_right₀ one_le_two (by omega)
  have hmono {d : Constraint Float} (hd : d.AtMost (2 ^ l) (2 ^ m)) :
      d.AtMost (2 ^ (l + 1)) (2 ^ m) :=
    ⟨hd.linear.mono fun _ ha => ha.mono hpow, hd.quadratic.mono fun _ ha => ha.mono hpow, hd.rhs⟩
  rcases addTightened_ok hstep with ⟨-, hadd, -⟩ | ⟨-, -, rfl, -⟩ |
    ⟨-, slack, hslack, ⟨-, hadd, -⟩ | ⟨-, q₁, index, hvariable, hadd, -⟩⟩
  · exact hq.of_addConstraint (hmono ⟨hc.linear, hc.quadratic, hc.rhs⟩) hadd
  · exact hq
  · exact hq.of_addConstraint (hmono (tightened_atMost hc hslack (by omega) hm)) hadd
  · have htightened := tightened_atMost hc hslack (by omega) hm
    obtain ⟨-, -, hsign, -⟩ := slackFor_fields hslack
    have hsign : AtMost (2 ^ 0) slack.sign := by
      rw [pow_zero]
      rcases hsign with hsign | hsign
      · exact hsign ▸ one_atMost
      · exact hsign ▸ one_atMost.neg
    have hwithSlack : Constraint.AtMost (2 ^ (l + 1)) (2 ^ m) { c.tightened slack with
        linear := (c.tightened slack).linear.addTerm index slack.sign } :=
      ⟨htightened.linear.addTerm (fun _ ha => ha.mono hpow) (hsign.mono_two_pow (by omega))
        fun _ ha => ha.add_two_pow hsign (by omega) (by omega) hl,
        (hmono htightened).quadratic, htightened.rhs⟩
    obtain ⟨-, -, rfl, -⟩ := addVariable_eq_ok_iff.mp hvariable
    have hdeclared : (q.declare (slackName c) (.integer 0 slack.upper)).Magnitudes k (l + 1) m :=
      ⟨hq.objective, hq.constraints⟩
    exact hdeclared.of_addConstraint hwithSlack hadd

/-- **The stage for slack variables** divides coefficients by common divisors, rounds right-hand
sides, and has coefficients of one for the slack variables. -/
theorem addSlacks_magnitudes (hp : p.Magnitudes k l m) (hl : l + 1 < 1024) (hm : m < 1024)
    (h : p.addSlacks = .ok (q, r)) : q.Magnitudes k (l + 1) m := by
  obtain ⟨q₀, slacks, hobjective, hrun, -⟩ := addSlacks_steps h
  obtain ⟨-, rfl⟩ := setObjective_eq_ok_iff.mp hobjective
  refine foldlM_ok_of_step (motive := fun _ state => state.1.Magnitudes k (l + 1) m)
    ⟨hp.objective, by simp [variablesOnly]⟩ ?_ hrun
  intro before c after state state' hsplit hs hstep
  exact hs.addTightened (hp.constraints c (by simp [hsplit])) hl hm hstep

/-! ### The stage for bits -/

/-- **The stage for bits** substitutes short mappings into the objective and the constraints. -/
theorem binarize_magnitudes {j : Nat} (hp : p.WellFormed) (hm : p.Magnitudes k l m)
    (hwithin : ∀ v ∈ p.vars, v.domain.Within w) (hw : w < 2 ^ u) (hu : 2 ≤ u)
    (hsize : p.size ≤ 2 ^ t) (ht : 2 * t + 2 * u ≤ 53)
    (hn : k + 2 * w + 2 * t + 2 * u + 2 ≤ n) (hlarge : n < 1024)
    (hl : l + 2 * w + 2 * t + 2 * u + 2 ≤ j) (hm' : m < j) (hlarge' : j < 1024)
    (h : p.binarize = .ok (q, r)) :
    q.Magnitudes n j j ∧ q.constraints.length = p.constraints.length := by
  obtain ⟨q₁, s, q₂, hrun, hobjective, hconstraints, -⟩ := binarize_steps h
  obtain ⟨-, hshort, hempty⟩ := foldlM_addBinarized_short hwithin hw (by omega) hrun
  obtain ⟨-, rfl⟩ := setObjective_eq_ok_iff.mp hobjective
  have hobjective : (Substitution.objective s p.objective).polynomial.AtMost (2 ^ n) := by
    obtain ⟨hlinear, hquadratic⟩ := hp.objective_below.length_le hsize
    have hexpand := Substitution.expand_atMost hshort hm.objective.linear hm.objective.quadratic
      hlinear hquadratic hu ht hn hlarge
    have hconstant := Substitution.constants_atMost (n := n - 1) hshort hm.objective.linear
      hm.objective.quadratic hlinear hquadratic (by omega) (by omega) (by omega)
    exact ⟨hm.objective.constant.add_two_pow hconstant (by omega) (by omega) hlarge,
      hexpand.linear, hexpand.quadratic⟩
  have hsubstituted : ∀ c ∈ p.constraints.map (Substitution.constraint s),
      c.AtMost (2 ^ j) (2 ^ j) := by
    intro d hd
    obtain ⟨c, hc, rfl⟩ := List.mem_map.mp hd
    have hbounds := hm.constraints c hc
    obtain ⟨hlinear, hquadratic⟩ :=
      Polynomial.Below.length_le (f := ⟨0, c.linear, c.quadratic⟩) (hp.constraint_below c hc) hsize
    have hexpand := Substitution.expand_atMost hshort hbounds.linear hbounds.quadratic hlinear
      hquadratic hu ht hl hlarge'
    have hconstant := Substitution.constants_atMost (n := j - 1) hshort hbounds.linear
      hbounds.quadratic hlinear hquadratic (by omega) (by omega) (by omega)
    exact ⟨hexpand.linear, hexpand.quadratic,
      hbounds.rhs.sub_two_pow hconstant (by omega) (by omega) hlarge'⟩
  refine ⟨Magnitudes.of_addConstraints ⟨hobjective, by simp [hempty]⟩ hsubstituted hconstraints, ?_⟩
  rw [(vars_of_addConstraints hconstraints).2]
  simp [hempty]

/-! ### The stages for equalities and directions -/

theorem foldEqualities_counts (h : p.foldEqualities given = .ok (q, r)) :
    q.vars = p.vars ∧ q.constraints = [] := by
  obtain ⟨_, -, -, hobjective, -⟩ := foldEqualities_steps h
  obtain ⟨-, rfl⟩ := setObjective_eq_ok_iff.mp hobjective
  exact ⟨rfl, rfl⟩

/-- **The stage for equalities** adds the squared deviations to the objective. -/
theorem foldEqualities_magnitudes (hp : p.WellFormed) (hm : p.Magnitudes k l l)
    (hfactor : ∀ f, p.penaltyFactor given = .ok f → AtMost (2 ^ i) f) (hsize : p.size ≤ 2 ^ s)
    (hcount : p.constraints.length ≤ 2 ^ t) (hs : 2 * s ≤ 53) (ht : t < 53)
    (hk : k + t + 1 ≤ n) (hi : i + 2 * l + 2 * s + t + 2 ≤ n) (hlarge : n < 1024)
    (h : p.foldEqualities given = .ok (q, r)) : q.objective.polynomial.AtMost (2 ^ n) := by
  obtain ⟨factor, hok, -, hobjective, -⟩ := foldEqualities_steps h
  obtain ⟨-, rfl⟩ := setObjective_eq_ok_iff.mp hobjective
  have hstart : p.objective.polynomial.AtMost (2 ^ (n - t - 1)) :=
    hm.objective.mono (pow_le_pow_right₀ one_le_two (by omega))
  refine foldl_penalties_atMost hstart (fun o c hc => ?_) hcount ht (by omega) hlarge
  have hc' := hm.constraints c hc
  have hlength := (hp.constraint_below c hc).1.length_le.trans hsize
  exact Or.inr ⟨p.objective.sense, _, squaredDeviation_atMost (hfactor factor hok) hc'.rhs
    hc'.linear hlength hs (by omega) (by omega), rfl⟩

theorem orient_counts {target : Sense} {kind : StageKind} (h : p.orient target kind = .ok (q, r)) :
    q.vars = p.vars ∧ q.constraints.length = p.constraints.length := by
  obtain ⟨_, hobjective, hconstraints, -⟩ := orient_steps h
  obtain ⟨-, rfl⟩ := setObjective_eq_ok_iff.mp hobjective
  obtain ⟨hvars, hlength⟩ := vars_of_addConstraints hconstraints
  exact ⟨hvars, by simpa [variablesOnly] using hlength⟩

/-- **The stage for directions** negates the objective or keeps it. -/
theorem orient_magnitudes {target : Sense} {kind : StageKind}
    (hm : p.objective.polynomial.AtMost (2 ^ n)) (hlarge : n < 1024)
    (h : p.orient target kind = .ok (q, r)) : q.objective.polynomial.AtMost (2 ^ n) := by
  obtain ⟨_, hobjective, hconstraints, -⟩ := orient_steps h
  obtain ⟨-, rfl⟩ := setObjective_eq_ok_iff.mp hobjective
  rw [objective_of_addConstraints hconstraints]
  dsimp only
  split
  · exact hm
  · exact hm.negate (.two_pow hlarge)

end Problem

end QuboReduction

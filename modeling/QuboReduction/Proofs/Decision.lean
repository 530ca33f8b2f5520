import QuboReduction.Proofs.Corners
import QuboReduction.Proofs.Tightening

/-!
# What becomes of an inequality

The stage that introduces slack variables decides by ranges: an inequality whose gap is negative all
over its range is refused, one whose gap is never negative is dropped, and any other one is given a
slack variable as far as the range of the gap goes. Without products the ends of the range are
attained, so the decision is that of the inequality itself: it is refused when no vector satisfies
it, dropped when every vector does, and otherwise no smaller slack variable would do.

## Main definitions

* `QuboReduction.Problem.Meets` — the stage comes to a constraint.

## Main results

* `QuboReduction.Problem.addTightened_of_error`, `QuboReduction.Problem.addTightened_of_none`,
  `QuboReduction.Problem.addTightened_of_le`, `QuboReduction.Problem.addTightened_of_pos` — the step
  for an inequality, by its slack.
* `QuboReduction.Problem.slackRange_neg_iff`, `QuboReduction.Problem.leastGap_nonneg_iff` — what the
  ends of the range of the gap tell.
* `QuboReduction.Problem.Meets.decides` — what becomes of an inequality without products.
* `QuboReduction.clashing_refused` — an inequality that is refused for the name of its slack
  variable.
-/

namespace QuboReduction

namespace Problem

/-! ### The step for an inequality -/

section Step

variable {α : Type} [Scalar α] {p q : Problem α} {c : Constraint α} {slacks : List Nat}
  {slack : Slack α}

theorem addTightened_of_error (hrelation : c.relation ≠ .eq) {e : ConversionError α}
    (hslack : p.slackFor c = .error e) : p.addTightened (q, slacks) c = .error e := by
  simp only [addTightened, if_neg hrelation, hslack, error_bind]

theorem addTightened_of_none (hrelation : c.relation ≠ .eq) (hslack : p.slackFor c = .ok none) :
    p.addTightened (q, slacks) c = .ok (q, slacks) := by
  simp only [addTightened, if_neg hrelation, hslack, ok_bind]
  rfl

/-- An inequality without a slack variable becomes an equality. -/
theorem addTightened_of_le (hrelation : c.relation ≠ .eq) (hslack : p.slackFor c = .ok (some slack))
    (hupper : slack.upper ≤ 0) (hnamed : c.name ≠ "") (hbelow : (c.tightened slack).Below q.size)
    (hnew : c.name ∉ q.constraints.map Constraint.name) :
    p.addTightened (q, slacks) c =
      .ok ({ q with constraints := q.constraints ++ [c.tightened slack] }, slacks) := by
  have hadd : q.addConstraint (c.tightened slack) =
      .ok { q with constraints := q.constraints ++ [c.tightened slack] } :=
    (addConstraint_named_eq_ok_iff (c := c.tightened slack) hnamed).mpr ⟨hbelow, hnew, rfl⟩
  simp only [addTightened, if_neg hrelation, hslack, ok_bind, if_neg (Int.not_lt.mpr hupper), hadd]
  rfl

/-- An inequality with a slack variable becomes an equality with the slack variable, unless there is
a variable of its name. -/
theorem addTightened_of_pos (hrelation : c.relation ≠ .eq)
    (hslack : p.slackFor c = .ok (some slack)) (hupper : 0 < slack.upper) (hnamed : c.name ≠ "")
    (hbelow : ({ c.tightened slack with
      linear := (c.tightened slack).linear.addTerm q.size slack.sign } : Constraint α).Below
        (q.size + 1))
    (hnew : c.name ∉ q.constraints.map Constraint.name) :
    p.addTightened (q, slacks) c =
      if slackName c ∈ q.variableNames then .error (.problem (.duplicateVariable (slackName c)))
      else .ok ({ q.declare (slackName c) (.integer 0 slack.upper) with
        constraints := q.constraints ++ [{ c.tightened slack with
          linear := (c.tightened slack).linear.addTerm q.size slack.sign }] },
        slacks ++ [q.size]) := by
  simp only [addTightened, if_neg hrelation, hslack, ok_bind, if_pos hupper]
  split
  · rename_i hmem
    rw [addVariable_of_mem hmem]
    rfl
  · rename_i hfresh
    have hvariable : q.addVariable (slackName c) (.integer 0 slack.upper) =
        .ok (q.declare (slackName c) (.integer 0 slack.upper), q.size) :=
      addVariable_eq_ok_iff.mpr ⟨hfresh, hupper.le, rfl, rfl⟩
    have hadd := (addConstraint_named_eq_ok_iff
      (p := q.declare (slackName c) (.integer 0 slack.upper)) (c := { c.tightened slack with
        linear := (c.tightened slack).linear.addTerm q.size slack.sign }) hnamed).mpr
      ⟨by simpa using hbelow, hnew, rfl⟩
    rw [hvariable]
    simp only [ofBuilding, ok_bind]
    rw [hadd]
    rfl

/-- A step is refused for the slack of an inequality or for how the problem is built. -/
theorem addTightened_error {e : ConversionError α}
    (hstep : p.addTightened (q, slacks) c = .error e) :
    (c.relation ≠ .eq ∧ p.slackFor c = .error e) ∨ ∃ cause, e = .problem cause := by
  have hbuild : ∀ {β : Type} {x : Except ProblemError β}, ofBuilding x = .error e →
      ∃ cause, e = .problem cause := fun h => by
    obtain ⟨cause, -, he⟩ := ofBuilding_eq_error.mp h
    exact ⟨cause, he⟩
  simp only [addTightened] at hstep
  split at hstep
  · rcases bind_eq_error.mp hstep with hstep | ⟨_, -, hstep⟩
    · exact Or.inr (hbuild hstep)
    · exact absurd hstep pure_ne_error
  · rename_i hrelation
    rcases bind_eq_error.mp hstep with hstep | ⟨slack?, -, hstep⟩
    · exact Or.inl ⟨hrelation, hstep⟩
    · refine Or.inr ?_
      cases slack? with
      | none => exact absurd hstep pure_ne_error
      | some slack =>
        dsimp only at hstep
        split at hstep
        · rcases bind_eq_error.mp hstep with hstep | ⟨_, -, hstep⟩
          · exact hbuild hstep
          · rcases bind_eq_error.mp hstep with hstep | ⟨_, -, hstep⟩
            · exact hbuild hstep
            · exact absurd hstep pure_ne_error
        · rcases bind_eq_error.mp hstep with hstep | ⟨_, -, hstep⟩
          · exact hbuild hstep
          · exact absurd hstep pure_ne_error

end Step

variable {p q : Problem Rat} {c : Constraint Rat} {slacks : List Nat}

/-! ### What the ends of the range tell -/

/-- Without products the slack range is negative when no admissible vector satisfies the
inequality. -/
theorem slackRange_neg_iff (hp : p.WellFormed) (hrelation : c.relation ≠ .eq)
    (hlinear : c.isLinear = true) (hregular : c.IsRegular) :
    p.slackRange c < 0 ↔ ∀ s, p.Admissible s → ¬c.Holds (valueAt s) := by
  constructor
  · intro hrange s hs hholds
    exact absurd (slackRange_nonneg hrelation hregular hs hholds) (not_le.mpr hrange)
  · intro hnone
    obtain ⟨s, hs, hgap⟩ := exists_gap_eq_slackRange (c := c) hp hlinear
    have hfails := hnone s hs
    rwa [Constraint.holds_iff_gap_nonneg hrelation hregular hs.isInteger, not_le, hgap] at hfails

/-- Without products the least gap is not negative when every admissible vector satisfies the
inequality. -/
theorem leastGap_nonneg_iff (hp : p.WellFormed) (hrelation : c.relation ≠ .eq)
    (hlinear : c.isLinear = true) (hregular : c.IsRegular) :
    0 ≤ p.leastGap c ↔ ∀ s, p.Admissible s → c.Holds (valueAt s) := by
  constructor
  · intro hleast s hs
    rw [Constraint.holds_iff_gap_nonneg hrelation hregular hs.isInteger]
    exact hleast.trans (leastGap_le_gap hs c)
  · intro hall
    obtain ⟨s, hs, hgap⟩ := exists_gap_eq_leastGap (c := c) hp hlinear
    rw [← hgap]
    exact (Constraint.holds_iff_gap_nonneg hrelation hregular hs.isInteger).mp (hall s hs)

/-- An inequality of integer coefficients up to `2 ^ 53` that some vectors satisfy and some violate
is given a slack up to its slack range. -/
theorem slackFor_eq_some (hregular : c.IsRegular) (hexact : c.IsExact)
    (hrange : 0 ≤ p.slackRange c) (hleast : p.leastGap c < 0) (hwidth : p.slackRange c ≤ 2 ^ 53) :
    ∃ upper : Int, (upper : Rat) = p.slackRange c ∧ 0 ≤ upper ∧
      p.slackFor c = .ok (some (c.slackOf upper)) := by
  obtain ⟨upper, hupper⟩ := isInteger_slackRange (p := p) hregular
  refine ⟨upper, hupper.symm, by rw [hupper] at hrange; exact_mod_cast hrange, ?_⟩
  rw [slackFor_eq, if_neg (not_not.mpr hregular), if_neg (not_not.mpr hexact),
    if_neg (not_lt.mpr hrange), if_neg (not_le.mpr hleast), if_neg (not_lt.mpr hwidth), hupper,
    Scalar.truncate_intCast]
  rfl

/-! ### The stage comes to a constraint -/

/-- The stage for slack variables comes to the constraint `c` of `p`: no constraint before it was
refused, and they have led to the given problem and slack variables. -/
def Meets (p : Problem Rat) (c : Constraint Rat) (state : Problem Rat × List Nat) : Prop :=
  ∃ before after start, p.constraints = before ++ c :: after ∧
    p.variablesOnly.setObjective p.objective = .ok start ∧
      before.foldlM p.addTightened (start, []) = .ok state

namespace Meets

theorem mem (h : p.Meets c (q, slacks)) : c ∈ p.constraints := by
  obtain ⟨before, after, start, hsplit, -, -⟩ := h
  simp [hsplit]

/-- The problem that the constraints before have led to, and their names. -/
theorem tightened (hp : p.WellFormed) (h : p.Meets c (q, slacks)) :
    ∃ before, p.Tightened before q ∧ c.name ∉ before.map Constraint.name := by
  obtain ⟨before, after, start, hsplit, hstart, hrun⟩ := h
  refine ⟨before, ?_, ?_⟩
  · refine foldlM_ok_of_step (motive := fun done state => p.Tightened done state.1)
      (tightened_start hp hstart) (fun done d rest _ _ hdone h hstep => ?_) hrun
    have hrest : p.constraints = done ++ d :: (rest ++ c :: after) := by simp [hsplit, hdone]
    exact tightened_step hp hrest h hstep
  · have hnodup := hp.constraintNames_nodup
    rw [hsplit, List.map_append, List.nodup_append] at hnodup
    exact fun hmem => hnodup.2.2 _ hmem _ (by simp) rfl

/-- What refuses a constraint refuses the stage. -/
theorem addSlacks_error (h : p.Meets c (q, slacks)) {e : ConversionError Rat}
    (hstep : p.addTightened (q, slacks) c = .error e) : p.addSlacks = .error e := by
  obtain ⟨before, after, start, hsplit, hstart, hrun⟩ := h
  have hstart' : (ofBuilding (p.variablesOnly.setObjective p.objective) :
      Except (ConversionError Rat) (Problem Rat)) = .ok start := ofBuilding_eq_ok.mpr hstart
  rw [addSlacks, hstart', ok_bind, hsplit, List.foldlM_append, hrun, ok_bind, List.foldlM_cons,
    hstep]
  rfl

end Meets

/-- When the stage is refused for the bounds of a constraint, the slack range of this constraint is
negative: names tell constraints apart. -/
theorem slackRange_neg_of_addSlacks (hp : p.WellFormed) (hc : c ∈ p.constraints)
    {lower upper bound : Rat}
    (hstage : p.addSlacks = .error (.infeasibleBounds c.name lower upper bound)) :
    p.slackRange c < 0 := by
  rcases bind_eq_error.mp hstage with hstage | ⟨start, -, hstage⟩
  · obtain ⟨_, -, he⟩ := ofBuilding_eq_error.mp hstage
    contradiction
  rcases bind_eq_error.mp hstage with hstage | ⟨_, -, hstage⟩
  · obtain ⟨before, d, after, ⟨q, slacks⟩, hsplit, -, hstep⟩ :=
      foldlM_error_of_step (motive := fun _ _ => True) trivial (fun _ _ _ _ _ _ _ _ => trivial)
        hstage
    rcases addTightened_error hstep with ⟨-, hslack⟩ | ⟨_, he⟩
    · rcases slackFor_error hslack with ⟨-, he⟩ | ⟨-, he⟩ | ⟨-, hrange, he⟩ | ⟨-, he⟩
      · contradiction
      · contradiction
      · have hd : d ∈ p.constraints := by simp [hsplit]
        have hname : c.name = d.name := (ConversionError.infeasibleBounds.inj he).1
        rwa [List.inj_on_of_nodup_map hp.constraintNames_nodup hc hd hname]
      · contradiction
    · contradiction
  · exact absurd hstage pure_ne_error

/-! ### The decision -/

variable {upper : Int}

/-- The step for an inequality with a slack that can only be zero. -/
theorem Meets.addTightened_of_zero (hp : p.WellFormed) (h : p.Meets c (q, slacks))
    (hrelation : c.relation ≠ .eq) (hslack : p.slackFor c = .ok (some (c.slackOf upper)))
    (hupper : upper ≤ 0) :
    p.addTightened (q, slacks) c =
      .ok ({ q with constraints := q.constraints ++ [c.tightened (c.slackOf upper)] }, slacks) := by
  obtain ⟨before, htightened, hname⟩ := h.tightened hp
  exact addTightened_of_le hrelation hslack hupper (hp.constraint_named c h.mem)
    ((hp.constraint_below c h.mem).mono htightened.size_le).tightened (htightened.name_fresh hname)

/-- The step for an inequality that needs a slack variable. -/
theorem Meets.addTightened_of_pos (hp : p.WellFormed) (h : p.Meets c (q, slacks))
    (hrelation : c.relation ≠ .eq) (hslack : p.slackFor c = .ok (some (c.slackOf upper)))
    (hupper : 0 < upper) :
    p.addTightened (q, slacks) c =
      if slackName c ∈ p.variableNames then .error (.problem (.duplicateVariable (slackName c)))
      else .ok ({ q.declare (slackName c) (.integer 0 upper) with
        constraints := q.constraints ++ [c.withSlack (c.slackOf upper) q.size] },
        slacks ++ [q.size]) := by
  obtain ⟨before, htightened, hname⟩ := h.tightened hp
  have hbelow : (c.withSlack (c.slackOf upper) q.size).Below (q.size + 1) :=
    ((hp.constraint_below c h.mem).mono htightened.size_le).withSlack
  rw [Problem.addTightened_of_pos hrelation hslack hupper (hp.constraint_named c h.mem) hbelow
    (htightened.name_fresh hname)]
  have hiff : slackName c ∈ q.variableNames ↔ slackName c ∈ p.variableNames := by
    refine ⟨fun hmem => ?_, fun hmem => ?_⟩
    · by_contra hfresh
      exact htightened.slackName_fresh hname hfresh hmem
    · obtain ⟨extra, hvars, -⟩ := htightened.vars_eq
      rw [variableNames, hvars, List.map_append]
      exact List.mem_append_left _ hmem
  simp only [hiff]
  rfl

/-- The stage is refused for the bounds of an inequality without products exactly when no admissible
vector satisfies it. -/
theorem Meets.refused_iff (hp : p.WellFormed) (h : p.Meets c (q, slacks))
    (hrelation : c.relation ≠ .eq) (hlinear : c.isLinear = true) (hregular : c.IsRegular)
    (hexact : c.IsExact) :
    (∃ lower upper bound, p.addSlacks = .error (.infeasibleBounds c.name lower upper bound)) ↔
      ∀ s, p.Admissible s → ¬c.Holds (valueAt s) := by
  rw [← slackRange_neg_iff hp hrelation hlinear hregular]
  refine ⟨fun ⟨_, _, _, hstage⟩ => slackRange_neg_of_addSlacks hp h.mem hstage, fun hrange => ?_⟩
  have hslack := slackFor_eq p c
  rw [if_neg (not_not.mpr hregular), if_neg (not_not.mpr hexact), if_pos hrange] at hslack
  exact ⟨_, _, _, h.addSlacks_error (addTightened_of_error hrelation hslack)⟩

/-- An inequality without products is dropped exactly when every admissible vector satisfies it. -/
theorem addTightened_eq_self_iff (hp : p.WellFormed) (hrelation : c.relation ≠ .eq)
    (hlinear : c.isLinear = true) (hregular : c.IsRegular) (hexact : c.IsExact) :
    p.addTightened (q, slacks) c = .ok (q, slacks) ↔
      ∀ s, p.Admissible s → c.Holds (valueAt s) := by
  rw [← leastGap_nonneg_iff hp hrelation hlinear hregular]
  constructor
  · intro hstep
    have hgrows : ∀ {q₁ : Problem Rat} {d : Constraint Rat}, q₁.addConstraint d = .ok q →
        q₁.constraints.length < q.constraints.length := fun hadd => by
      obtain ⟨-, -, rfl⟩ := addConstraint_eq_ok_iff.mp hadd
      simp
    rcases addTightened_ok hstep with ⟨heq, -⟩ | ⟨-, hnone, -⟩ | ⟨-, slack, -, hcase⟩
    · exact absurd heq hrelation
    · exact (slackFor_none hnone).2
    · rcases hcase with ⟨-, hadd, -⟩ | ⟨-, q₁, index, hvariable, hadd, -⟩
      · exact absurd (hgrows hadd) (lt_irrefl _)
      · obtain ⟨-, -, rfl, -⟩ := addVariable_eq_ok_iff.mp hvariable
        exact absurd (hgrows hadd) (lt_irrefl _)
  · intro hleast
    have hadmissible := admissible_corner hp fun _ => true
    have hrange := hleast.trans
      ((leastGap_le_gap hadmissible c).trans (gap_le_slackRange hadmissible c))
    refine addTightened_of_none hrelation ?_
    rw [slackFor_eq, if_neg (not_not.mpr hregular), if_neg (not_not.mpr hexact),
      if_neg (not_lt.mpr hrange), if_pos hleast]

/-- An inequality without products that some admissible vectors satisfy and some violate is given a
slack up to the largest gap of those that satisfy it. -/
theorem exists_slackFor_eq (hp : p.WellFormed) (hrelation : c.relation ≠ .eq)
    (hlinear : c.isLinear = true) (hregular : c.IsRegular) (hexact : c.IsExact)
    (hwidth : p.slackRange c ≤ 2 ^ 53) (hsome : ∃ s, p.Admissible s ∧ c.Holds (valueAt s))
    (hnot : ∃ s, p.Admissible s ∧ ¬c.Holds (valueAt s)) :
    ∃ upper : Int, 0 ≤ upper ∧ p.slackFor c = .ok (some (c.slackOf upper)) ∧
      (∀ s, p.Admissible s → c.Holds (valueAt s) → ∃ n : Int, c.gap (valueAt s) = n ∧
        0 ≤ n ∧ n ≤ upper) ∧
      ∃ s, p.Admissible s ∧ c.Holds (valueAt s) ∧ c.gap (valueAt s) = upper := by
  have hiff : ∀ s, p.Admissible s → (c.Holds (valueAt s) ↔ 0 ≤ c.gap (valueAt s)) := fun s hs =>
    Constraint.holds_iff_gap_nonneg hrelation hregular hs.isInteger
  have hrange : 0 ≤ p.slackRange c := by
    obtain ⟨s, hs, hholds⟩ := hsome
    exact slackRange_nonneg hrelation hregular hs hholds
  have hleast : p.leastGap c < 0 := by
    obtain ⟨s, hs, hfails⟩ := hnot
    refine not_le.mp fun hleast => hfails ?_
    exact (leastGap_nonneg_iff hp hrelation hlinear hregular).mp hleast s hs
  obtain ⟨upper, hupper, hnonneg, hslack⟩ := slackFor_eq_some hregular hexact hrange hleast hwidth
  refine ⟨upper, hnonneg, hslack, fun s hs hholds => ?_, ?_⟩
  · obtain ⟨n, hn⟩ := hregular.isInteger_gap hs.isInteger
    have hpos := (hiff s hs).mp hholds
    have hle := gap_le_slackRange hs c
    rw [hn] at hpos hle
    rw [← hupper] at hle
    exact ⟨n, hn, by exact_mod_cast hpos, by exact_mod_cast hle⟩
  · obtain ⟨s, hs, hgap⟩ := exists_gap_eq_slackRange (c := c) hp hlinear
    exact ⟨s, hs, (hiff s hs).mpr (hgap ▸ hrange), hgap.trans hupper.symm⟩

/-- **What becomes of an inequality.** Let the stage for slack variables come to an inequality
without products whose coefficients are integers up to `2 ^ 53`. The stage is refused for the bounds
of this inequality exactly when no admissible vector satisfies it, and the inequality is dropped
exactly when every one does. Otherwise, if the slack range is at most `2 ^ 53`, the slack goes up to
`upper`, which is at least the gap of every vector that satisfies the inequality and the gap of one
of them: an equality without a slack variable takes the place of the inequality if `upper` is zero,
and else one that says that the slack variable is the gap, unless a variable has its name. -/
theorem Meets.decides (hp : p.Built) (h : p.Meets c (q, slacks)) (hrelation : c.relation ≠ .eq)
    (hlinear : c.isLinear = true) (hregular : c.IsRegular) (hexact : c.IsExact) :
    ((∃ lower upper bound, p.addSlacks = .error (.infeasibleBounds c.name lower upper bound)) ↔
        ∀ s, p.Admissible s → ¬c.Holds (valueAt s)) ∧
      (p.addTightened (q, slacks) c = .ok (q, slacks) ↔
        ∀ s, p.Admissible s → c.Holds (valueAt s)) ∧
      (p.slackRange c ≤ 2 ^ 53 → (∃ s, p.Admissible s ∧ c.Holds (valueAt s)) →
        (∃ s, p.Admissible s ∧ ¬c.Holds (valueAt s)) →
        ∃ upper : Int,
          (∀ s, p.Admissible s → c.Holds (valueAt s) → ∃ n : Int, c.gap (valueAt s) = n ∧
            0 ≤ n ∧ n ≤ upper) ∧
          (∃ s, p.Admissible s ∧ c.Holds (valueAt s) ∧ c.gap (valueAt s) = upper) ∧
          (upper = 0 ∧
              (∀ x, (c.tightened (c.slackOf upper)).Holds x ↔ c.gap x = 0) ∧
              p.addTightened (q, slacks) c =
                .ok ({ q with constraints := q.constraints ++ [c.tightened (c.slackOf upper)] },
                  slacks) ∨
            0 < upper ∧
              (∀ x, (c.withSlack (c.slackOf upper) q.size).Holds x ↔ x q.size = c.gap x) ∧
              (slackName c ∉ p.variableNames → p.addTightened (q, slacks) c =
                .ok ({ q.declare (slackName c) (.integer 0 upper) with
                  constraints := q.constraints ++ [c.withSlack (c.slackOf upper) q.size] },
                  slacks ++ [q.size])) ∧
              (slackName c ∈ p.variableNames → p.addSlacks =
                .error (.problem (.duplicateVariable (slackName c)))))) := by
  have hp := hp.wellFormed
  refine ⟨h.refused_iff hp hrelation hlinear hregular hexact,
    addTightened_eq_self_iff hp hrelation hlinear hregular hexact, fun hwidth hsome hnot => ?_⟩
  obtain ⟨upper, hnonneg, hslack, hbound, hattained⟩ :=
    exists_slackFor_eq hp hrelation hlinear hregular hexact hwidth hsome hnot
  refine ⟨upper, hbound, hattained, ?_⟩
  rcases hnonneg.eq_or_lt with hzero | hpos
  · exact Or.inl ⟨hzero.symm, fun x => Constraint.holds_tightened_iff,
      h.addTightened_of_zero hp hrelation hslack hzero.ge⟩
  · have hstep := h.addTightened_of_pos hp hrelation hslack hpos
    refine Or.inr ⟨hpos, fun x => Constraint.holds_withSlack_iff, fun hfresh => ?_, fun hmem => ?_⟩
    · rwa [if_neg hfresh] at hstep
    · rw [if_pos hmem] at hstep
      exact h.addSlacks_error hstep

end Problem

/-- The inequality `-4x - 6n ≤ 7`, the second one of the loading problem. -/
def load : Constraint Rat := .ofLinear "load" (Terms.ofList [(0, -4), (1, -6)]) .le 7

/-- Maximize `x + n` for a binary `x` and an integer `n` from -3 to 2, with two inequalities. -/
def loading : Problem Rat where
  name := "loading"
  vars := [⟨"x", .binary, 0⟩, ⟨"n", .integer (-3) 2, 1⟩]
  objective := ⟨.maximize, ⟨0, Terms.ofList [(0, 1), (1, 1)], Terms.empty⟩⟩
  constraints := [.ofLinear "some" (Terms.ofList [(0, 1), (1, 1)]) .ge (-2), load]

theorem loading_built : loading.Built := Problem.built_iff_assemble_eq.mpr rfl

/-- The second inequality of the loading problem, divided by two and with its right-hand side
rounded, gets a slack variable up to the largest gap, that of the vector `[1, 2]`. -/
theorem loading_decided :
    ∃ q slacks, loading.Meets load (q, slacks) ∧ ∃ upper : Int, 0 < upper ∧
      (∃ s, loading.Admissible s ∧ load.Holds (valueAt s) ∧ load.gap (valueAt s) = upper) ∧
      loading.addTightened (q, slacks) load =
        .ok ({ q.declare "load@int_slack" (.integer 0 upper) with
          constraints := q.constraints ++ [load.withSlack (load.slackOf upper) q.size] },
          slacks ++ [q.size]) := by
  have hok : ([Constraint.ofLinear "some" (Terms.ofList [(0, 1), (1, 1)]) .ge (-2)].foldlM
      loading.addTightened ({ loading with constraints := [] }, [])).isOk = true := by
    decide +kernel
  obtain ⟨⟨q, slacks⟩, hrun⟩ := isOk_iff.mp hok
  have hmeets : loading.Meets load (q, slacks) := ⟨_, [], _, rfl, rfl, hrun⟩
  obtain ⟨-, -, hslack⟩ := hmeets.decides loading_built (by decide) (by decide +kernel)
    (by decide +kernel) (by decide +kernel)
  have hholds : load.Holds (valueAt [1, 2]) := by decide +kernel
  have hadmissible : loading.Admissible [1, 2] := by decide +kernel
  obtain ⟨upper, hbound, hattained, hcase⟩ := hslack (by decide +kernel)
    ⟨[1, 2], hadmissible, hholds⟩ ⟨[0, -3], by decide +kernel, by decide +kernel⟩
  have hpos : 0 < upper := by
    obtain ⟨n, hn, -, hle⟩ := hbound _ hadmissible hholds
    have hgap : load.gap (valueAt [1, 2]) = 11 := by decide +kernel
    rw [hgap] at hn
    have hn : n = 11 := by exact_mod_cast hn.symm
    omega
  obtain ⟨hzero, -⟩ | ⟨-, -, hstep, -⟩ := hcase
  · omega
  · exact ⟨q, slacks, hmeets, upper, hpos, hattained, hstep (by decide +kernel)⟩

/-- At most one of two binary variables, the only constraint of the clashing problem. -/
def atMostOne : Constraint Rat := .ofLinear "c" (Terms.ofList [(0, 1), (1, 1)]) .le 1

/-- Binary `x` and `y` of which at most one may be chosen, and a variable with the name that the
slack variable is going to have. -/
def clashing : Problem Rat where
  name := "clashing"
  vars := [⟨"x", .binary, 0⟩, ⟨"y", .binary, 1⟩, ⟨"c@int_slack", .binary, 2⟩]
  objective := .zero
  constraints := [atMostOne]

/-- The inequality of the clashing problem is met by some vectors and violated by others, but the
stage refuses it for the name of its slack variable. -/
theorem clashing_refused :
    clashing.Built ∧ (∃ state, clashing.Meets atMostOne state) ∧ atMostOne.isLinear = true ∧
      atMostOne.IsRegular ∧ atMostOne.IsExact ∧ clashing.slackRange atMostOne ≤ 2 ^ 53 ∧
      (∃ s, clashing.Admissible s ∧ atMostOne.Holds (valueAt s)) ∧
      (∃ s, clashing.Admissible s ∧ ¬atMostOne.Holds (valueAt s)) ∧
      clashing.addSlacks = .error (.problem (.duplicateVariable "c@int_slack")) := by
  have hbuilt : clashing.Built := Problem.built_iff_assemble_eq.mpr rfl
  have hmeets : clashing.Meets atMostOne ({ clashing with constraints := [] }, []) :=
    ⟨[], [], _, rfl, rfl, rfl⟩
  have hwidth : clashing.slackRange atMostOne = 1 := by decide +kernel
  obtain ⟨upper, hupper, -, hslack⟩ := Problem.slackFor_eq_some (p := clashing) (c := atMostOne)
    (by decide +kernel) (by decide +kernel) (by decide +kernel) (by decide +kernel)
    (by decide +kernel)
  have hpos : 0 < upper := by
    rw [hwidth] at hupper
    have hone : upper = 1 := by exact_mod_cast hupper
    omega
  have hstep := hmeets.addTightened_of_pos hbuilt.wellFormed (by decide) hslack hpos
  rw [if_pos (by decide +kernel)] at hstep
  exact ⟨hbuilt, ⟨_, hmeets⟩, by decide +kernel, by decide +kernel, by decide +kernel,
    by decide +kernel, ⟨[0, 1, 0], by decide +kernel, by decide +kernel⟩,
    ⟨[1, 1, 0], by decide +kernel, by decide +kernel⟩, hmeets.addSlacks_error hstep⟩

end QuboReduction

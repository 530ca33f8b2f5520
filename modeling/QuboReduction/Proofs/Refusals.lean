import QuboReduction.Proofs.Dominance
import QuboReduction.Proofs.FactorChecks
import QuboReduction.Proofs.Names
import QuboReduction.Scalar.Double

/-!
# Refusals of the standard pipeline

If no variable has the mark `@` in its name, the standard pipeline is refused for three reasons
only: an invalid penalty factor, a constraint whose kind no stage can deal with, and an inequality
that no admissible vector satisfies. Problems under construction can always be built: new names are
new, and what a stage checks is not met again by the stages after it.

## Main definitions

* `QuboReduction.Problem.Resists` — what about a constraint the pipeline cannot deal with.
* `QuboReduction.Problem.Refusal` — the errors, each with its reason in the source problem.

## Main results

* `QuboReduction.convert_qubo_eq_invalidPenalty_iff` — the factors that are refused, over any
  scalars.
* `QuboReduction.runStages_qubo_error` — why the stages are refused once the factor is accepted.
* `QuboReduction.qubo_refusals` — when the pipeline is refused, and when it is not.
-/

namespace QuboReduction

/-! ### Reasons -/

/-- What about a constraint the pipeline cannot deal with. The checks that the last penalty stage
makes beyond the terms of degree two find nothing. -/
def Problem.Resists (p : Problem Rat) (c : Constraint Rat) : Unsupported → Prop
  | .quadratic => c.isLinear = false
  | .fractionalCoefficient => c.relation ≠ .eq ∧ ∃ a ∈ c.coefficients, ¬IsInteger a
  | .largeCoefficient => c.relation ≠ .eq ∧ ∃ a ∈ c.coefficients, 2 ^ 53 < |a|
  | .wideSlack => c.relation ≠ .eq ∧ 2 ^ 53 < p.slackRange c
  | .inequality => False
  | .notBinary _ => False

/-- The errors of the pipeline, each with its reason. -/
inductive Problem.Refusal (p : Problem Rat) (given : Option Rat) : ConversionError Rat → Prop where
  /-- The given penalty factor is not positive. -/
  | invalidPenalty {f : Rat} (hgiven : given = some f) (hf : ¬0 < f) :
    p.Refusal given (.invalidPenalty f)
  /-- A constraint is of a kind that cannot be dealt with. -/
  | unsupported {c : Constraint Rat} {reason : Unsupported} (hc : c ∈ p.constraints)
    (hreason : p.Resists c reason) : p.Refusal given (.unsupported c.name reason)
  /-- No admissible vector satisfies an inequality; its sides are told after division. -/
  | infeasibleBounds {c : Constraint Rat} (hc : c ∈ p.constraints) (hrelation : c.relation ≠ .eq)
    (hviolated : ∀ s, p.Admissible s → ¬c.Holds (valueAt s)) :
    p.Refusal given (.infeasibleBounds c.name ((p.rangeOf c).lower / c.divisor)
      ((p.rangeOf c).upper / c.divisor) (c.rhs / c.divisor))

/-! ### Penalty factors -/

section Factors

variable {α : Type} [Scalar α]

theorem forM_validate_qubo (given : Option α) :
    (quboStages given).forM Stage.validate =
      match given with
      | none => .ok ()
      | some f => (fun _ => ()) <$> validateFactor f := by
  cases given with
  | none => rfl
  | some f =>
    cases hf : validateFactor f <;>
      simp [quboStages, Stage.validate, Stage.factor?, hf, ok_bind, error_bind]

/-- **The factors that the pipeline is refused for** are those that are given and are not positive
finite numbers, whatever the problem is and whatever the scalars are. -/
theorem convert_qubo_eq_invalidPenalty_iff {q : Problem α} {given : Option α} {f : α} :
    convert q (quboStages given) = .error (.invalidPenalty f) ↔
      given = some f ∧ (Scalar.isFinite f = false ∨ ¬0 < f) := by
  have hinvalid : (Scalar.isFinite f && decide (0 < f)) = false ↔
      Scalar.isFinite f = false ∨ ¬0 < f := by
    rw [Bool.and_eq_false_iff, decide_eq_false_iff_not]
  rw [convert_eq_invalidPenalty_iff, ← hinvalid]
  constructor
  · intro h
    obtain ⟨s, hs, hf⟩ := List.exists_of_findSome?_eq_some h
    obtain ⟨hfactor, hf⟩ := Stage.invalidFactor?_eq_some_iff.mp hf
    refine ⟨?_, hf⟩
    simp only [quboStages, List.mem_cons, List.not_mem_nil, or_false] at hs
    rcases hs with rfl | rfl | rfl | rfl | rfl <;> first | exact hfactor | contradiction
  · rintro ⟨rfl, hf⟩
    have hfirst : (Stage.linearInequalityToPenalty (some f)).invalidFactor? = some f :=
      Stage.invalidFactor?_eq_some_iff.mpr ⟨rfl, hf⟩
    rw [quboStages, List.findSome?_cons, hfirst]

end Factors

variable {p : Problem Rat} {given : Option Rat} {e : ConversionError Rat}

/-- An error of the pipeline is that of an invalid factor or of its stages with a valid one. -/
theorem convert_qubo_error (h : convert p (quboStages given) = .error e) :
    (∃ f, given = some f ∧ ¬0 < f ∧ e = .invalidPenalty f) ∨
      (∀ f, given = some f → 0 < f) ∧ runStages p (quboStages given) = .error e := by
  cases given with
  | none =>
    refine Or.inr ⟨by simp, ?_⟩
    rwa [convert, forM_validate_qubo] at h
  | some f =>
    by_cases hf : 0 < f
    · refine Or.inr ⟨by simpa using hf, ?_⟩
      simp only [convert, forM_validate_qubo,
        Problem.validateFactor_eq_ok_iff.mpr ⟨hf, rfl⟩] at h
      exact h
    · refine Or.inl ⟨f, rfl, hf, ?_⟩
      rw [convert_qubo_eq_invalidPenalty_iff.mpr ⟨rfl, Or.inr hf⟩] at h
      exact (Except.error.inj h).symm

theorem Problem.penaltyFactor_isOk (hvalid : ∀ f, given = some f → 0 < f) :
    ∃ factor, p.penaltyFactor given = .ok factor :=
  ⟨_, Problem.penaltyFactor_eq hvalid⟩

/-! ### The stages -/

/-- An inequality without a slack is of a kind that resists, or cannot be satisfied. -/
theorem Problem.refusal_of_slackFor {c : Constraint Rat} (hc : c ∈ p.constraints)
    (hrelation : c.relation ≠ .eq) (h : p.slackFor c = .error e) : p.Refusal given e := by
  rcases slackFor_error h with
    ⟨hregular, rfl⟩ | ⟨hexact, rfl⟩ | ⟨hregular, hrange, rfl⟩ | ⟨hwide, rfl⟩
  · exact .unsupported hc ⟨hrelation, by simpa [Constraint.IsRegular] using hregular⟩
  · exact .unsupported hc ⟨hrelation, by simpa [Constraint.IsExact] using hexact⟩
  · exact .infeasibleBounds hc hrelation fun s hs hholds =>
      absurd (slackRange_nonneg hrelation hregular hs hholds) (not_le.mpr hrange)
  · exact .unsupported hc ⟨hrelation, hwide⟩

/-- The bits of a tightened problem have different names. -/
private theorem bitNames_nodup_of_tightened {q : Problem Rat} {done : List (Constraint Rat)}
    (h : p.Tightened done q) (hplain : ∀ v ∈ p.vars, '@' ∉ v.name.toList) :
    (q.vars.flatMap Variable.bitNames).Nodup := by
  refine Problem.bitNames_nodup h.wellFormed.variableNames_nodup fun v hv hbinary => ?_
  obtain ⟨extra, hvars, -, hextra⟩ := h.vars_eq
  rw [hvars, List.mem_append] at hv
  rcases hv with hv | hv
  · exact hplain v hv
  · simp [hextra v hv] at hbinary

/-- The last penalty stage refuses what comes from a constraint with terms of degree two. -/
private theorem refusal_of_checkEquality {f : Rat} {q₂ q₃ : Problem Rat} {r : Record Rat}
    (htight : (p.withoutShapes f).Tightened p.genericConstraints q₂) (hbinary : q₂.BinaryForm q₃ r)
    {d : Constraint Rat} (hd : d ∈ q₃.constraints) (h : q₃.checkEquality d = .error e) :
    p.Refusal given e := by
  rw [hbinary.constraints_eq] at hd
  obtain ⟨b, hb, rfl⟩ := List.mem_map.mp hd
  have hrelation : (Substitution.constraint r.mappings b).relation = .eq := htight.relation_eq b hb
  obtain ⟨hquadratic, rfl⟩ := Problem.checkEquality_error hbinary.binary hrelation h
  obtain ⟨c, hc, hname, hlinear⟩ := htight.origin b hb
  have hresists : c.isLinear = false := Bool.eq_false_iff.mpr fun hc => by
    rw [Substitution.isLinear_constraint (hlinear hc)] at hquadratic
    contradiction
  have hnamed : (Substitution.constraint r.mappings b).name = c.name := hname
  rw [hnamed]
  exact .unsupported (List.mem_filter.mp hc).1 hresists

/-- **Refusals of the stages.** Once the factor is accepted, the pipeline is refused only because of
a constraint. -/
theorem runStages_qubo_error (hp : p.WellFormed) (hplain : ∀ v ∈ p.vars, '@' ∉ v.name.toList)
    (hvalid : ∀ f, given = some f → 0 < f) (h : runStages p (quboStages given) = .error e) :
    p.Refusal given e := by
  obtain ⟨f, hf⟩ := Problem.penaltyFactor_isOk (p := p) hvalid
  have hfold := Problem.foldShapes_eq hp hf
  have hp₁ := hp.withoutShapes f
  rcases runStages_cons_error h with h | ⟨q₁, r₁, hq₁, h⟩
  · rw [Stage.apply, hfold] at h
    contradiction
  rw [Stage.apply, hfold, Except.ok.injEq, Prod.mk.injEq] at hq₁
  obtain ⟨rfl, -⟩ := hq₁
  rcases runStages_cons_error h with h | ⟨q₂, r₂, hq₂, h⟩
  · obtain ⟨c, hc, hrelation, hslack⟩ := Problem.addSlacks_error hp₁
      (fun c _ => Problem.slackName_fresh (p := p) hplain c) h
    exact Problem.refusal_of_slackFor (p := p) (List.mem_filter.mp hc).1 hrelation hslack
  have htight := (Problem.addSlacks_ok hp₁ hq₂).1
  rcases runStages_cons_error h with h | ⟨q₃, r₃, hq₃, h⟩
  · obtain ⟨_, hok⟩ :=
      Problem.binarize_isOk htight.wellFormed (bitNames_nodup_of_tightened htight hplain)
    rw [Stage.apply, hok] at h
    contradiction
  have hbinary := Problem.binarize_ok htight.wellFormed hq₃
  obtain ⟨g, hg⟩ := Problem.penaltyFactor_isOk (p := q₃) hvalid
  rcases runStages_cons_error h with h | ⟨q₄, r₄, hq₄, h⟩
  · obtain ⟨d, hd, hcheck⟩ := Problem.foldEqualities_error hbinary.wellFormed hg h
    exact refusal_of_checkEquality htight hbinary hd hcheck
  obtain ⟨g, -, hcheck, rfl, -⟩ := Problem.foldEqualities_ok hbinary.wellFormed hq₄
  have hq₄ := hbinary.wellFormed.withoutEqualities
    (fun d hd => (Problem.checkEquality_ok (hcheck d hd)).2) g
  rcases runStages_cons_error h with h | ⟨q₅, r₅, -, h⟩
  · rw [Stage.apply, Problem.orient_eq hq₄] at h
    contradiction
  · contradiction

/-- There is no reason when the factor is valid, all constraints are linear, and all inequalities
can be given a slack and be satisfied. -/
theorem Problem.not_refusal (hvalid : ∀ f, given = some f → 0 < f)
    (hlinear : ∀ c ∈ p.constraints, c.isLinear = true)
    (hinequalities : ∀ c ∈ p.constraints, c.relation ≠ .eq →
      (∀ a ∈ c.coefficients, IsInteger a ∧ |a| ≤ 2 ^ 53) ∧ p.slackRange c ≤ 2 ^ 53 ∧
        ∃ s, p.Admissible s ∧ c.Holds (valueAt s)) : ¬p.Refusal given e := by
  intro hrefusal
  cases hrefusal with
  | invalidPenalty hgiven hf => exact hf (hvalid _ hgiven)
  | infeasibleBounds hc hrelation hviolated =>
    obtain ⟨-, -, s, hs, hholds⟩ := hinequalities _ hc hrelation
    exact hviolated s hs hholds
  | @unsupported c reason hc hreason =>
    cases reason with
    | quadratic => simp [Resists, hlinear c hc] at hreason
    | fractionalCoefficient =>
      obtain ⟨hrelation, a, ha, hfractional⟩ := hreason
      exact hfractional ((hinequalities c hc hrelation).1 a ha).1
    | largeCoefficient =>
      obtain ⟨hrelation, a, ha, hlarge⟩ := hreason
      exact absurd ((hinequalities c hc hrelation).1 a ha).2 (not_le.mpr hlarge)
    | wideSlack => exact absurd (hinequalities c hc hreason.1).2.1 (not_le.mpr hreason.2)
    | inequality => exact hreason.elim
    | notBinary => exact hreason.elim

/-- **Refusals of the standard pipeline.** If no variable has a mark in its name, then every error
has a reason in the source problem, and the pipeline succeeds when the factor is valid, all
constraints are linear, and each inequality has integer coefficients and a slack range that are not
too large and is satisfied by some admissible vector. The pipeline is refused for a factor exactly
when it is given this factor and it is not positive or, where scalars may be infinite or no numbers,
not finite. -/
theorem qubo_refusals (hp : p.Built) (hplain : ∀ v ∈ p.vars, '@' ∉ v.name.toList)
    (given : Option Rat) :
    (∀ e, convert p (quboStages given) = .error e → p.Refusal given e) ∧
    (∀ f, convert p (quboStages given) = .error (.invalidPenalty f) ↔ given = some f ∧ ¬0 < f) ∧
    (∀ {β : Type} [Scalar β] (q : Problem β) (option : Option β) (f : β),
      convert q (quboStages option) = .error (.invalidPenalty f) ↔
        option = some f ∧ (Scalar.isFinite f = false ∨ ¬0 < f)) ∧
    ((∀ f, given = some f → 0 < f) → (∀ c ∈ p.constraints, c.isLinear = true) →
      (∀ c ∈ p.constraints, c.relation ≠ .eq →
        (∀ a ∈ c.coefficients, IsInteger a ∧ |a| ≤ 2 ^ 53) ∧ p.slackRange c ≤ 2 ^ 53 ∧
          ∃ s, p.Admissible s ∧ c.Holds (valueAt s)) →
      ∃ result, convert p (quboStages given) = .ok result) := by
  have hrefusal : ∀ e, convert p (quboStages given) = .error e → p.Refusal given e := by
    intro e h
    rcases convert_qubo_error h with ⟨f, hgiven, hf, rfl⟩ | ⟨hvalid, h⟩
    · exact .invalidPenalty hgiven hf
    · exact runStages_qubo_error hp.wellFormed hplain hvalid h
  refine ⟨hrefusal, fun f => ?_, fun q option f => convert_qubo_eq_invalidPenalty_iff,
    fun hvalid hlinear hinequalities => ?_⟩
  · have hfinite : Scalar.isFinite f ≠ false := nofun
    rw [convert_qubo_eq_invalidPenalty_iff, or_iff_right hfinite]
  · cases h : convert p (quboStages given) with
    | ok result => exact ⟨result, rfl⟩
    | error e => exact absurd (hrefusal e h) (Problem.not_refusal hvalid hlinear hinequalities)

/-- The packing problem is refused with the factor -1 and converted without a given factor. Over
doubles an empty problem is refused with a factor that is infinite or not a number. -/
theorem packing_refusals :
    convert packing (quboStages (some (-1))) = .error (.invalidPenalty (-1)) ∧
      (∃ result, convert packing (quboStages none) = .ok result) ∧
        ∀ f ∈ [(1.0 / 0.0 : Float), 0.0 / 0.0],
          convert (Problem.empty "draft") (quboStages (some f)) = .error (.invalidPenalty f) := by
  have hplain : ∀ v ∈ packing.vars, '@' ∉ v.name.toList := by decide +kernel
  have hsizes : ∀ c ∈ packing.constraints,
      (∀ a ∈ c.coefficients, IsInteger a ∧ |a| ≤ 2 ^ 53) ∧ packing.slackRange c ≤ 2 ^ 53 := by
    decide +kernel
  have hfeasible : packing.Feasible [1, 0, 1] := by decide +kernel
  obtain ⟨-, hnegative, hinfinite, -⟩ := qubo_refusals packing_built hplain (some (-1))
  obtain ⟨-, -, -, hsucceeds⟩ := qubo_refusals packing_built hplain none
  refine ⟨(hnegative (-1)).mpr ⟨rfl, by norm_num⟩, ?_, fun f hf => ?_⟩
  · exact hsucceeds (by simp) (by decide +kernel) fun c hc _ =>
      ⟨(hsizes c hc).1, (hsizes c hc).2, [1, 0, 1], hfeasible.1, hfeasible.2 c hc⟩
  · have hunbounded : ∀ f ∈ [(1.0 / 0.0 : Float), 0.0 / 0.0], Scalar.isFinite f = false := by
      decide +kernel
    exact (hinfinite (Problem.empty "draft") (some f) f).mpr ⟨rfl, Or.inl (hunbounded f hf)⟩

end QuboReduction

import QuboReduction.Proofs.Dominance
import QuboReduction.Proofs.Estimate

/-!
# The standard pipeline with estimated penalty factors

Without a given factor each penalty stage estimates its own. The second estimate is always large
enough, since at this point all variables are binary. The first one is made while variables can
still have ranges with numbers of both signs, and then breaking a shape can pay for itself.

## Main definitions

* `QuboReduction.Problem.EstimateDominates` — breaking a shape never pays for itself.
* `QuboReduction.crossing` — a problem in which it does.

## Main results

* `QuboReduction.qubo_solves_iff_estimateDominates` — when the pipeline is right about a problem.
* `QuboReduction.crossing_not_solved` — a problem about which it is not.
-/

namespace QuboReduction

/-- Whatever satisfies the constraints without a shape and breaks one with a shape costs more than
an optimal vector, once the estimated factor is added for each way in which a shape is broken. -/
def Problem.EstimateDominates (p : Problem Rat) : Prop :=
  ∀ s x, p.Optimal s → p.Admissible x → (∀ d ∈ p.genericConstraints, d.Holds (valueAt x)) →
    ¬p.Feasible x → p.cost s < p.cost x + p.estimatedFactor * p.shapeCost (valueAt x)

variable {p q : Problem Rat} {c : Conversion Rat} {f g : Rat} {miss : List Rat → Rat}
  {s t : List Rat}

/-- If no range has numbers of both signs, the estimate is large enough. -/
theorem Problem.estimateDominates_of_oneSigned (hsigned : ∀ v ∈ p.vars, v.domain.OneSigned) :
    p.EstimateDominates := by
  intro s x hs hx hholds hbreaks
  have hcost : p.shapeCost (valueAt x) ≠ 0 := fun hzero =>
    hbreaks (feasible_iff_shapeCost.mpr ⟨⟨hx, hholds⟩, hzero⟩)
  obtain ⟨n, hn⟩ := shapeCost_natCast hx
  have hone : 1 ≤ p.shapeCost (valueAt x) := by
    rw [hn] at hcost ⊢
    exact_mod_cast Nat.one_le_iff_ne_zero.mpr (by exact_mod_cast hcost)
  exact cost_lt_add_penalty hsigned hs.1.1 hx hone

namespace QuboForm

/-- The second estimate is large enough: a deviation never pays for itself, since at this point all
variables are binary. -/
theorem cost_lt_of_miss (h : QuboForm p c f q.estimatedFactor miss)
    (hintegral : ∀ d ∈ p.constraints, d.relation = .eq → d.Integral)
    (hvars : q.vars = c.problem.vars)
    (hvalue : ∀ t, c.problem.value t = q.cost t + q.estimatedFactor * miss t)
    (ht : c.problem.Admissible t) (hmiss : miss t ≠ 0) (hs : p.Feasible s) :
    p.cost s < c.problem.value t := by
  obtain ⟨u, hu, hzero, -, hcost⟩ := h.exists_of_feasible hs
  have hadmissible : ∀ t, c.problem.Admissible t → q.Admissible t := fun t ht => by
    rwa [Problem.Admissible, hvars]
  have hone : 1 ≤ miss t :=
    (h.miss_isInteger hintegral t ht).one_le ((h.miss_nonneg t).lt_of_ne' hmiss)
  have hless := Problem.cost_lt_add_penalty (p := q)
    (fun v hv => Domain.oneSigned_of_isBinary (h.binary v (hvars ▸ hv)))
    (hadmissible u hu) (hadmissible t ht) hone
  rw [← hcost, hvalue u, hvalue t, hzero, mul_zero, add_zero]
  exact hless

/-- Minimizers stand for optimal vectors exactly when breaking a shape never pays for itself. -/
theorem solves_iff_estimateDominates (h : QuboForm p c p.estimatedFactor q.estimatedFactor miss)
    (hintegral : ∀ d ∈ p.constraints, d.relation = .eq → d.Integral)
    (hfeasible : ∃ s, p.Feasible s) (hvars : q.vars = c.problem.vars)
    (hvalue : ∀ t, c.problem.value t = q.cost t + q.estimatedFactor * miss t) :
    (∀ t, c.problem.Minimizes t → c.Solves p t) ↔ p.EstimateDominates := by
  constructor
  · intro hsolves s x hs hx hholds hbreaks
    by_contra hpays
    obtain ⟨t, ht, hmiss, rfl⟩ := h.complete x hx hholds
    have hle : c.problem.value t ≤ p.cost s := by
      rw [h.value_eq t ht, hmiss, mul_zero, add_zero]
      exact not_lt.mp hpays
    obtain ⟨m, hm⟩ := Problem.exists_minimizer h.binary
    obtain ⟨hm', hmin⟩ := (Problem.minimizes_iff h.binary).mp hm
    obtain ⟨hoptimal, hcost⟩ := (h.solves_iff hm').mp (hsolves m hm)
    have hsame : p.cost (Record.backAll c.records m) = p.cost s := by
      rw [Problem.cost, Problem.cost, hoptimal.value_eq hs]
    -- So the vector that breaks a shape costs as little as a minimizer, and is one itself.
    have hminimizes : c.problem.Minimizes t := (Problem.minimizes_iff h.binary).mpr
      ⟨ht, fun u hu => hle.trans ((hsame ▸ hcost ▸ hmin u hu))⟩
    exact hbreaks ((h.solves_iff ht).mp (hsolves t hminimizes)).1.1
  · intro hdominates t ht
    refine h.solves_of_minimizes hfeasible (fun t ht hbreak s hs => ?_) ht
    by_cases hmiss : miss t = 0
    · have hcost := hbreak.resolve_left (not_not.mpr hmiss)
      have hlt := hdominates s _ hs (h.admissible t ht) (h.sound t ht hmiss) fun hfeasible =>
        hcost (Problem.feasible_iff_shapeCost.mp hfeasible).2
      rwa [h.value_eq t ht, hmiss, mul_zero, add_zero]
    · exact h.cost_lt_of_miss hintegral hvars hvalue ht hmiss hs.1

end QuboForm

private theorem solves_iff_of_convert (hp : p.Built)
    (hintegral : ∀ d ∈ p.constraints, d.relation = .eq →
      (∀ a ∈ d.coefficients, IsInteger a) ∧ IsInteger d.rhs)
    (hfeasible : ∃ s, p.Feasible s) (h : convert p (quboStages none) = .ok c) :
    (∀ t, c.problem.Minimizes t → c.Solves p t) ↔ p.EstimateDominates := by
  obtain ⟨f, g, q, miss, hf, hg, hvars, hvalue, hform⟩ := quboForm_of_convert hp.wellFormed h
  obtain rfl := Except.ok.inj hf
  obtain rfl := Except.ok.inj hg
  exact hform.solves_iff_estimateDominates
    (fun d hd hrelation => Constraint.integral_of_isInteger (hintegral d hd hrelation).1
      (hintegral d hd hrelation).2) hfeasible hvars hvalue

/-- **Estimated penalty factors.** Let the equalities of a problem have integer data and let some
vector be feasible. Then the minimizers of the result of the standard pipeline stand for optimal
vectors of the problem, and their value tells the optimum, exactly when breaking a shape never pays
for itself at the estimated factor. This is so whenever no range has numbers of both signs. -/
theorem qubo_solves_iff_estimateDominates (hp : p.Built)
    (hintegral : ∀ d ∈ p.constraints, d.relation = .eq →
      (∀ a ∈ d.coefficients, IsInteger a) ∧ IsInteger d.rhs)
    (hfeasible : ∃ s, p.Feasible s) (h : convert p (quboStages none) = .ok c) :
    ((∀ t, c.problem.Minimizes t → c.Solves p t) ↔ p.EstimateDominates) ∧
      ((∀ v ∈ p.vars, v.domain.OneSigned) → ∀ t, c.problem.Minimizes t → c.Solves p t) := by
  have hiff := solves_iff_of_convert hp hintegral hfeasible h
  exact ⟨hiff, fun hsigned => hiff.mpr (Problem.estimateDominates_of_oneSigned hsigned)⟩

/-- The packing problem is solved without a given factor. -/
theorem packing_solved_without_factor : ∃ c, convert packing (quboStages none) = .ok c ∧
    packing.EstimateDominates ∧ ∀ t, c.problem.Minimizes t → c.Solves packing t := by
  have hok : (convert packing (quboStages none)).isOk = true := by decide +kernel
  obtain ⟨c, hc⟩ := isOk_iff.mp hok
  obtain ⟨hiff, hsigned⟩ := qubo_solves_iff_estimateDominates packing_built (by decide +kernel)
    ⟨[1, 0, 1], by decide +kernel⟩ hc
  have hsolves := hsigned (by simp [packing, Domain.OneSigned, Domain.lower, Domain.upper])
  exact ⟨c, hc, hiff.mp hsolves, hsolves⟩

/-! ### A problem in which breaking a shape pays -/

/-- Minimize an integer `n` between -5 and 5, with two binary variables of which at most one is one
and `8·x + 8·y + n = 11`. With both of them `n` is -5, and with one of them it is 3. -/
def crossing : Problem Rat where
  name := "crossing"
  vars := [⟨"x", .binary, 0⟩, ⟨"y", .binary, 1⟩, ⟨"n", .integer (-5) 5, 2⟩]
  objective := ⟨.minimize, ⟨0, Terms.ofList [(2, 1)], Terms.empty⟩⟩
  constraints := [.ofLinear "pick" (Terms.ofList [(0, 1), (1, 1)]) .le 1,
    .ofLinear "tie" (Terms.ofList [(0, 8), (1, 8), (2, 1)]) .eq 11]

theorem crossing_built : crossing.Built := Problem.built_iff_assemble_eq.mpr rfl

private theorem crossing_cost_ge (hs : crossing.Feasible s) : 3 ≤ crossing.cost s := by
  have hpick : valueAt s 0 + valueAt s 1 ≤ 1 := by
    simpa [Constraint.Holds, Constraint.evaluate_eq, Constraint.ofLinear, Relation.Holds] using
      hs.2 _ (List.mem_cons_self ..)
  have htie : 8 * valueAt s 0 + (8 * valueAt s 1 + valueAt s 2) = 11 := by
    simpa [Constraint.Holds, Constraint.evaluate_eq, Constraint.ofLinear, Relation.Holds] using
      hs.2 _ (List.mem_cons_of_mem _ (List.mem_cons_self ..))
  have hcost : crossing.cost s = valueAt s 2 := by
    simp [Problem.cost, Problem.value, crossing, Sense.sign, Objective.evaluate,
      Polynomial.evaluate_eq]
  linarith

theorem not_estimateDominates_crossing : ¬crossing.EstimateDominates := by
  intro h
  obtain ⟨s, hs⟩ := Problem.exists_optimal (p := crossing) ⟨[1, 0, 3], by decide +kernel⟩
  have hlt := h s [1, 1, -5] hs (by decide +kernel) (by decide +kernel) (by decide +kernel)
  have hpays : crossing.cost [1, 1, -5] + crossing.estimatedFactor *
      crossing.shapeCost (valueAt [1, 1, -5]) = 1 := by decide +kernel
  linarith [crossing_cost_ge hs.1]

/-- A minimizer of the converted problem need not stand for an optimal vector. -/
theorem crossing_not_solved : crossing.Built ∧
    (∀ d ∈ crossing.constraints, d.relation = .eq →
      (∀ a ∈ d.coefficients, IsInteger a) ∧ IsInteger d.rhs) ∧
    (∃ s, crossing.Feasible s) ∧
    ∃ c, convert crossing (quboStages none) = .ok c ∧
      ¬∀ t, c.problem.Minimizes t → c.Solves crossing t := by
  have hintegral : ∀ d ∈ crossing.constraints, d.relation = .eq →
      (∀ a ∈ d.coefficients, IsInteger a) ∧ IsInteger d.rhs := by decide +kernel
  have hfeasible : ∃ s, crossing.Feasible s := ⟨[1, 0, 3], by decide +kernel⟩
  refine ⟨crossing_built, hintegral, hfeasible, ?_⟩
  have hok : (convert crossing (quboStages none)).isOk = true := by decide +kernel
  obtain ⟨c, hc⟩ := isOk_iff.mp hok
  exact ⟨c, hc, fun hsolves => not_estimateDominates_crossing
    ((solves_iff_of_convert crossing_built hintegral hfeasible hc).mp hsolves)⟩

end QuboReduction

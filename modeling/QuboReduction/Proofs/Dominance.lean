import QuboReduction.Proofs.Optima
import QuboReduction.Proofs.QuboForm

/-!
# Penalties that decide

The standard pipeline is right about a problem when every vector of the result that breaks a
constraint costs more than an optimal vector of the source. Then the minimizers of the result are
exactly the vectors that stand for optimal vectors. A given penalty factor is large enough for this
when it exceeds what the objective can change by.

## Main definitions

* `QuboReduction.Conversion.Solves` — a vector of the result stands for an optimal vector.
* `QuboReduction.QuboForm.Breaks` — a vector of the result that pays a penalty.

## Main results

* `QuboReduction.QuboForm.solves_of_minimizes`, `QuboReduction.QuboForm.exists_minimizer` —
  penalties that are large enough.
* `QuboReduction.qubo_solves_of_spread_lt` — the pipeline with a given penalty factor.
-/

namespace QuboReduction

variable {p : Problem Rat} {c : Conversion Rat} {f g : Rat} {miss : List Rat → Rat}
  {s t : List Rat}

/-- A vector of the result of a conversion is taken back to an optimal vector of the source, and its
value to the objective of that vector. -/
def Conversion.Solves (c : Conversion Rat) (p : Problem Rat) (t : List Rat) : Prop :=
  ∃ s, c.interpret t = .ok s ∧ p.Optimal s ∧ c.interpretObjective (c.problem.value t) = p.value s

namespace QuboForm

/-- A vector that pays a penalty, for an equality or for a shape. -/
def Breaks (p : Problem Rat) (c : Conversion Rat) (miss : List Rat → Rat) (t : List Rat) : Prop :=
  miss t ≠ 0 ∨ p.shapeCost (valueAt (Record.backAll c.records t)) ≠ 0

/-- A vector that pays no penalty stands for a feasible vector and has its cost. -/
theorem feasible_of_not_breaks (h : QuboForm p c f g miss) (ht : c.problem.Admissible t)
    (hbreaks : ¬Breaks p c miss t) :
    p.Feasible (Record.backAll c.records t) ∧
      c.problem.value t = p.cost (Record.backAll c.records t) := by
  obtain ⟨hmiss, hcost⟩ := not_or.mp hbreaks
  rw [not_not] at hmiss hcost
  constructor
  · exact Problem.feasible_iff_shapeCost.mpr ⟨⟨h.admissible t ht, h.sound t ht hmiss⟩, hcost⟩
  · rw [h.value_eq t ht, hmiss, hcost]
    ring

/-- Every feasible vector is reached without a penalty. -/
theorem exists_of_feasible (h : QuboForm p c f g miss) (hs : p.Feasible s) :
    ∃ t, c.problem.Admissible t ∧ miss t = 0 ∧ Record.backAll c.records t = s ∧
      c.problem.value t = p.cost s := by
  obtain ⟨⟨hadmissible, hholds⟩, hcost⟩ := Problem.feasible_iff_shapeCost.mp hs
  obtain ⟨t, ht, hmiss, rfl⟩ := h.complete s hadmissible hholds
  refine ⟨t, ht, hmiss, rfl, ?_⟩
  rw [h.value_eq t ht, hmiss, hcost]
  ring

theorem interpret_eq (h : QuboForm p c f g miss) (ht : c.problem.Admissible t) :
    c.interpret t = .ok (Record.backAll c.records t) :=
  h.linked.interpretAll_eq ht.length_eq

theorem solves_iff (h : QuboForm p c f g miss) (ht : c.problem.Admissible t) :
    c.Solves p t ↔ p.Optimal (Record.backAll c.records t) ∧
      c.problem.value t = p.cost (Record.backAll c.records t) := by
  have hvalue : c.interpretObjective (c.problem.value t) = p.value (Record.backAll c.records t) ↔
      c.problem.value t = p.cost (Record.backAll c.records t) := by
    have hsign := p.objective.sense.sign_mul_sign
    rw [h.interpretObjective_eq, Problem.cost]
    constructor
    · intro hv
      rw [← hv, ← mul_assoc, hsign, one_mul]
    · intro hv
      rw [hv, ← mul_assoc, hsign, one_mul]
  rw [Conversion.Solves, h.interpret_eq ht]
  simp only [Except.ok.injEq, exists_eq_left', hvalue]

/-- **Soundness of penalties.** If every vector that pays a penalty costs more than an optimal
vector of the source, then minimizers stand for optimal vectors. -/
theorem solves_of_minimizes (h : QuboForm p c f g miss) (hfeasible : ∃ s, p.Feasible s)
    (hbreaks : ∀ t, c.problem.Admissible t → Breaks p c miss t → ∀ s, p.Optimal s →
      p.cost s < c.problem.value t)
    (ht : c.problem.Minimizes t) : c.Solves p t := by
  obtain ⟨hadmissible, hmin⟩ := (Problem.minimizes_iff h.binary).mp ht
  have hle : ∀ s, p.Feasible s → c.problem.value t ≤ p.cost s := fun s hs => by
    obtain ⟨u, hu, -, -, hvalue⟩ := h.exists_of_feasible hs
    exact (hmin u hu).trans hvalue.le
  have hkeeps : ¬Breaks p c miss t := fun hbreak => by
    obtain ⟨s, hs⟩ := Problem.exists_optimal hfeasible
    exact absurd (hbreaks t hadmissible hbreak s hs) (hle s hs.1).not_gt
  obtain ⟨hback, hvalue⟩ := h.feasible_of_not_breaks hadmissible hkeeps
  refine (h.solves_iff hadmissible).mpr ⟨Problem.optimal_iff.mpr ⟨hback, fun u hu => ?_⟩, hvalue⟩
  exact hvalue ▸ hle u hu

/-- **Completeness of penalties.** Under the same condition every optimal vector is reached by a
minimizer. -/
theorem exists_minimizer (h : QuboForm p c f g miss)
    (hbreaks : ∀ t, c.problem.Admissible t → Breaks p c miss t → ∀ s, p.Optimal s →
      p.cost s < c.problem.value t)
    (hs : p.Optimal s) : ∃ t, c.problem.Minimizes t ∧ c.interpret t = .ok s := by
  obtain ⟨t, ht, -, rfl, hvalue⟩ := h.exists_of_feasible hs.1
  refine ⟨t, (Problem.minimizes_iff h.binary).mpr ⟨ht, fun u hu => ?_⟩, h.interpret_eq ht⟩
  rw [hvalue]
  by_cases hbreak : Breaks p c miss u
  · exact (hbreaks u hu hbreak _ hs).le
  · obtain ⟨hback, hcost⟩ := h.feasible_of_not_breaks hu hbreak
    rw [hcost]
    exact (Problem.optimal_iff.mp hs).2 _ hback

/-- A penalty that is paid is at least its factor. -/
theorem cost_add_le_of_breaks (h : QuboForm p c f f miss) (hf : 0 < f)
    (hintegral : ∀ d ∈ p.constraints, d.relation = .eq → d.Integral) (ht : c.problem.Admissible t)
    (hbreak : Breaks p c miss t) :
    p.cost (Record.backAll c.records t) + f ≤ c.problem.value t := by
  obtain ⟨n, hn⟩ := Problem.shapeCost_natCast (h.admissible t ht)
  have hmiss := h.miss_isInteger hintegral t ht
  have htotal : 1 ≤ p.shapeCost (valueAt (Record.backAll c.records t)) + miss t := by
    have hinteger : IsInteger (p.shapeCost (valueAt (Record.backAll c.records t)) + miss t) :=
      IsInteger.add ⟨n, by simpa using hn⟩ hmiss
    refine hinteger.one_le ?_
    have hshape : 0 ≤ p.shapeCost (valueAt (Record.backAll c.records t)) := by
      rw [hn]
      exact Nat.cast_nonneg n
    rcases hbreak with hbreak | hbreak
    · exact add_pos_of_nonneg_of_pos hshape ((h.miss_nonneg t).lt_of_ne' hbreak)
    · exact add_pos_of_pos_of_nonneg (hshape.lt_of_ne' hbreak) (h.miss_nonneg t)
  rw [h.value_eq t ht]
  nlinarith

/-- So a factor beyond what the objective can change by makes penalties large enough. -/
theorem cost_lt_of_breaks (h : QuboForm p c f f miss)
    (hintegral : ∀ d ∈ p.constraints, d.relation = .eq → d.Integral)
    (hspread : ∀ s t, p.Admissible s → p.Admissible t → p.value s - p.value t < f)
    (ht : c.problem.Admissible t) (hbreak : Breaks p c miss t) (hs : p.Optimal s) :
    p.cost s < c.problem.value t := by
  have hback := h.admissible t ht
  have hpositive : 0 < f := by simpa using hspread s s hs.1.1 hs.1.1
  have hst := hspread s _ hs.1.1 hback
  have hts := hspread _ s hback hs.1.1
  refine lt_of_lt_of_le ?_ (h.cost_add_le_of_breaks hpositive hintegral ht hbreak)
  unfold Problem.cost
  cases p.objective.sense with
  | minimize =>
    simp only [Sense.sign]
    linarith
  | maximize =>
    simp only [Sense.sign]
    linarith

end QuboForm

/-- A constraint with integer data is missed by integers only. -/
theorem Constraint.integral_of_isInteger {d : Constraint Rat}
    (hcoefficients : ∀ a ∈ d.coefficients, IsInteger a) (hrhs : IsInteger d.rhs) : d.Integral := by
  intro x hx
  rw [evaluate_eq]
  refine IsInteger.sub (IsInteger.add (Terms.isInteger_value (fun u hu => ?_) fun u _ => hx u.1)
    (Terms.isInteger_value (fun u hu => ?_) fun u _ => (hx u.1.low).mul (hx u.1.high))) hrhs
  · exact hcoefficients _ (List.mem_append_left _ (List.mem_map.mpr ⟨u, hu, rfl⟩))
  · exact hcoefficients _ (List.mem_append_right _ (List.mem_map.mpr ⟨u, hu, rfl⟩))

/-- **A given penalty factor.** Let the equalities of a problem have integer data, let some vector
be feasible, and let the penalty factor exceed what the objective can change by among the admissible
vectors. Then the minimizers of the result of the standard pipeline are exactly the vectors of zeros
and ones that stand for optimal vectors of the problem, and their value tells the optimum. -/
theorem qubo_solves_of_spread_lt (hp : p.Built)
    (hintegral : ∀ d ∈ p.constraints, d.relation = .eq →
      (∀ a ∈ d.coefficients, IsInteger a) ∧ IsInteger d.rhs)
    (hfeasible : ∃ s, p.Feasible s) {penalty : Rat}
    (hspread : ∀ s t, p.Admissible s → p.Admissible t → p.value s - p.value t < penalty)
    (h : convert p (quboStages (some penalty)) = .ok c) :
    (∀ t, c.problem.Minimizes t → c.Solves p t) ∧
      ∀ s, p.Optimal s → ∃ t, c.problem.Minimizes t ∧ c.interpret t = .ok s := by
  obtain ⟨f, g, q, miss, hf, hg, -, -, hform⟩ := quboForm_of_convert hp.wellFormed h
  have hfactor : ∀ {q : Problem Rat} {f : Rat}, q.penaltyFactor (some penalty) = .ok f →
      f = penalty := fun hq => by
    simpa [eq_comm] using (Problem.penaltyFactor_eq_ok_iff.mp hq).imp_right And.left
  rw [hfactor hf, hfactor hg] at hform
  have hbreaks : ∀ t, c.problem.Admissible t → QuboForm.Breaks p c miss t → ∀ s, p.Optimal s →
      p.cost s < c.problem.value t := fun t ht hbreak s hs =>
    hform.cost_lt_of_breaks (fun d hd hrelation => Constraint.integral_of_isInteger
      (hintegral d hd hrelation).1 (hintegral d hd hrelation).2) hspread ht hbreak hs
  exact ⟨fun t ht => hform.solves_of_minimizes hfeasible hbreaks ht,
    fun s hs => hform.exists_minimizer hbreaks hs⟩

/-- Choose at most one of two things and between zero and two copies of a third, with a limit on
their weights and a condition on the copies. The choices are worth between 0 and 7. -/
def packing : Problem Rat where
  name := "packing"
  vars := [⟨"x", .binary, 0⟩, ⟨"y", .binary, 1⟩, ⟨"n", .integer 0 2, 2⟩]
  objective := ⟨.maximize, ⟨0, Terms.ofList [(0, 3), (1, 2), (2, 1)], Terms.empty⟩⟩
  constraints := [.ofLinear "pick" (Terms.ofList [(0, 1), (1, 1)]) .le 1,
    .ofLinear "room" (Terms.ofList [(0, 2), (1, 1), (2, 1)]) .le 3,
    .ofLinear "tie" (Terms.ofList [(1, 1), (2, 1)]) .eq 1]

theorem packing_built : packing.Built := Problem.built_iff_assemble_eq.mpr rfl

private theorem packing_value_bounds {s : List Rat} (hs : packing.Admissible s) :
    0 ≤ packing.value s ∧ packing.value s ≤ 7 := by
  have hvalue : packing.value s = 3 * valueAt s 0 + (2 * valueAt s 1 + valueAt s 2) := by
    simp [Problem.value, packing, Objective.evaluate, Polynomial.evaluate_eq]
  have hx := hs.admits (i := 0) (v := ⟨"x", .binary, 0⟩) rfl
  have hy := hs.admits (i := 1) (v := ⟨"y", .binary, 1⟩) rfl
  have hn := hs.admits (i := 2) (v := ⟨"n", .integer 0 2, 2⟩) rfl
  have hxl := hx.lower_le
  have hxu := hx.le_upper
  have hyl := hy.lower_le
  have hyu := hy.le_upper
  have hnl := hn.lower_le
  have hnu := hn.le_upper
  norm_num [Domain.lower, Domain.upper] at hxl hxu hyl hyu hnl hnu
  constructor <;> linarith

/-- The packing problem is solved with the factor 8. -/
theorem packing_solved : ∃ c, convert packing (quboStages (some 8)) = .ok c ∧
    (∀ t, c.problem.Minimizes t → c.Solves packing t) ∧
      ∀ s, packing.Optimal s → ∃ t, c.problem.Minimizes t ∧ c.interpret t = .ok s := by
  have hok : (convert packing (quboStages (some 8))).isOk = true := by decide +kernel
  obtain ⟨c, hc⟩ := isOk_iff.mp hok
  refine ⟨c, hc, qubo_solves_of_spread_lt packing_built (by decide +kernel)
    ⟨[1, 0, 1], by decide +kernel⟩ (fun s t hs ht => ?_) hc⟩
  linarith [(packing_value_bounds hs).2, (packing_value_bounds ht).1]

end QuboReduction

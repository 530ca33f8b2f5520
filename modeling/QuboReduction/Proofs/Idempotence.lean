import QuboReduction.Proofs.Accounting
import QuboReduction.Proofs.Coefficients
import QuboReduction.Proofs.Refusals

/-!
# The pipeline on its own results

The standard pipeline leaves a quadratic minimization over binary variables without constraints, and
such a problem is what it leaves unchanged: without constraints there is nothing to fold and nothing
to add, and binary variables are substituted for themselves. So a second run changes nothing, and
its records take every vector and every objective value back to itself.

## Main definitions

* `QuboReduction.Problem.QuboMinimization` — the form in which the pipeline states problems.
* `QuboReduction.Conversion.Leaves` — conversions that change nothing.

## Main results

* `QuboReduction.Substitution.objective_keepAll`, `QuboReduction.Substitution.constraint_keepAll` —
  substituting variables for themselves.
* `QuboReduction.Problem.binarize_of_binary` — the stage for bits on binary variables.
* `QuboReduction.Problem.QuboMinimization.convert_eq` — the pipeline on a problem of its own form.
* `QuboReduction.quboMinimization_of_convert` — the form of its results.
* `QuboReduction.qubo_idempotent` — the pipeline is idempotent.
-/

namespace QuboReduction

/-! ### Substituting variables for themselves -/

namespace Substitution

variable {n : Nat} {linear : Linear Rat} {quadratic : Quadratic Rat}

private theorem formAt_keepAll {i : Nat} (h : i < n) :
    formAt (Record.keepAll n : Substitution Rat) i = (0, [(i, 1)]) := by
  simp [formAt, Record.keepAll, h, Mapping.affineForm]

/-- Both factors of a product stand for themselves. -/
private theorem formAt_pair (hq : quadratic.Below n) {t : Pair × Rat} (ht : t ∈ quadratic.toList) :
    formAt (Record.keepAll n : Substitution Rat) t.1.low = (0, [(t.1.low, 1)]) ∧
      formAt (Record.keepAll n : Substitution Rat) t.1.high = (0, [(t.1.high, 1)]) :=
  ⟨formAt_keepAll (Nat.lt_of_le_of_lt t.1.low_le_high (hq t ht)), formAt_keepAll (hq t ht)⟩

private theorem constants_keepAll (hl : linear.Below n) (hq : quadratic.Below n) {a : Rat}
    (ha : a ∈ constants (Record.keepAll n) linear quadratic) : a = 0 := by
  rcases List.mem_append.mp ha with ha | ha
  · obtain ⟨t, ht, rfl⟩ := List.mem_map.mp ha
    rw [formAt_keepAll (hl t ht), mul_zero]
  · obtain ⟨t, ht, rfl⟩ := List.mem_map.mp ha
    rw [(formAt_pair hq ht).1, mul_zero, zero_mul]

/-- The terms of degree one stay, and those that come from products are zero. -/
private theorem ofList_linearTerms_keepAll (hl : linear.Below n) (hq : quadratic.Below n) :
    Terms.ofList (linearTerms (Record.keepAll n) linear quadratic) = linear := by
  have hlinear : linear.toList.flatMap (fun t =>
      (formAt (Record.keepAll n) t.1).2.map fun u => (u.1, t.2 * u.2)) = linear.toList := by
    rw [List.flatMap_congr fun t ht => by rw [formAt_keepAll (hl t ht)]]
    simp
  have hcross : ∀ m : Nat → Rat, ((quadratic.toList.flatMap fun t =>
      crossTerms (Record.keepAll n) t.1 t.2).map fun u => u.2 * m u.1).sum = 0 := fun m => by
    refine List.sum_eq_zero fun a ha => ?_
    obtain ⟨u, hu, rfl⟩ := List.mem_map.mp ha
    obtain ⟨t, ht, hu⟩ := List.mem_flatMap.mp hu
    obtain ⟨hlow, hhigh⟩ := formAt_pair hq ht
    simp only [crossTerms, hlow, hhigh, List.map_cons, List.map_nil, List.cons_append,
      List.nil_append, List.mem_cons, List.not_mem_nil, or_false] at hu
    rcases hu with rfl | rfl <;> simp
  -- the terms from products are collected as well, so it is values that are compared
  refine Terms.ext_of_value fun m => ?_
  rw [Terms.value_ofList, linearTerms, hlinear, List.map_append, List.sum_append, hcross, add_zero]
  rfl

private theorem ofProducts_products_keepAll (hq : quadratic.Below n) :
    Quadratic.ofProducts (products (Record.keepAll n) quadratic) = quadratic := by
  have hproducts : products (Record.keepAll n) quadratic =
      quadratic.toList.map fun t => (t.1.low, t.1.high, t.2) := by
    rw [products, List.map_eq_flatMap]
    refine List.flatMap_congr fun t ht => ?_
    simp [(formAt_pair hq ht).1, (formAt_pair hq ht).2]
  rw [hproducts, Quadratic.ofProducts_toList]

private theorem expand_keepAll (hl : linear.Below n) (hq : quadratic.Below n) :
    expand (Record.keepAll n) linear quadratic = ⟨0, linear, quadratic⟩ := by
  rw [expand, ← List.sum_eq_foldl, List.sum_eq_zero fun _ ha => constants_keepAll hl hq ha,
    ofList_linearTerms_keepAll hl hq, ofProducts_products_keepAll hq]

/-- Substituting the first variables for themselves keeps objectives over them. -/
theorem objective_keepAll {o : Objective Rat} (h : o.polynomial.Below n) :
    objective (Record.keepAll n) o = o := by
  rw [objective, expand_keepAll h.1 h.2, add_zero]

/-- Substituting the first variables for themselves keeps constraints over them. -/
theorem constraint_keepAll {c : Constraint Rat} (h : c.Below n) :
    constraint (Record.keepAll n) c = c := by
  rw [constraint, expand_keepAll h.1 h.2, sub_zero]

end Substitution

/-! ### Stages that have nothing to do -/

namespace Problem

variable {p q : Problem Rat}

theorem withoutShapes_of_unconstrained (h : q.constraints = []) (factor : Rat) :
    q.withoutShapes factor = q := by
  rw [withoutShapes, withShapePenalties, genericConstraints, h]
  cases q
  simp_all

theorem withoutEqualities_of_unconstrained (h : q.constraints = []) (factor : Rat) :
    q.withoutEqualities factor = q := by
  rw [withoutEqualities, withSquaredDeviations, h]
  cases q
  simp_all

/-- Without constraints there are no slack variables to add. -/
theorem addSlacks_of_unconstrained (hq : q.WellFormed) (h : q.constraints = []) :
    q.addSlacks = .ok (q, Record.identity .inequalityToEquality q.size) := by
  have hobjective : q.variablesOnly.setObjective q.objective = .ok q := by
    refine setObjective_eq_ok_iff.mpr ⟨hq.objective_below, ?_⟩
    rw [variablesOnly, ← h]
  simp only [addSlacks, hobjective, ofBuilding, ok_bind, h, List.foldlM_nil, pure_bind]
  rfl

private theorem eq_binary_of_isBinary {v : Variable} (h : v.isBinary = true) :
    v.domain = .binary := by
  rw [Variable.isBinary] at h
  cases hdomain : v.domain with
  | binary => rfl
  | integer lower upper => simp [hdomain, Domain.isBinary] at h

/-- Binary variables are added again as they are. -/
private theorem foldlM_addBinarized_of_binary (hp : p.WellFormed)
    (hbinary : ∀ v ∈ p.vars, v.isBinary = true) (before after : List Variable)
    (h : p.vars = before ++ after) :
    after.foldlM addBinarized
        ((⟨p.name, before, Objective.zero, []⟩ : Problem Rat), Record.keepAll before.length) =
      .ok ((⟨p.name, p.vars, Objective.zero, []⟩ : Problem Rat), Record.keepAll p.size) := by
  -- `before` has been added so far, each variable at the place that it has in `p`
  induction after generalizing before with
  | nil =>
    rw [List.append_nil] at h
    simp only [List.foldlM_nil, ← h]
    rfl
  | cons v after ih =>
    have hdomain : v.domain = .binary := eq_binary_of_isBinary (hbinary v (by simp [h]))
    have hadd := hp.addVariable_eq h Objective.zero
    have hkeep : (Record.keepAll (before ++ [v]).length : Substitution Rat) =
        Record.keepAll before.length ++ [.identity before.length] := by
      simp [Record.keepAll, List.range_succ]
    rw [hdomain] at hadd
    have hstep : addBinarized
        ((⟨p.name, before, Objective.zero, []⟩ : Problem Rat), Record.keepAll before.length) v =
          .ok ((⟨p.name, before ++ [v], Objective.zero, []⟩ : Problem Rat),
            Record.keepAll (before ++ [v]).length) := by
      simp only [addBinarized, hdomain, hadd, ofBuilding, ok_bind, hkeep]
      rfl
    rw [List.foldlM_cons, hstep, ok_bind]
    exact ih (before ++ [v]) (by simpa using h)

/-- **Binary variables stay.** The stage for bits leaves a problem as it is when all its variables
are binary. -/
theorem binarize_of_binary (hp : p.WellFormed) (hbinary : ∀ v ∈ p.vars, v.isBinary = true) :
    p.binarize = .ok (p, Record.identity .integerToBinary p.size) := by
  have hrun := foldlM_addBinarized_of_binary hp hbinary [] p.vars rfl
  have hobjective : (⟨p.name, p.vars, Objective.zero, []⟩ : Problem Rat).setObjective
      (Substitution.objective (Record.keepAll p.size) p.objective) =
        .ok ⟨p.name, p.vars, p.objective, []⟩ := by
    rw [Substitution.objective_keepAll hp.objective_below]
    exact setObjective_eq_ok_iff.mpr ⟨hp.objective_below, rfl⟩
  have hconstraints : (⟨p.name, p.vars, p.objective, []⟩ : Problem Rat).addConstraints
      (p.constraints.map (Substitution.constraint (Record.keepAll p.size))) = .ok p := by
    have hkeep : p.constraints.map (Substitution.constraint (Record.keepAll p.size)) =
        p.constraints :=
      (List.map_congr_left fun c hc =>
        Substitution.constraint_keepAll (hp.constraint_below c hc)).trans (List.map_id _)
    rw [hkeep]
    exact (addConstraints_eq_ok_iff hp.constraint_named (by simp)).mpr
      ⟨hp.constraint_below, by simpa using hp.constraintNames_nodup, by simp⟩
  rw [binarize]
  refine (congrArg (· >>= _) hrun).trans ?_
  simp only [ok_bind, hobjective, hconstraints, ofBuilding]
  rfl

/-! ### The form of the results -/

/-- A problem in the form in which the standard pipeline states problems: what a solver for
quadratic unconstrained binary minimization accepts. -/
structure QuboMinimization (q : Problem Rat) : Prop where
  /-- It was built from declared variables, an objective and constraints. -/
  built : q.Built
  /-- There are no constraints. -/
  constraints_eq : q.constraints = []
  /-- All variables are binary. -/
  binary : ∀ v ∈ q.vars, v.isBinary = true
  /-- The objective is to be minimized. -/
  sense_eq : q.objective.sense = .minimize

namespace QuboMinimization

variable {given : Option Rat}

theorem isQubo_eq (h : q.QuboMinimization) : q.isQubo = true := by
  simpa [isQubo, h.constraints_eq] using h.binary

/-- Each stage of the pipeline leaves a problem of its form as it is. -/
private theorem apply_eq (h : q.QuboMinimization) (hvalid : ∀ f, given = some f → 0 < f) :
    ∀ s ∈ quboStages given, s.apply q = .ok (q, Record.identity s.kind q.size) := by
  have hwf := h.built.wellFormed
  obtain ⟨factor, hfactor⟩ := penaltyFactor_isOk (p := q) hvalid
  have hsame : q.objective.towards .minimize = q.objective := if_pos h.sense_eq
  simp only [quboStages, List.forall_mem_cons, List.not_mem_nil, false_implies, implies_true,
    and_true, Stage.apply, Stage.kind]
  refine ⟨?_, addSlacks_of_unconstrained hwf h.constraints_eq, binarize_of_binary hwf h.binary, ?_,
    ?_⟩
  · rw [foldShapes_eq hwf hfactor, withoutShapes_of_unconstrained h.constraints_eq]
  · rw [foldEqualities_eq hwf hfactor (by simp [h.constraints_eq]),
      withoutEqualities_of_unconstrained h.constraints_eq]
  · rw [orient_eq hwf, hsame, h.sense_eq]
    rfl

end QuboMinimization

end Problem

/-! ### Runs that change nothing -/

section Runs

variable {α : Type} [Scalar α] {q : Problem α} {stages : List (Stage α)}

/-- Stages that leave a problem as it is leave it as it is in a run, too. -/
theorem runStages_of_unchanged {record : Stage α → Record α}
    (h : ∀ s ∈ stages, s.apply q = .ok (q, record s)) :
    runStages q stages = .ok ⟨q, stages.map record⟩ := by
  induction stages with
  | nil => rfl
  | cons s stages ih =>
    obtain ⟨hs, hstages⟩ := List.forall_mem_cons.mp h
    simp only [runStages, hs, ih hstages, ok_bind]
    rfl

end Runs

/-! ### The standard pipeline -/

/-- A conversion that leaves a problem as it is: it takes vectors over the problem and objective
values back to themselves. -/
structure Conversion.Leaves (c : Conversion Rat) (q : Problem Rat) : Prop where
  /-- The result is the problem. -/
  problem_eq : c.problem = q
  /-- Vectors over the problem are taken back to themselves. -/
  interpret_eq : ∀ t : List Rat, t.length = q.size → c.interpret t = .ok t
  /-- Objective values are taken back to themselves. -/
  interpretObjective_eq : ∀ value, c.interpretObjective value = value

section Pipeline

variable {p q : Problem Rat} {given : Option Rat} {c : Conversion Rat}

/-- **The pipeline on a problem of its own form** changes nothing, and its records keep all
variables in their places. -/
theorem Problem.QuboMinimization.convert_eq (h : q.QuboMinimization)
    (hvalid : ∀ f, given = some f → 0 < f) :
    convert q (quboStages given) =
      .ok ⟨q, (quboStages given).map fun s => Record.identity s.kind q.size⟩ := by
  have hfactors : (quboStages given).forM Stage.validate = .ok () := by
    rw [forM_validate_qubo]
    cases given with
    | none => rfl
    | some f =>
      simp only [Problem.validateFactor_eq_ok_iff.mpr ⟨hvalid f rfl, rfl⟩]
      rfl
  rw [convert, hfactors, ok_bind, runStages_of_unchanged (h.apply_eq hvalid)]

/-- Such a conversion takes everything back to itself. -/
theorem Problem.QuboMinimization.leaves (h : q.QuboMinimization)
    (hvalid : ∀ f, given = some f → 0 < f) :
    ∃ c, convert q (quboStages given) = .ok c ∧ c.Leaves q := by
  refine ⟨_, h.convert_eq hvalid, rfl, fun t ht => ?_, fun value => ?_⟩
  · refine Record.interpretAll_of_inPlace fun r hr => ?_
    obtain ⟨s, -, rfl⟩ := List.mem_map.mp hr
    exact ht ▸ ⟨rfl, rfl, rfl⟩
  · refine Record.interpretObjectiveAll_eq (fun r hr => ?_) value
    obtain ⟨s, -, rfl⟩ := List.mem_map.mp hr
    rfl

/-- **The form of the results** of the pipeline. -/
theorem quboMinimization_of_convert (hp : p.WellFormed) (h : convert p (quboStages given) = .ok c) :
    c.problem.QuboMinimization := by
  obtain ⟨f, g, q, miss, -, -, -, -, hform⟩ := quboForm_of_convert hp h
  obtain ⟨hconstraints, hsense⟩ := unconstrained_of_convert hp h
  exact ⟨Problem.built_iff_wellFormed.mpr hform.wellFormed, hconstraints, hform.binary, hsense⟩

/-- A conversion by the pipeline was given no factor or a positive one. -/
private theorem factor_pos_of_convert (hp : p.WellFormed)
    (h : convert p (quboStages given) = .ok c) : ∀ f, given = some f → 0 < f := by
  obtain ⟨f, -, -, -, hf, -⟩ := quboForm_of_convert hp h
  rintro f' rfl
  obtain ⟨h, -⟩ | ⟨h, hpos⟩ := Problem.penaltyFactor_eq_ok_iff.mp hf
  · contradiction
  · exact Option.some.inj h ▸ hpos

/-- **The standard pipeline is idempotent.** It leaves every minimization over binary variables
without constraints as it is, whether the penalty factor is estimated or given, and every problem
that it leaves is of this form. So a second run changes nothing. -/
theorem qubo_idempotent :
    (∀ (q : Problem Rat) (given : Option Rat), q.QuboMinimization →
      (∀ f, given = some f → 0 < f) →
        ∃ c, convert q (quboStages given) = .ok c ∧ c.Leaves q) ∧
    ∀ (p : Problem Rat) (given : Option Rat) (c : Conversion Rat), p.Built →
      convert p (quboStages given) = .ok c →
        c.problem.QuboMinimization ∧ c.problem.isQubo = true ∧
          ∃ d, convert c.problem (quboStages given) = .ok d ∧ d.Leaves c.problem := by
  refine ⟨fun q given hq hvalid => hq.leaves hvalid, fun p given c hp h => ?_⟩
  have hq := quboMinimization_of_convert hp.wellFormed h
  exact ⟨hq, hq.isQubo_eq, hq.leaves (factor_pos_of_convert hp.wellFormed h)⟩

end Pipeline

/-- Minimize `1 + 2·x - y + 3·x·x - x·y` for binary `x` and `y`. -/
def coupling : Problem Rat where
  name := "coupling"
  vars := [⟨"x", .binary, 0⟩, ⟨"y", .binary, 1⟩]
  objective := ⟨.minimize, ⟨1, Terms.ofList [(0, 2), (1, -1)],
    Quadratic.ofProducts [(0, 0, 3), (1, 0, -1)]⟩⟩
  constraints := []

/-- The coupling problem is left as it is with a given factor, and so is what the pipeline makes of
the rationing problem with an estimated one. -/
theorem coupling_unchanged :
    (∃ c, convert coupling (quboStages (some 3)) = .ok c ∧ c.Leaves coupling) ∧
      ∃ c, convert rationing (quboStages none) = .ok c ∧ c.problem.QuboMinimization ∧
        c.problem.isQubo = true ∧
          ∃ d, convert c.problem (quboStages none) = .ok d ∧ d.Leaves c.problem := by
  have hcoupling : coupling.QuboMinimization :=
    ⟨Problem.built_iff_assemble_eq.mpr rfl, rfl, by decide, rfl⟩
  have hok : (convert rationing (quboStages none)).isOk = true := by decide +kernel
  obtain ⟨c, hc⟩ := isOk_iff.mp hok
  refine ⟨qubo_idempotent.1 coupling (some 3) hcoupling ?_, c, hc,
    qubo_idempotent.2 rationing none c rationing_built hc⟩
  rintro f ⟨⟩
  norm_num

end QuboReduction

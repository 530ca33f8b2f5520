import QuboReduction.Proofs.Binarization
import QuboReduction.Proofs.Direction
import QuboReduction.Proofs.PenaltyStages
import QuboReduction.Proofs.Tightening

/-!
# What the standard pipeline computes

The standard pipeline leaves a problem over binary variables without constraints. Each vector of
zeros and ones stands for an admissible vector of the source, and its value is the cost of that
vector, plus the cost of the shapes that it breaks, plus the squared deviations of the equalities
that the other constraints have become, the last two times their penalty factors.

## Main definitions

* `QuboReduction.QuboForm` — the result of the pipeline in terms of the source.

## Main results

* `QuboReduction.quboForm_of_convert` — what the pipeline computes.
* `QuboReduction.unconstrained_of_convert` — what it leaves has no constraints.
-/

namespace QuboReduction

namespace Problem

variable {p q : Problem Rat} {x : Nat → Rat}

/-! ### Deviations -/

/-- Where the sides of all constraints differ by integers, the deviation is an integer. -/
theorem isInteger_deviation (h : ∀ c ∈ p.constraints, IsInteger (c.evaluate x - c.rhs)) :
    IsInteger (p.deviation x) :=
  IsInteger.sum fun a ha => by
    obtain ⟨c, hc, rfl⟩ := List.mem_map.mp ha
    rw [pow_two]
    exact (h c hc).mul (h c hc)

/-- Substituting bits keeps deviations. -/
theorem BinaryForm.deviation_eq {r : Record Rat} (h : p.BinaryForm q r) (t : List Rat) :
    q.deviation (valueAt t) = p.deviation (valueAt (r.back t)) := by
  rw [deviation, h.constraints_eq, List.map_map, deviation]
  congr 1
  refine List.map_congr_left fun c _ => ?_
  rw [Function.comp_apply, Substitution.evaluate_constraint]
  rfl

end Problem

/-! ### The form of the result -/

/-- The result of the pipeline in terms of the source: the penalty factors of the two penalty stages
are `f` and `g`, and `miss` tells how far the equalities that are folded last are from holding. -/
structure QuboForm (p : Problem Rat) (c : Conversion Rat) (f g : Rat) (miss : List Rat → Rat) :
    Prop where
  /-- The result is well-formed. -/
  wellFormed : c.problem.WellFormed
  /-- All its variables are binary. -/
  binary : ∀ v ∈ c.problem.vars, v.isBinary = true
  /-- The records lead from the variables of the source to those of the result. -/
  linked : Record.Linked p.size c.records c.problem.size
  /-- Objective values of the result are costs of the source. -/
  interpretObjective_eq : ∀ value, c.interpretObjective value = p.objective.sense.sign * value
  /-- Each vector stands for an admissible vector. -/
  admissible : ∀ t, c.problem.Admissible t → p.Admissible (Record.backAll c.records t)
  /-- The value of a vector is a cost with penalties. -/
  value_eq : ∀ t, c.problem.Admissible t →
    c.problem.value t = p.cost (Record.backAll c.records t) +
      f * p.shapeCost (valueAt (Record.backAll c.records t)) + g * miss t
  /-- Squares are not negative. -/
  miss_nonneg : ∀ t, 0 ≤ miss t
  /-- If the sides of the equalities of the source differ by integers, then deviations are
  integers. -/
  miss_isInteger : (∀ d ∈ p.constraints, d.relation = .eq → d.Integral) →
    ∀ t, c.problem.Admissible t → IsInteger (miss t)
  /-- Without a deviation the constraints without a shape hold. -/
  sound : ∀ t, c.problem.Admissible t → miss t = 0 →
    ∀ d ∈ p.genericConstraints, d.Holds (valueAt (Record.backAll c.records t))
  /-- A vector that satisfies these constraints is reached without a deviation. -/
  complete : ∀ s, p.Admissible s → (∀ d ∈ p.genericConstraints, d.Holds (valueAt s)) →
    ∃ t, c.problem.Admissible t ∧ miss t = 0 ∧ Record.backAll c.records t = s

/-! ### The stages of the pipeline -/

variable {p : Problem Rat} {given : Option Rat} {c : Conversion Rat}

/-- What the pipeline leaves, given the problem after the bits were introduced, the records up to
there, and the second penalty factor. -/
private def quboResult (p : Problem Rat) (r₂ r₃ : Record Rat) (q₃ : Problem Rat) (g : Rat) :
    Conversion Rat where
  problem := { q₃.withoutEqualities g with
    objective := (q₃.withSquaredDeviations g).towards .minimize }
  records := [Record.identity .linearInequalityToPenalty p.size, r₂, r₃,
    Record.identity .linearEqualityToPenalty q₃.size,
    { Record.identity .maximizeToMinimize q₃.size with
      negatesObjective := !decide ((q₃.withSquaredDeviations g).sense = .minimize) }]

/-- The problems and records between the stages of the pipeline, for a first penalty factor `f`. -/
private structure QuboRun (p : Problem Rat) (f : Rat) (q₂ : Problem Rat) (r₂ : Record Rat)
    (q₃ : Problem Rat) (r₃ : Record Rat) : Prop where
  wellFormed : p.WellFormed
  tightened : (p.withoutShapes f).Tightened p.genericConstraints q₂
  mappings_eq : r₂.mappings = Record.keepAll p.size
  sourceSize_eq : r₂.sourceSize = p.size
  targetSize_eq : r₂.targetSize = q₂.size
  negatesObjective_eq : r₂.negatesObjective = false
  binaryForm : q₂.BinaryForm q₃ r₃
  isLinear : ∀ d ∈ q₃.constraints, d.isLinear = true
  relation_eq : ∀ d ∈ q₃.constraints, d.relation = .eq

/-- The stages of the pipeline one by one. -/
private theorem quboRun_of_runStages (hp : p.WellFormed)
    (h : runStages p (quboStages given) = .ok c) :
    ∃ f g q₂ r₂ q₃ r₃, p.penaltyFactor given = .ok f ∧ q₃.penaltyFactor given = .ok g ∧
      QuboRun p f q₂ r₂ q₃ r₃ ∧ c = quboResult p r₂ r₃ q₃ g := by
  obtain ⟨q₁, r₁, c₁, h₁, hrest₁, rfl⟩ := runStages_cons_ok h
  obtain ⟨q₂, r₂, c₂, h₂, hrest₂, rfl⟩ := runStages_cons_ok hrest₁
  obtain ⟨q₃, r₃, c₃, h₃, hrest₃, rfl⟩ := runStages_cons_ok hrest₂
  obtain ⟨q₄, r₄, c₄, h₄, hrest₄, rfl⟩ := runStages_cons_ok hrest₃
  obtain ⟨q₅, r₅, c₅, h₅, hrest₅, rfl⟩ := runStages_cons_ok hrest₄
  obtain rfl := Except.ok.inj hrest₅
  obtain ⟨f, hf, rfl, rfl⟩ := Problem.foldShapes_ok hp h₁
  obtain ⟨htight, hmappings, hsource, htarget, hnegates⟩ :=
    Problem.addSlacks_ok (hp.withoutShapes f) h₂
  have hbinary := Problem.binarize_ok htight.wellFormed h₃
  obtain ⟨g, hg, hcheck, rfl, rfl⟩ := Problem.foldEqualities_ok hbinary.wellFormed h₄
  have hlinear : ∀ d ∈ q₃.constraints, d.isLinear = true := fun d hd =>
    (Problem.checkEquality_ok (hcheck d hd)).2
  have hq₄ := hbinary.wellFormed.withoutEqualities hlinear g
  have horient := Problem.orient_eq hq₄ .minimize .maximizeToMinimize
  rw [Stage.apply, horient, Except.ok.injEq, Prod.mk.injEq] at h₅
  obtain ⟨rfl, rfl⟩ := h₅
  exact ⟨f, g, q₂, r₂, q₃, r₃, hf, hg, ⟨hp, htight, hmappings, hsource, htarget, hnegates, hbinary,
    hlinear, fun d hd => (Problem.checkEquality_ok (hcheck d hd)).1⟩, rfl⟩

namespace QuboRun

variable {f g : Rat} {q₂ q₃ : Problem Rat} {r₂ r₃ : Record Rat} {t : List Rat}

private theorem sense_eq (h : QuboRun p f q₂ r₂ q₃ r₃) :
    q₃.objective.sense = p.objective.sense := by
  rw [h.binaryForm.sense_eq, h.tightened.objective_eq]
  exact p.sense_withShapePenalties f

private theorem sense_withSquaredDeviations (h : QuboRun p f q₂ r₂ q₃ r₃) (g : Rat) :
    (q₃.withSquaredDeviations g).sense = p.objective.sense :=
  (Problem.sense_withSquaredDeviations h.binaryForm.wellFormed h.isLinear g).trans h.sense_eq

/-- The records of the pipeline drop slack variables from what the bits express. -/
private theorem backAll_eq (h : QuboRun p f q₂ r₂ q₃ r₃) (g : Rat) (ht : q₃.Admissible t) :
    Record.backAll (quboResult p r₂ r₃ q₃ g).records t = (r₃.back t).take p.size := by
  have hlen : (r₃.back t).length = q₂.size := (h.binaryForm.sound t ht).length_eq
  have hle : p.size ≤ q₂.size := h.tightened.size_le
  have htake : ((r₃.back t).take p.size).length = p.size := by
    rw [List.length_take, hlen]
    exact min_eq_left hle
  simp only [quboResult, Record.backAll_cons, Record.backAll_nil]
  rw [Record.back_of_keepAll_eq rfl ht.length_eq,
    Record.back_of_keepAll_eq (r := Record.identity .linearEqualityToPenalty q₃.size) rfl
      ht.length_eq,
    Record.back_of_keepAll h.mappings_eq (hlen ▸ hle), Record.back_of_keepAll_eq rfl htake]

/-- The result has the cost before the last penalties were added, and these penalties. -/
private theorem value_result (h : QuboRun p f q₂ r₂ q₃ r₃) (g : Rat) (t : List Rat) :
    (quboResult p r₂ r₃ q₃ g).problem.value t = q₃.cost t + g * q₃.deviation (valueAt t) := by
  have hcost := (q₃.withSquaredDeviations g).sign_mul_evaluate_towards (x := valueAt t) .minimize
  have hone : (Sense.minimize.sign : Rat) = 1 := rfl
  rw [Objective.sense_towards,
    Problem.evaluate_withSquaredDeviations h.binaryForm.wellFormed h.isLinear,
    h.sense_withSquaredDeviations, h.sense_eq, mul_add, ← mul_assoc, Sense.sign_mul_sign, one_mul,
    hone, one_mul] at hcost
  rw [Problem.cost, h.sense_eq]
  exact hcost

/-- Before the last penalties were added the cost was that of the source, with the penalties of
shapes. -/
private theorem cost_eq (h : QuboRun p f q₂ r₂ q₃ r₃) (t : List Rat) :
    q₃.cost t = p.cost ((r₃.back t).take p.size) +
      f * p.shapeCost (valueAt ((r₃.back t).take p.size)) := by
  have htake : q₂.value (r₃.back t) = (p.withoutShapes f).value ((r₃.back t).take p.size) := by
    rw [Problem.value, h.tightened.objective_eq]
    exact Polynomial.evaluate_congr (h.wellFormed.withoutShapes f).objective_below
      fun i hi => (valueAt_take hi).symm
  rw [Problem.cost, h.binaryForm.value_eq, htake, h.sense_eq]
  refine (congrArg _ (p.evaluate_withShapePenalties f)).trans ?_
  rw [mul_add, ← mul_assoc, Sense.sign_mul_sign, one_mul]
  rfl

private theorem linked (h : QuboRun p f q₂ r₂ q₃ r₃) (g : Rat) :
    Record.Linked p.size (quboResult p r₂ r₃ q₃ g).records
      (quboResult p r₂ r₃ q₃ g).problem.size := by
  refine ⟨rfl, Record.wellShaped_identity _ _, h.sourceSize_eq,
    Record.wellShaped_of_keepAll h.mappings_eq h.sourceSize_eq ?_,
    h.binaryForm.sourceSize_eq.trans h.targetSize_eq.symm, h.binaryForm.wellShaped,
    h.binaryForm.targetSize_eq.symm, Record.wellShaped_identity _ _, rfl,
    Record.wellShaped_of_keepAll rfl rfl le_rfl, rfl⟩
  exact h.tightened.size_le.trans h.targetSize_eq.ge

private theorem interpretObjective_result (h : QuboRun p f q₂ r₂ q₃ r₃) (g value : Rat) :
    (quboResult p r₂ r₃ q₃ g).interpretObjective value = p.objective.sense.sign * value := by
  simp only [Conversion.interpretObjective, Record.interpretObjectiveAll, quboResult,
    List.foldr_cons, List.foldr_nil, Record.interpretObjective, h.negatesObjective_eq,
    h.binaryForm.negatesObjective_eq, Record.identity, h.sense_withSquaredDeviations]
  cases p.objective.sense <;> simp [Sense.sign]

/-- A run of the pipeline leaves a cost with penalties. -/
private theorem quboForm (h : QuboRun p f q₂ r₂ q₃ r₃) (g : Rat) :
    QuboForm p (quboResult p r₂ r₃ q₃ g) f g fun t => q₃.deviation (valueAt t) where
  wellFormed := (h.binaryForm.wellFormed.withoutEqualities h.isLinear g).orient .minimize
  binary := h.binaryForm.binary
  linked := h.linked g
  interpretObjective_eq := h.interpretObjective_result g
  admissible t ht := by
    rw [h.backAll_eq g ht]
    exact h.tightened.admissible_take (h.binaryForm.sound t ht)
  value_eq t ht := by rw [h.backAll_eq g ht, h.value_result, h.cost_eq]
  miss_nonneg t := q₃.deviation_nonneg _
  miss_isInteger hintegral t ht := by
    rw [h.binaryForm.deviation_eq]
    refine Problem.isInteger_deviation fun e he => ?_
    refine h.tightened.integral (fun d hd => hintegral d (List.mem_filter.mp hd).1) e he _
      fun i => ?_
    exact (h.binaryForm.sound t ht).isInteger i
  sound t ht hmiss d hd := by
    have hbelow : d.Below p.size := (h.wellFormed.withoutShapes f).constraint_below d hd
    have hfeasible : q₂.Feasible (r₃.back t) := (h.binaryForm.feasible_iff ht).mp
      ⟨ht, (Problem.deviation_eq_zero_iff h.relation_eq).mp hmiss⟩
    rw [h.backAll_eq g ht, Constraint.holds_take_iff hbelow]
    exact h.tightened.sound _ hfeasible d hd
  complete s hs hholds := by
    obtain ⟨u, hu⟩ := h.tightened.complete s hs hholds
    obtain ⟨t, ht, hback⟩ := h.binaryForm.complete _ hu.1
    rw [← hback] at hu
    refine ⟨t, ht, (Problem.deviation_eq_zero_iff h.relation_eq).mpr
      ((h.binaryForm.feasible_iff ht).mpr hu).2, ?_⟩
    rw [h.backAll_eq g ht, hback, ← hs.length_eq, List.take_left]

end QuboRun

/-- **What the pipeline computes.** The result has the form of a cost with penalties, for factors
that the two penalty stages have accepted; `q` is the problem that the second one works on. -/
theorem quboForm_of_convert (hp : p.WellFormed) (h : convert p (quboStages given) = .ok c) :
    ∃ (f g : Rat) (q : Problem Rat) (miss : List Rat → Rat), p.penaltyFactor given = .ok f ∧
      q.penaltyFactor given = .ok g ∧ q.vars = c.problem.vars ∧
      (∀ t, c.problem.value t = q.cost t + g * miss t) ∧ QuboForm p c f g miss := by
  obtain ⟨f, g, q₂, r₂, q₃, r₃, hf, hg, hrun, rfl⟩ :=
    quboRun_of_runStages hp (runStages_of_convert h)
  exact ⟨f, g, q₃, _, hf, hg, rfl, hrun.value_result g, hrun.quboForm g⟩

/-- The result has no constraints and is to be minimized. -/
theorem unconstrained_of_convert (hp : p.WellFormed) (h : convert p (quboStages given) = .ok c) :
    c.problem.constraints = [] ∧ c.problem.objective.sense = .minimize := by
  obtain ⟨f, g, q₂, r₂, q₃, r₃, -, -, -, rfl⟩ := quboRun_of_runStages hp (runStages_of_convert h)
  exact ⟨rfl, Objective.sense_towards _ _⟩

end QuboReduction

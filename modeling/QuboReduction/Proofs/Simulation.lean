import QuboReduction.Proofs.Binarization
import QuboReduction.Proofs.Direction
import QuboReduction.Proofs.Products
import QuboReduction.Proofs.Tightening

/-!
# Stages that rewrite a problem

The stages that introduce slack variables, bits and variables for products, and those that state the
problem in another direction, do not touch what a problem means: whatever their order is, feasible
vectors of the result are taken back to feasible vectors of the source with the same objective
value, and every feasible vector of the source is reached. This is not so for the stages that turn
constraints into penalties, since the result then has fewer constraints.

## Main definitions

* `QuboReduction.rewritingStages` — the stages that keep constraints as constraints.

## Main results

* `QuboReduction.Stage.refines_of_apply` — a rewriting stage is a refinement.
* `QuboReduction.runStages_refines` — a run of rewriting stages is a refinement.
* `QuboReduction.convert_simulates` — conversions by rewriting stages, in terms of reports on
  feasibility and of objective values.
-/

namespace QuboReduction

/-- The stages that keep constraints as constraints. -/
def rewritingStages : List (Stage Rat) :=
  [.inequalityToEquality, .integerToBinary, .quadraticToLinear, .maximizeToMinimize,
    .minimizeToMaximize]

namespace Problem

variable {p q : Problem Rat} {r : Record Rat}

/-! ### Single stages -/

theorem addSlacks_refines (hp : p.WellFormed) (h : p.addSlacks = .ok (q, r)) : r.Refines p q := by
  obtain ⟨hq, hmappings, hsource, htarget, hnegates⟩ := addSlacks_ok hp h
  refine Record.refines_of_keepAll hq.wellFormed hmappings hsource htarget hnegates hq.size_le
    (fun t ht => ?_) (fun t _ => ?_) fun s hs => hq.complete s hs.1 hs.2
  · refine ⟨hq.admissible_take ht.1, fun c hc => ?_⟩
    rw [Constraint.holds_take_iff (hp.constraint_below c hc)]
    exact hq.sound t ht c hc
  · rw [value, hq.objective_eq]
    exact Polynomial.evaluate_congr hp.objective_below fun i hi => (valueAt_take hi).symm

theorem binarize_refines (hp : p.WellFormed) (h : p.binarize = .ok (q, r)) : r.Refines p q := by
  have hq := binarize_ok hp h
  refine {
    wellFormed := hq.wellFormed
    sourceSize_eq := hq.sourceSize_eq
    targetSize_eq := hq.targetSize_eq
    wellShaped := hq.wellShaped
    sound := fun t ht => (hq.feasible_iff ht.1).mp ht
    value_eq := fun t _ => ?_
    complete := fun s hs => ?_ }
  · rw [Record.interpretObjective, hq.negatesObjective_eq, hq.value_eq]
    rfl
  · obtain ⟨t, ht, rfl⟩ := hq.complete s hs.1
    exact ⟨t, (hq.feasible_iff ht).mpr hs, rfl⟩

theorem orient_refines (hp : p.WellFormed) {target : Sense} {stage : StageKind}
    (h : p.orient target stage = .ok (q, r)) : r.Refines p q := by
  rw [orient_eq hp, Except.ok.injEq, Prod.mk.injEq] at h
  obtain ⟨rfl, rfl⟩ := h
  have hback : ∀ t, p.Admissible t → Record.back { Record.identity stage p.size with
      negatesObjective := !decide (p.objective.sense = target) } t = t := fun t ht =>
    Record.back_of_keepAll_eq rfl ht.length_eq
  refine {
    wellFormed := hp.orient target
    sourceSize_eq := rfl
    targetSize_eq := rfl
    wellShaped := Record.wellShaped_of_keepAll rfl rfl le_rfl
    sound := fun t ht => (hback t ht.1).symm ▸ ht
    value_eq := fun t ht => ?_
    complete := fun s hs => ⟨s, hs, hback s hs.1⟩ }
  rw [hback t ht.1, Record.interpretObjective, value, Objective.evaluate_towards]
  by_cases hsense : p.objective.sense = target
  · simp [hsense, value]
  · simp [hsense, value]

end Problem

/-- A rewriting stage is a refinement. -/
theorem Stage.refines_of_apply {stage : Stage Rat} (hstage : stage ∈ rewritingStages)
    {p q : Problem Rat} {r : Record Rat} (hp : p.WellFormed) (h : stage.apply p = .ok (q, r)) :
    r.Refines p q := by
  simp only [rewritingStages, List.mem_cons, List.not_mem_nil, or_false] at hstage
  rcases hstage with rfl | rfl | rfl | rfl | rfl
  · exact Problem.addSlacks_refines hp h
  · exact Problem.binarize_refines hp h
  · exact Problem.linearize_refines hp h
  · exact Problem.orient_refines hp h
  · exact Problem.orient_refines hp h

/-! ### Runs of stages -/

/-- A run of rewriting stages is a refinement. -/
theorem runStages_refines {stages : List (Stage Rat)} (hstages : ∀ s ∈ stages, s ∈ rewritingStages)
    {p : Problem Rat} {c : Conversion Rat} (hp : p.WellFormed) (h : runStages p stages = .ok c) :
    Record.RefinesAll c.records p c.problem := by
  induction stages generalizing p c with
  | nil =>
    obtain rfl := Except.ok.inj h
    exact .nil hp
  | cons stage stages ih =>
    obtain ⟨hstage, hrest⟩ := List.forall_mem_cons.mp hstages
    obtain ⟨q, r, c', hq, hc, rfl⟩ := runStages_cons_ok h
    have hr := stage.refines_of_apply hstage hp hq
    exact .cons hr (ih hrest hr.wellFormed hc)

theorem Problem.evaluateObjective_eq {p : Problem Rat} {s : List Rat} (hs : p.Feasible s) :
    p.evaluateObjective s = .ok (p.value s) :=
  evaluateObjective_of_length hs.1.length_eq

/-- **Rewriting stages keep the meaning of a problem**, in any order and any number. Without a
tolerance, a vector that is reported feasible after the conversion is taken back to one that is
reported feasible for the source and has the objective value that the conversion tells, and every
vector that is feasible for the source comes from one that is feasible after the conversion. -/
theorem convert_simulates {p : Problem Rat} (hp : p.Built) {stages : List (Stage Rat)}
    (hstages : ∀ s ∈ stages, s ∈ rewritingStages) {c : Conversion Rat}
    (h : convert p stages = .ok c) :
    (∀ t, c.problem.isFeasible t 0 = .ok true →
      ∃ s value, c.interpret t = .ok s ∧ p.isFeasible s 0 = .ok true ∧
        c.problem.evaluateObjective t = .ok value ∧
        p.evaluateObjective s = .ok (c.interpretObjective value)) ∧
    ∀ s, p.isFeasible s 0 = .ok true →
      ∃ t, c.problem.isFeasible t 0 = .ok true ∧ c.interpret t = .ok s := by
  have hrefines := runStages_refines hstages hp.wellFormed (runStages_of_convert h)
  simp only [Problem.isFeasible_zero_iff hp.wellFormed,
    Problem.isFeasible_zero_iff hrefines.wellFormed]
  constructor
  · intro t ht
    refine ⟨Record.backAll c.records t, c.problem.value t,
      hrefines.linked.interpretAll_eq ht.1.length_eq, hrefines.sound t ht,
      Problem.evaluateObjective_eq ht, ?_⟩
    rw [Problem.evaluateObjective_eq (hrefines.sound t ht), ← hrefines.value_eq t ht]
    rfl
  · intro s hs
    obtain ⟨t, ht, rfl⟩ := hrefines.complete s hs
    exact ⟨t, ht, hrefines.linked.interpretAll_eq ht.1.length_eq⟩

/-- Maximize a product of two binary variables plus an integer `n` between -1 and 1, of which the
sum is at most two. -/
def crowding : Problem Rat where
  name := "crowding"
  vars := [⟨"x", .binary, 0⟩, ⟨"y", .binary, 1⟩, ⟨"n", .integer (-1) 1, 2⟩]
  objective := ⟨.maximize, ⟨0, Terms.ofList [(2, 1)], Quadratic.ofProducts [(0, 1, 1)]⟩⟩
  constraints := [.ofLinear "room" (Terms.ofList [(0, 1), (1, 1), (2, 1)]) .le 2]

theorem crowding_built : crowding.Built := Problem.built_iff_assemble_eq.mpr rfl

/-- The crowding problem with a variable for the product, slack variables and bits has a feasible
vector for `[1, 1, 0]`, and its feasible vectors are taken back to feasible ones. -/
theorem crowding_simulated :
    ∃ c, convert crowding [.quadraticToLinear, .inequalityToEquality, .integerToBinary,
        .maximizeToMinimize] = .ok c ∧
      (∀ t, c.problem.isFeasible t 0 = .ok true →
        ∃ s value, c.interpret t = .ok s ∧ crowding.isFeasible s 0 = .ok true ∧
          c.problem.evaluateObjective t = .ok value ∧
          crowding.evaluateObjective s = .ok (c.interpretObjective value)) ∧
      ∃ t, c.problem.isFeasible t 0 = .ok true ∧ c.interpret t = .ok [1, 1, 0] := by
  have hok : (convert crowding [.quadraticToLinear, .inequalityToEquality, .integerToBinary,
      .maximizeToMinimize]).isOk = true := by decide +kernel
  obtain ⟨c, hc⟩ := isOk_iff.mp hok
  have hfeasible : crowding.isFeasible [1, 1, 0] 0 = .ok true :=
    (Problem.isFeasible_zero_iff crowding_built.wellFormed).mpr (by decide +kernel)
  obtain ⟨hsound, hcomplete⟩ := convert_simulates crowding_built (by decide) hc
  exact ⟨c, hc, hsound, hcomplete _ hfeasible⟩

end QuboReduction

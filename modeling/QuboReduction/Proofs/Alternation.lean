import Mathlib.Algebra.Ring.Parity
import QuboReduction.Proofs.Composition
import QuboReduction.Proofs.Reorientation

/-!
# Stating the direction again and again

Stating an objective in the other direction negates every coefficient, none of which becomes zero
on the way, and doing so twice gives back the objective itself. So of any number of statements of
the direction only the last one counts: the problem ends as it was or negated once, according to the
parity of the number of turns, and objective values are taken back by the same parity.

## Main definitions

* `QuboReduction.Objective.Opposes` — what an objective is in the other direction, term by term.
* `QuboReduction.Stage.stating` — the stage that states a direction.
* `QuboReduction.Conversion.Restates` — conversions that state a problem in a direction.

## Main results

* `QuboReduction.Objective.negate_negate` — negating twice.
* `QuboReduction.Record.interpretObjectiveAll_eq_ite` — objective values by parity.
* `QuboReduction.runStages_stating` — a run of statements of the direction.
* `QuboReduction.convert_stating` — what such a conversion comes to.
-/

namespace QuboReduction

/-! ### Negating twice -/

/-- Two objectives that ask for the same in different directions, term by term. -/
structure Objective.Opposes (o q : Objective Rat) : Prop where
  /-- The directions are opposite. -/
  sense_eq : q.sense = o.sense.flip
  /-- The constant is negated. -/
  constant_eq : q.polynomial.constant = -o.polynomial.constant
  /-- The terms of degree one are the same, with negated coefficients. -/
  linear_eq : q.polynomial.linear.toList = o.polynomial.linear.toList.map fun t => (t.1, -t.2)
  /-- The terms of degree two are the same, with negated coefficients. -/
  quadratic_eq :
    q.polynomial.quadratic.toList = o.polynomial.quadratic.toList.map fun t => (t.1, -t.2)

theorem Sense.flip_flip (s : Sense) : s.flip.flip = s := by cases s <;> rfl

/-- Two directions are the same or opposite. -/
theorem Sense.flip_eq_of_ne {s target : Sense} (h : s ≠ target) : s.flip = target := by
  cases s <;> cases target <;> first | rfl | contradiction

/-- There are two directions only. -/
theorem Sense.ne_iff_eq {s t target : Sense} (h : s ≠ t) : t ≠ target ↔ s = target := by
  cases s <;> cases t <;> cases target <;> simp_all

theorem Terms.negate_negate {κ : Type} [Ord κ] (e : Terms κ Rat) :
    (e.scale (-1)).scale (-1) = e := by
  refine ext_toList ?_
  rw [toList_negate, toList_negate, List.map_map]
  refine (List.map_congr_left fun t _ => ?_).trans (List.map_id _)
  rw [Function.comp_apply, mul_neg_one, mul_neg_one, neg_neg]
  rfl

namespace Objective

variable (o : Objective Rat)

theorem opposes_negate : o.Opposes o.negate where
  sense_eq := rfl
  constant_eq := rfl
  linear_eq := by simp only [negate, Polynomial.negate, Terms.toList_negate, mul_neg_one]
  quadratic_eq := by simp only [negate, Polynomial.negate, Terms.toList_negate, mul_neg_one]

/-- **Negating twice** gives the objective again. -/
theorem negate_negate : o.negate.negate = o := by
  simp only [negate, Polynomial.negate, Sense.flip_flip, Terms.negate_negate, neg_neg]

/-- Only the last direction counts. -/
theorem towards_towards (s target : Sense) : (o.towards s).towards target = o.towards target := by
  by_cases hs : o.sense = s
  · have hkept : o.towards s = o := if_pos hs
    rw [hkept]
  · have hturned : o.towards s = o.negate := if_neg hs
    rw [hturned]
    by_cases htarget : o.sense = target
    · -- the objective is turned away from the direction and back again
      have hne : o.negate.sense ≠ target := by
        rw [negate, Sense.flip_eq_of_ne hs, ← htarget]
        exact Ne.symm hs
      rw [towards, if_neg hne, negate_negate, towards, if_pos htarget]
    · have heq : o.negate.sense = target := Sense.flip_eq_of_ne htarget
      rw [towards, if_pos heq, towards, if_neg htarget]

end Objective

theorem Problem.towards_towards (p : Problem Rat) (s target : Sense) :
    (p.towards s).towards target = p.towards target := by
  simp only [towards, Objective.towards_towards]

/-! ### Objective values -/

/-- **Objective values by parity.** Records take an objective value back to itself or to its
negation, according to the number of stages that negated the objective. -/
theorem Record.interpretObjectiveAll_eq_ite (records : List (Record Rat)) (value : Rat) :
    interpretObjectiveAll records value =
      if Even (records.countP Record.negatesObjective) then value else -value := by
  induction records with
  | nil => rfl
  | cons r records ih =>
    rw [interpretObjectiveAll, List.foldr_cons, ← interpretObjectiveAll, ih, interpretObjective,
      List.countP_cons]
    cases r.negatesObjective with
    | false => simp
    | true =>
      simp only [if_true, Nat.even_add_one]
      split_ifs <;> simp_all

/-! ### Stages -/

/-- The stage that states a direction. -/
def Stage.stating {α : Type} : Sense → Stage α
  | .minimize => .maximizeToMinimize
  | .maximize => .minimizeToMaximize

theorem Stage.validate_stating {α : Type} [Scalar α] (target : Sense) :
    (stating target : Stage α).validate = .ok () := by
  cases target <;> rfl

/-! ### Runs -/

section Runs

variable {p : Problem Rat} {c : Conversion Rat} {target : Sense}

/-- A conversion that states a problem in a direction. -/
structure Conversion.Restates (c : Conversion Rat) (p : Problem Rat) (target : Sense) : Prop where
  /-- The result is the problem, stated in the direction. -/
  problem_eq : c.problem = p.towards target
  /-- All variables stay in their places. -/
  inPlace : ∀ r ∈ c.records, r.InPlace p.size
  /-- The objective was turned an even number of times if the problem had the direction before. -/
  even_iff : Even (c.records.countP Record.negatesObjective) ↔ p.objective.sense = target

/-- **One statement of the direction.** -/
theorem Stage.apply_stating (hp : p.WellFormed) (target : Sense) :
    ∃ r, (stating target).apply p = .ok (p.towards target, r) ∧ r.InPlace p.size ∧
      r.negatesObjective = !decide (p.objective.sense = target) := by
  cases target with
  | minimize => exact ⟨_, Problem.orient_eq hp .minimize .maximizeToMinimize, ⟨rfl, rfl, rfl⟩, rfl⟩
  | maximize => exact ⟨_, Problem.orient_eq hp .maximize .minimizeToMaximize, ⟨rfl, rfl, rfl⟩, rfl⟩

/-- **Any number of statements of the direction.** The last one counts; without any the problem
keeps its direction. -/
theorem runStages_stating (hp : p.WellFormed) (targets : List Sense) :
    ∃ c, runStages p (targets.map Stage.stating) = .ok c ∧
      c.Restates p (targets.getLastD p.objective.sense) := by
  induction targets generalizing p with
  | nil =>
    refine ⟨⟨p, []⟩, rfl, ?_, by simp, by simp⟩
    rw [List.getLastD_nil, Problem.towards_of_sense_eq rfl]
  | cons s targets ih =>
    obtain ⟨r, happly, hplace, hnegates⟩ := Stage.apply_stating hp s
    have hsense : (p.towards s).objective.sense = s := p.objective.sense_towards s
    obtain ⟨c, hrun, hc⟩ := ih (p := p.towards s) (hp.orient s)
    have heven := hc.even_iff
    rw [hsense] at hc heven
    refine ⟨⟨c.problem, r :: c.records⟩, ?_, ?_, ?_, ?_⟩
    · simp only [List.map_cons, runStages, happly, ok_bind, hrun]
      rfl
    · rw [List.getLastD_cons]
      exact hc.problem_eq.trans (p.towards_towards s _)
    · exact List.forall_mem_cons.mpr ⟨hplace, hc.inPlace⟩
    · -- a turn changes the parity, and the direction that the other stages start from
      rw [List.getLastD_cons, List.countP_cons, hnegates]
      by_cases hs : p.objective.sense = s
      · simpa only [hs, decide_true, Bool.not_true, Bool.false_eq_true, if_false, Nat.add_zero]
          using heven
      · simp only [hs, decide_false, Bool.not_false, if_true, Nat.even_add_one, heven]
        exact Sense.ne_iff_eq hs

end Runs

/-! ### Conversions -/

/-- **Stating the direction again and again.** For any non-empty list of directions, a conversion by
the stages that state them succeeds. The result has the last direction: it is the problem if that
has this direction, after an even number of turns, and otherwise the problem with every coefficient
of the objective negated, after an odd number of turns. Vectors over the problem are taken back to
themselves, and the objective value of the result at any vector is taken back to that of the
problem. -/
theorem convert_stating {p : Problem Rat} (hp : p.Built) {targets : List Sense}
    (hne : targets ≠ []) :
    ∃ c, convert p (targets.map Stage.stating) = .ok c ∧
      c.problem.objective.sense = targets.getLast hne ∧
      (p.objective.sense = targets.getLast hne →
        c.problem = p ∧ Even (c.records.countP Record.negatesObjective)) ∧
      (p.objective.sense ≠ targets.getLast hne →
        c.problem = { p with objective := c.problem.objective } ∧
          p.objective.Opposes c.problem.objective ∧
          Odd (c.records.countP Record.negatesObjective)) ∧
      (∀ t, t.length = p.size → c.interpret t = .ok t) ∧
      ∀ t, c.interpretObjective <$> c.problem.evaluateObjective t = p.evaluateObjective t := by
  have hvalid : ∀ s ∈ targets.map (Stage.stating (α := Rat)), s.validate = .ok () :=
    List.forall_mem_map.mpr fun target _ => Stage.validate_stating target
  obtain ⟨c, hrun, hc⟩ := runStages_stating hp.wellFormed targets
  have hlast : targets.getLastD p.objective.sense = targets.getLast hne := by
    rw [List.getLastD_eq_getLast?, List.getLast?_eq_some_getLast hne, Option.getD_some]
  rw [hlast] at hc
  have hproblem := hc.problem_eq
  refine ⟨c, (convert_of_valid hvalid).trans hrun, ?_, fun hsense => ?_, fun hsense => ?_,
    fun t ht => ?_, fun t => ?_⟩
  · rw [hproblem]
    exact p.objective.sense_towards _
  · exact ⟨hproblem.trans (Problem.towards_of_sense_eq hsense), hc.even_iff.mpr hsense⟩
  · rw [Problem.towards_of_sense_ne hsense] at hproblem
    refine ⟨by rw [hproblem]; rfl, ?_, ?_⟩
    · rw [hproblem]
      exact p.objective.opposes_negate
    · rw [← Nat.not_even_iff_odd, hc.even_iff]
      exact hsense
  · exact Record.interpretAll_of_inPlace (ht ▸ hc.inPlace)
  · have hvalue : c.interpretObjective ((p.objective.towards (targets.getLast hne)).evaluate
        (valueAt t)) = p.objective.evaluate (valueAt t) := by
      rw [Conversion.interpretObjective, Record.interpretObjectiveAll_eq_ite,
        Objective.evaluate_towards]
      simp only [hc.even_iff]
      split
      · rfl
      · exact neg_neg _
    rw [hproblem]
    simp only [Problem.evaluateObjective, map_bind, map_pure]
    rw [← hvalue]
    rfl

/-- The rationing problem is a maximization. Turned four times, with one stage that has nothing to
do, it is the problem again. -/
theorem rationing_restated :
    ∃ c, convert rationing (([.minimize, .maximize, .maximize, .minimize, .maximize] :
        List Sense).map Stage.stating) = .ok c ∧
      c.problem = rationing ∧ Even (c.records.countP Record.negatesObjective) ∧
      c.interpret [1, 0, 3] = .ok [1, 0, 3] := by
  have hne : ([.minimize, .maximize, .maximize, .minimize, .maximize] : List Sense) ≠ [] := by simp
  obtain ⟨c, hc, -, hsame, -, hvectors, -⟩ := convert_stating rationing_built hne
  exact ⟨c, hc, (hsame rfl).1, (hsame rfl).2, hvectors [1, 0, 3] rfl⟩

end QuboReduction

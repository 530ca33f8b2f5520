import QuboReduction.Proofs.Simulation

/-!
# Values of slack variables

The equality that an inequality becomes leaves no choice for its slack variable: the variable is the
gap of the inequality, which depends on the variables of the source only. So the feasible vectors
after the stage for slack variables correspond one to one to the feasible vectors before it, and
rounding, dropped constraints and the bounds of slack variables neither lose nor gain any.

## Main results

* `QuboReduction.Problem.DeterminedBy.step` — one more constraint.
* `QuboReduction.Problem.addSlacks_bijOn` — the correspondence.
-/

namespace QuboReduction

namespace Problem

variable {p q q' : Problem Rat} {c d : Constraint Rat} {r : Record Rat} {n : Nat}

/-! ### One more constraint -/

/-- A constraint leaves fewer feasible vectors. -/
private theorem DeterminedBy.addConstraint (h : q.DeterminedBy n)
    (hq : q.addConstraint d = .ok q') : q'.DeterminedBy n := fun t u ht hu =>
  h t u ((feasible_addConstraint_iff hq).mp ht).1 ((feasible_addConstraint_iff hq).mp hu).1

/-- The slack variable of a feasible vector is the gap of its constraint at the other entries. -/
private theorem gap_of_feasible (hwellFormed : q.WellFormed) (hbelow : c.Below q.size)
    {name : String} {domain : Domain} {upper : Int}
    (hq : (q.declare name domain).addConstraint (c.withSlack (c.slackOf upper) q.size) = .ok q')
    {t : List Rat} (ht : q'.Feasible t) :
    ∃ s, q.Feasible s ∧ t = s ++ [c.gap (valueAt s)] := by
  obtain ⟨ht, hslack⟩ := (feasible_addConstraint_iff hq).mp ht
  obtain ⟨s, a, rfl, hs, -⟩ := (feasible_declare_iff hwellFormed).mp ht
  have hindex : valueAt (s ++ [a]) q.size = a := by
    rw [← hs.1.length_eq, valueAt_append_right le_rfl]
    simp [valueAt]
  rw [Constraint.holds_withSlack_iff, hindex,
    Constraint.gap_append (hbelow.mono hs.1.length_eq.ge)] at hslack
  exact ⟨s, hs, by rw [hslack]⟩

/-- **One more constraint.** If the first entries determine feasible vectors before a step of the
stage, they do so after it. -/
theorem DeterminedBy.step (h : q.DeterminedBy p.size) (hp : p.WellFormed)
    (hwellFormed : q.WellFormed) (hsize : p.size ≤ q.size) (hc : c ∈ p.constraints)
    {slacks slacks' : List Nat} (hstep : p.addTightened (q, slacks) c = .ok (q', slacks')) :
    q'.DeterminedBy p.size := by
  rcases addTightened_ok hstep with ⟨-, hq, -⟩ | ⟨-, -, rfl, -⟩ | ⟨-, slack, hslack, hcase⟩
  · exact h.addConstraint hq
  · exact h
  · obtain ⟨-, upper, -, -, rfl⟩ := slackFor_some hslack
    rcases hcase with ⟨-, hq, -⟩ | ⟨-, q₁, index, hvariable, hq, -⟩
    · exact h.addConstraint hq
    · obtain ⟨-, -, rfl, rfl⟩ := addVariable_eq_ok_iff.mp hvariable
      have hbelow : c.Below q.size := (hp.constraint_below c hc).mono hsize
      intro t u ht hu htake
      obtain ⟨s, hs, rfl⟩ := gap_of_feasible hwellFormed hbelow hq ht
      obtain ⟨v, hv, rfl⟩ := gap_of_feasible hwellFormed hbelow hq hu
      rw [List.take_append_of_le_length (hsize.trans hs.1.length_eq.ge),
        List.take_append_of_le_length (hsize.trans hv.1.length_eq.ge)] at htake
      rw [h s v hs hv htake]

/-! ### The stage -/

/-- After the stage the variables of the source determine feasible vectors. -/
theorem addSlacks_determinedBy (hp : p.WellFormed) (h : p.addSlacks = .ok (q, r)) :
    q.DeterminedBy p.size := by
  obtain ⟨q₀, slacks, hobjective, hrun, -⟩ := addSlacks_steps h
  have hstart : q₀.DeterminedBy p.size := by
    have hvars : q₀.size = p.size := by
      obtain ⟨-, rfl⟩ := setObjective_eq_ok_iff.mp hobjective
      rfl
    intro t u ht hu htake
    rwa [List.take_of_length_le (hvars ▸ ht.1.length_eq.le),
      List.take_of_length_le (hvars ▸ hu.1.length_eq.le)] at htake
  refine (foldlM_ok_of_step (motive := fun done state =>
    p.Tightened done state.1 ∧ state.1.DeterminedBy p.size)
    ⟨tightened_start hp hobjective, hstart⟩ ?_ hrun).2
  rintro before c after state state' hsplit ⟨htightened, hdetermined⟩ hstep
  have hc : c ∈ p.constraints := by simp [hsplit]
  exact ⟨tightened_step hp hsplit htightened hstep,
    hdetermined.step hp htightened.wellFormed htightened.size_le hc hstep⟩

/-- **Slack variables add nothing and lose nothing.** The record of the stage for slack variables
takes the feasible vectors of the result back to those of the source, one to one, and objective
values stay. -/
theorem addSlacks_bijOn (hp : p.Built) (h : p.addSlacks = .ok (q, r)) :
    Set.BijOn r.back {t | q.isFeasible t 0 = .ok true} {s | p.isFeasible s 0 = .ok true} ∧
      ∀ t, q.isFeasible t 0 = .ok true →
        (∀ position, r.interpret position t = .ok (r.back t)) ∧
          ∃ value, q.evaluateObjective t = .ok value ∧
            p.evaluateObjective (r.back t) = .ok value := by
  obtain ⟨hq, hmappings, -, -, hnegates⟩ := addSlacks_ok hp.wellFormed h
  exact (addSlacks_refines hp.wellFormed h).bijOn hp.wellFormed hmappings hnegates hq.size_le
    (addSlacks_determinedBy hp.wellFormed h)

end Problem

/-- Maximize `3x + 2n² + 1` for binary `x` and `y` and an integer `n` from -3 to 2. Two of the
inequalities need a slack variable, one of them after a division by two and the other one for a
square; one can never be violated, one can only be met with equality, and there is an equality. -/
def stacking : Problem Rat where
  name := "stacking"
  vars := [⟨"x", .binary, 0⟩, ⟨"y", .binary, 1⟩, ⟨"n", .integer (-3) 2, 2⟩]
  objective := ⟨.maximize, ⟨1, Terms.ofList [(0, 3)], Quadratic.ofProducts [(2, 2, 2)]⟩⟩
  constraints := [.ofLinear "even" (Terms.ofList [(0, 2), (1, 2), (2, 4)]) .le 5,
    ⟨"square", Terms.empty, Quadratic.ofProducts [(2, 2, 1), (0, 2, -1)], .ge, 1⟩,
    .ofLinear "loose" (Terms.ofList [(0, 1), (1, 1)]) .le 5,
    .ofLinear "both" (Terms.ofList [(0, 1), (1, 1)]) .ge 2,
    .ofLinear "same" (Terms.ofList [(0, 1), (1, -1)]) .eq 0]

theorem stacking_built : stacking.Built := Problem.built_iff_assemble_eq.mpr rfl

/-- The stacking problem has a feasible vector, and there is just one for it after the stage. -/
theorem stacking_bijOn :
    ∃ q r, stacking.addSlacks = .ok (q, r) ∧
      Set.BijOn r.back {t | q.isFeasible t 0 = .ok true} {s | stacking.isFeasible s 0 = .ok true} ∧
      ∃! t, q.isFeasible t 0 = .ok true ∧ r.interpret 0 t = .ok [1, 1, -2] := by
  have hok : stacking.addSlacks.isOk = true := by decide +kernel
  obtain ⟨⟨q, r⟩, h⟩ := isOk_iff.mp hok
  have hfeasible : stacking.isFeasible [1, 1, -2] 0 = .ok true :=
    (Problem.isFeasible_zero_iff stacking_built.wellFormed).mpr (by decide +kernel)
  obtain ⟨hbij, hrecord⟩ := Problem.addSlacks_bijOn stacking_built h
  obtain ⟨t, ht, hback⟩ := hbij.surjOn hfeasible
  refine ⟨q, r, h, hbij, t, ⟨ht, hback ▸ (hrecord t ht).1 0⟩, ?_⟩
  rintro u ⟨hu, hinterpret⟩
  rw [(hrecord u hu).1 0, Except.ok.injEq] at hinterpret
  exact hbij.injOn hu ht (hinterpret.trans hback.symm)

end QuboReduction

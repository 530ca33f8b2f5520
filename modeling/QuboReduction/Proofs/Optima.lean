import Mathlib.Data.Finite.Prod
import Mathlib.Data.Int.Interval
import Mathlib.Data.Set.Finite.Lemmas
import QuboReduction.Proofs.Assignment

/-!
# Optima exist

Ranges are finite, so a problem has finitely many admissible vectors: where one is feasible, one is
optimal, and over binary variables some vector minimizes the objective.

## Main results

* `QuboReduction.Problem.finite_admissible` — there are finitely many admissible vectors.
* `QuboReduction.Problem.exists_optimal` — a feasible problem has an optimal vector.
* `QuboReduction.Problem.exists_minimizer` — a problem over binary variables has a minimizer.
-/

namespace QuboReduction

theorem Domain.finite_admits (d : Domain) : {a : Rat | d.Admits a}.Finite := by
  refine ((Set.finite_Icc d.lower d.upper).image fun n : Int => (n : Rat)).subset ?_
  rintro a ⟨n, rfl, hlower, hupper⟩
  exact ⟨n, ⟨hlower, hupper⟩, rfl⟩

private theorem finite_forall₂ (vars : List Variable) :
    {s : List Rat | List.Forall₂ (fun v a => v.domain.Admits a) vars s}.Finite := by
  induction vars with
  | nil =>
    refine (Set.finite_singleton []).subset fun s hs => ?_
    exact List.forall₂_nil_left_iff.mp hs
  | cons v vars ih =>
    refine (Set.Finite.image2 List.cons v.domain.finite_admits ih).subset fun s hs => ?_
    obtain ⟨a, u, ha, hu, rfl⟩ := List.forall₂_cons_left_iff.mp hs
    exact ⟨a, ha, u, hu, rfl⟩

namespace Problem

variable {p : Problem Rat} {t : List Rat}

theorem finite_admissible (p : Problem Rat) : {s | p.Admissible s}.Finite := finite_forall₂ p.vars

/-- **Optima exist.** A problem with a feasible vector has an optimal one. -/
theorem exists_optimal (h : ∃ s, p.Feasible s) : ∃ s, p.Optimal s := by
  obtain ⟨s, hs, hmin⟩ := Set.exists_min_image {s | p.Feasible s} p.cost
    (p.finite_admissible.subset fun s hs => hs.1) h
  exact ⟨s, optimal_iff.mpr ⟨hs, hmin⟩⟩

/-- Over binary variables the vectors of zeros and ones are the admissible ones. -/
theorem minimizes_iff (hbinary : ∀ v ∈ p.vars, v.isBinary = true) :
    p.Minimizes t ↔ p.Admissible t ∧ ∀ u, p.Admissible u → p.value t ≤ p.value u := by
  simp only [Minimizes, admissible_iff_isBits hbinary, and_imp]

theorem exists_minimizer (hbinary : ∀ v ∈ p.vars, v.isBinary = true) : ∃ t, p.Minimizes t := by
  obtain ⟨t, ht, hmin⟩ := Set.exists_min_image {s | p.Admissible s} p.value p.finite_admissible
    ⟨List.replicate p.size 0, (admissible_iff_isBits hbinary).mpr ⟨by simp, by simp [IsBits]⟩⟩
  exact ⟨t, (minimizes_iff hbinary).mpr ⟨ht, hmin⟩⟩

end Problem

end QuboReduction

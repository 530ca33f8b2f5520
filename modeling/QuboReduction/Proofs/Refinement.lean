import Mathlib.Data.Set.Function
import QuboReduction.Proofs.Record

/-!
# Refinement of problems

A problem refines another one through a record when the record takes feasible vectors back to
feasible vectors with the same objective value, and every feasible vector is reached in this way.
Refinements compose, so a list of records is as good as each of its members.

## Main definitions

* `QuboReduction.Record.Refines` — refinement through one record.
* `QuboReduction.Record.RefinesAll` — refinement through a list of records.
* `QuboReduction.Problem.DeterminedBy` — feasible vectors are determined by their first entries.

## Main results

* `QuboReduction.Record.refines_of_keepAll` — refinement by problems with more variables.
* `QuboReduction.Record.Refines.bijOn` — refinement one to one.
* `QuboReduction.Record.RefinesAll.nil`, `QuboReduction.Record.RefinesAll.cons` — composition.
-/

namespace QuboReduction

namespace Record

variable {p q o : Problem Rat} {r : Record Rat} {records : List (Record Rat)}

/-- A problem refines another one through a record. -/
structure Refines (r : Record Rat) (p q : Problem Rat) : Prop where
  /-- The refined problem is well-formed. -/
  wellFormed : q.WellFormed
  /-- The record starts from the variables of the one problem. -/
  sourceSize_eq : r.sourceSize = p.size
  /-- The record ends at the variables of the other problem. -/
  targetSize_eq : r.targetSize = q.size
  /-- The mappings of the record fit to its sizes. -/
  wellShaped : r.WellShaped
  /-- Feasible vectors are taken back to feasible vectors. -/
  sound : ∀ t, q.Feasible t → p.Feasible (r.back t)
  /-- Objective values are taken back to objective values. -/
  value_eq : ∀ t, q.Feasible t → r.interpretObjective (q.value t) = p.value (r.back t)
  /-- Every feasible vector is reached. -/
  complete : ∀ s, p.Feasible s → ∃ t, q.Feasible t ∧ r.back t = s

/-- A problem refines another one through records, one after another. -/
structure RefinesAll (records : List (Record Rat)) (p q : Problem Rat) : Prop where
  /-- The records fit to each other and to the problems. -/
  linked : Linked p.size records q.size
  /-- The refined problem is well-formed. -/
  wellFormed : q.WellFormed
  /-- Feasible vectors are taken back to feasible vectors. -/
  sound : ∀ t, q.Feasible t → p.Feasible (backAll records t)
  /-- Objective values are taken back to objective values. -/
  value_eq : ∀ t, q.Feasible t →
    interpretObjectiveAll records (q.value t) = p.value (backAll records t)
  /-- Every feasible vector is reached. -/
  complete : ∀ s, p.Feasible s → ∃ t, q.Feasible t ∧ backAll records t = s

theorem RefinesAll.nil (hp : p.WellFormed) : RefinesAll [] p p where
  linked := rfl
  wellFormed := hp
  sound _ ht := ht
  value_eq _ _ := rfl
  complete s hs := ⟨s, hs, rfl⟩

/-- **Composition.** Refinement through one record and then through others. -/
theorem RefinesAll.cons (hr : r.Refines p q) (h : RefinesAll records q o) :
    RefinesAll (r :: records) p o where
  linked := ⟨hr.sourceSize_eq, hr.wellShaped, hr.targetSize_eq ▸ h.linked⟩
  wellFormed := h.wellFormed
  sound t ht := hr.sound _ (h.sound t ht)
  value_eq t ht := by
    rw [backAll_cons, ← hr.value_eq _ (h.sound t ht), ← h.value_eq t ht]
    rfl
  complete s hs := by
    obtain ⟨u, hu, rfl⟩ := hr.complete s hs
    obtain ⟨t, ht, rfl⟩ := h.complete u hu
    exact ⟨t, ht, rfl⟩

/-- A problem with more variables refines another one if it says the same of the variables that are
kept, and values for the others can always be found. -/
theorem refines_of_keepAll (hq : q.WellFormed) (hr : r.mappings = keepAll p.size)
    (hsource : r.sourceSize = p.size) (htarget : r.targetSize = q.size)
    (hnegates : r.negatesObjective = false) (hsize : p.size ≤ q.size)
    (hsound : ∀ t, q.Feasible t → p.Feasible (t.take p.size))
    (hvalue : ∀ t, q.Feasible t → q.value t = p.value (t.take p.size))
    (hcomplete : ∀ s, p.Feasible s → ∃ u, q.Feasible (s ++ u)) : r.Refines p q := by
  have hback : ∀ t, q.Feasible t → r.back t = t.take p.size := fun t ht =>
    back_of_keepAll hr (hsize.trans ht.1.length_eq.ge)
  refine {
    wellFormed := hq
    sourceSize_eq := hsource
    targetSize_eq := htarget
    wellShaped := wellShaped_of_keepAll hr hsource (hsize.trans htarget.ge)
    sound := fun t ht => hback t ht ▸ hsound t ht
    value_eq := fun t ht => ?_
    complete := fun s hs => ?_ }
  · rw [hback t ht, ← hvalue t ht, interpretObjective, hnegates]
    rfl
  · obtain ⟨u, hu⟩ := hcomplete s hs
    refine ⟨s ++ u, hu, ?_⟩
    rw [hback _ hu, ← hs.1.length_eq, List.take_left]

end Record

/-! ### Refinement one to one -/

/-- Feasible vectors that agree in their first `n` entries are the same. -/
def Problem.DeterminedBy (q : Problem Rat) (n : Nat) : Prop :=
  ∀ t u, q.Feasible t → q.Feasible u → t.take n = u.take n → t = u

namespace Record

variable {p q : Problem Rat} {r : Record Rat}

/-- **Refinement one to one.** If the variables that are kept determine feasible vectors, then a
refinement by a problem with more variables takes these back one to one, and objective values
stay. -/
theorem Refines.bijOn (h : r.Refines p q) (hp : p.WellFormed)
    (hmappings : r.mappings = keepAll p.size) (hnegates : r.negatesObjective = false)
    (hsize : p.size ≤ q.size) (hdetermined : q.DeterminedBy p.size) :
    Set.BijOn r.back {t | q.isFeasible t 0 = .ok true} {s | p.isFeasible s 0 = .ok true} ∧
      ∀ t, q.isFeasible t 0 = .ok true →
        (∀ position, r.interpret position t = .ok (r.back t)) ∧
          ∃ value, q.evaluateObjective t = .ok value ∧
            p.evaluateObjective (r.back t) = .ok value := by
  simp only [Problem.isFeasible_zero_iff hp, Problem.isFeasible_zero_iff h.wellFormed]
  refine ⟨⟨h.sound, ?_, h.complete⟩, fun t ht => ⟨fun position => ?_, ?_⟩⟩
  · intro t ht u hu hback
    have hlength : ∀ v, q.Feasible v → p.size ≤ v.length := fun v hv =>
      hsize.trans hv.1.length_eq.ge
    rw [back_of_keepAll hmappings (hlength t ht), back_of_keepAll hmappings (hlength u hu)] at hback
    exact hdetermined t u ht hu hback
  · exact h.wellShaped.interpret_eq (ht.1.length_eq.trans h.targetSize_eq.symm) position
  · have hvalue := h.value_eq t ht
    rw [interpretObjective, hnegates] at hvalue
    refine ⟨q.value t, Problem.evaluateObjective_of_length ht.1.length_eq, ?_⟩
    rw [Problem.evaluateObjective_of_length (h.sound t ht).1.length_eq, ← hvalue]
    rfl

end Record

end QuboReduction

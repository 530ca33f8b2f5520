import QuboReduction.Proofs.Accounting
import QuboReduction.Proofs.QuboForm

/-!
# Every assignment is reached

Whatever its stages are, a conversion takes the vectors that are within the ranges of its result
back to exactly the vectors that are within the ranges of its source, feasible or not. After the
standard pipeline these are the vectors of zeros and ones.

## Main definitions

* `QuboReduction.Problem.CoveredBy` — one problem's admissible vectors are recovered from another's.

## Main results

* `QuboReduction.Stage.covers_of_apply` — a stage of any kind.
* `QuboReduction.runStages_covers` — a run of stages.
* `QuboReduction.qubo_covers` — the standard pipeline, in terms of zeros and ones.
-/

namespace QuboReduction

variable {p q o : Problem Rat} {r : Record Rat} {kind : StageKind}

/-! ### Problems -/

namespace Problem

/-- The admissible vectors of `p` are those that `back` makes of the admissible vectors of `q`. -/
def CoveredBy (p q : Problem Rat) (back : List Rat → List Rat) : Prop :=
  ∀ s, p.Admissible s ↔ ∃ t, q.Admissible t ∧ back t = s

theorem CoveredBy.refl (p : Problem Rat) : p.CoveredBy p id := fun s => by simp

theorem CoveredBy.trans {f g : List Rat → List Rat} (hf : p.CoveredBy q f)
    (hg : q.CoveredBy o g) : p.CoveredBy o (f ∘ g) := fun s => by
  simp only [hf s, hg _, Function.comp_apply]
  constructor
  · rintro ⟨_, ⟨t, ht, rfl⟩, rfl⟩
    exact ⟨t, ht, rfl⟩
  · rintro ⟨t, ht, rfl⟩
    exact ⟨g t, ⟨t, ht, rfl⟩, rfl⟩

end Problem

/-- Where no range is empty, all variables can be given values at once. -/
theorem exists_admits {vars : List Variable} (h : ∀ v ∈ vars, v.domain.lower ≤ v.domain.upper) :
    ∃ u, List.Forall₂ (fun v a => v.domain.Admits a) vars u :=
  ⟨vars.map fun v => (v.domain.lower : Rat), List.forall₂_map_right_iff.mpr
    (List.forall₂_same.mpr fun v hv => ⟨v.domain.lower, rfl, le_rfl, h v hv⟩)⟩

/-! ### Stages -/

/-- A stage that keeps all variables forgets the values of those that it introduced. -/
theorem Record.Keeps.covers (h : r.Keeps kind p q) (hp : p.WellFormed) :
    p.CoveredBy q r.back := by
  obtain ⟨news, hgrows, -⟩ := h.grows
  obtain ⟨extra, hvars, -⟩ := hgrows.exists_vars_eq
  have hextra : ∀ v ∈ extra, v.domain.lower ≤ v.domain.upper := fun v hv =>
    (hgrows.wellFormed hp.variablesOnly).lower_le_upper v
      (hvars ▸ List.mem_append_right _ hv)
  have hback : ∀ s u, p.Admissible s → r.back (s ++ u) = s := fun s u hs => by
    rw [Record.back_of_keepAll h.mappings_eq (by simp [hs.length_eq]), ← hs.length_eq,
      List.take_left]
  have hsplit := fun t => Problem.admissible_append_iff (t := t) extra hvars
  intro s
  constructor
  · intro hs
    obtain ⟨u, hu⟩ := exists_admits hextra
    exact ⟨s ++ u, (hsplit _).mpr ⟨s, u, rfl, hs, hu⟩, hback s u hs⟩
  · rintro ⟨t, ht, rfl⟩
    obtain ⟨s, u, rfl, hs, -⟩ := (hsplit _).mp ht
    exact (hback s u hs).symm ▸ hs

theorem Problem.BinaryForm.covers (h : p.BinaryForm q r) : p.CoveredBy q r.back := fun s => by
  constructor
  · exact h.complete s
  · rintro ⟨t, ht, rfl⟩
    exact h.sound t ht

/-- **A stage of any kind** recovers exactly the admissible vectors. -/
theorem Stage.covers_of_apply {s : Stage Rat} (hp : p.WellFormed) (h : s.apply p = .ok (q, r)) :
    p.CoveredBy q r.back := by
  by_cases hs : s = .integerToBinary
  · subst hs
    exact (Problem.binarize_ok hp h).covers
  · exact (Stage.keeps_of_apply hs h).covers hp

/-! ### Runs of stages -/

/-- A run of any stages recovers exactly the admissible vectors. -/
theorem runStages_covers {stages : List (Stage Rat)} {c : Conversion Rat} (hp : p.WellFormed)
    (h : runStages p stages = .ok c) : p.CoveredBy c.problem (Record.backAll c.records) := by
  induction stages generalizing p c with
  | nil =>
    obtain rfl := Except.ok.inj h
    exact .refl p
  | cons s stages ih =>
    obtain ⟨q, r, c', hq, hc, rfl⟩ := runStages_cons_ok h
    exact (s.covers_of_apply hp hq).trans (ih (s.wellFormed_of_apply hp hq) hc)

/-- **Every assignment is reached.** After the standard pipeline every vector of zeros and ones,
feasible or not, is taken back to an integer within the range of each variable, and all such
assignments are reached. -/
theorem qubo_covers (hp : p.Built) {given : Option Rat} {c : Conversion Rat}
    (h : convert p (quboStages given) = .ok c) :
    (∀ t, t.length = c.problem.size → IsBits t →
      ∃ s, c.interpret t = .ok s ∧ p.Admissible s) ∧
    ∀ s, p.Admissible s →
      ∃ t, t.length = c.problem.size ∧ IsBits t ∧ c.interpret t = .ok s := by
  have hcovers := runStages_covers hp.wellFormed (runStages_of_convert h)
  obtain ⟨_, _, _, _, -, -, -, -, hform⟩ := quboForm_of_convert hp.wellFormed h
  have hbits := fun t => Problem.admissible_iff_isBits (s := t) hform.binary
  constructor
  · intro t hlen ht
    exact ⟨_, hform.linked.interpretAll_eq hlen,
      (hcovers _).mpr ⟨t, (hbits t).mpr ⟨hlen, ht⟩, rfl⟩⟩
  · intro s hs
    obtain ⟨t, ht, rfl⟩ := (hcovers s).mp hs
    obtain ⟨hlen, ht⟩ := (hbits t).mp ht
    exact ⟨t, hlen, ht, hform.linked.interpretAll_eq hlen⟩

/-- Every allotment of the rationing problem is reached, also `[1, 1, 4]`, which breaks one of its
constraints. -/
theorem rationing_covered :
    ∃ c, convert rationing (quboStages none) = .ok c ∧
      (∀ t, t.length = c.problem.size → IsBits t →
        ∃ s, c.interpret t = .ok s ∧ rationing.Admissible s) ∧
      ∃ t, t.length = c.problem.size ∧ IsBits t ∧ c.interpret t = .ok [1, 1, 4] := by
  have hok : (convert rationing (quboStages none)).isOk = true := by decide +kernel
  obtain ⟨c, hc⟩ := isOk_iff.mp hok
  obtain ⟨hsound, hcomplete⟩ := qubo_covers rationing_built hc
  exact ⟨c, hc, hsound, hcomplete _ (by decide +kernel)⟩

end QuboReduction

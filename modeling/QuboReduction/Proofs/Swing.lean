import QuboReduction.Proofs.Estimate

/-!
# What the estimate bounds

The estimated penalty factor weighs each coefficient by the largest magnitude of its variables and
not by the widths of their ranges. So it exceeds half of what the objective can change by, and it
exceeds the change itself for every objective over the given variables exactly when no range has
numbers of both signs: over a range that has, an objective of a single term already changes by more.

## Main definitions

* `QuboReduction.Problem.lowest`, `QuboReduction.Problem.highest` — the vectors of all bounds.
* `QuboReduction.swinging` — a problem whose objective changes by more than the estimate.

## Main results

* `QuboReduction.Problem.estimatedFactor_bounds` — what the estimate bounds, and when it
  bounds every change.
* `QuboReduction.swinging_exceeds` — a change beyond the estimate.
-/

namespace QuboReduction

/-- The values of a range are at most its magnitude. -/
theorem Domain.Admits.abs_le_magnitude {d : Domain} {a : Rat} (h : d.Admits a) :
    |a| ≤ d.magnitude := by
  obtain ⟨n, rfl, hlower, hupper⟩ := h
  have hle : |n| ≤ (d.magnitude : Int) := by
    rw [magnitude, abs_le]
    omega
  exact_mod_cast hle

namespace Problem

variable {p q : Problem Rat} {s t : List Rat}

/-! ### Any ranges -/

/-- The entries of an admissible vector are at most the magnitudes of their variables. -/
theorem Admissible.abs_valueAt_le (h : p.Admissible s) (i : Nat) :
    |valueAt s i| ≤ p.magnitudeAt i := by
  cases hv : p.variableAt? i with
  | some v =>
    rw [magnitudeAt_of_variableAt? hv]
    exact (h.admits hv).abs_le_magnitude
  | none =>
    have hi : p.size ≤ i := List.getElem?_eq_none_iff.mp hv
    rw [magnitudeAt, hv, valueAt_of_ge (h.length_eq.le.trans hi), abs_zero]
    exact zero_le_one

/-- The objective changes by at most twice what the estimate adds up. -/
theorem abs_value_sub_value_le_two_mul (hs : p.Admissible s) (ht : p.Admissible t) :
    |p.value s - p.value t| ≤ 2 * (p.estimatedFactor - 1) := by
  have hlinear : ∀ i, |valueAt s i - valueAt t i| ≤ 2 * p.magnitudeAt i := fun i => by
    have hi := abs_sub (valueAt s i) (valueAt t i)
    linarith [hs.abs_valueAt_le i, ht.abs_valueAt_le i]
  have hproduct : ∀ {u}, p.Admissible u → ∀ i j,
      |valueAt u i * valueAt u j| ≤ p.magnitudeAt i * p.magnitudeAt j := fun hu i j => by
    rw [abs_mul]
    exact mul_le_mul (hu.abs_valueAt_le i) (hu.abs_valueAt_le j) (abs_nonneg _)
      ((abs_nonneg _).trans (hu.abs_valueAt_le i))
  have hquadratic : ∀ i j, |valueAt s i * valueAt s j - valueAt t i * valueAt t j| ≤
      2 * (p.magnitudeAt i * p.magnitudeAt j) := fun i j => by
    have hij := abs_sub (valueAt s i * valueAt s j) (valueAt t i * valueAt t j)
    linarith [hproduct hs i j, hproduct ht i j]
  have hbound := abs_value_sub_value_le_mul hlinear hquadratic
  linarith [p.objectiveBound_le_estimatedFactor]

/-! ### The vectors of all bounds -/

/-- The vector of all lower bounds. -/
def lowest (p : Problem Rat) : List Rat := p.vars.map fun v => v.domain.lower

/-- The vector of all upper bounds. -/
def highest (p : Problem Rat) : List Rat := p.vars.map fun v => v.domain.upper

theorem admissible_lowest (hp : p.WellFormed) : p.Admissible p.lowest := by
  rw [Admissible, lowest, List.forall₂_map_right_iff, List.forall₂_same]
  exact fun v hv => ⟨v.domain.lower, rfl, le_rfl, hp.lower_le_upper v hv⟩

theorem admissible_highest (hp : p.WellFormed) : p.Admissible p.highest := by
  rw [Admissible, highest, List.forall₂_map_right_iff, List.forall₂_same]
  exact fun v hv => ⟨v.domain.upper, rfl, hp.lower_le_upper v hv, le_rfl⟩

theorem valueAt_lowest {i : Nat} {v : Variable} (h : p.variableAt? i = some v) :
    valueAt p.lowest i = v.domain.lower := by
  rw [variableAt?] at h
  simp [valueAt, lowest, List.getD_eq_getElem?_getD, h]

theorem valueAt_highest {i : Nat} {v : Variable} (h : p.variableAt? i = some v) :
    valueAt p.highest i = v.domain.upper := by
  rw [variableAt?] at h
  simp [valueAt, highest, List.getD_eq_getElem?_getD, h]

/-! ### Ranges with numbers of both signs -/

/-- Minimize a large multiple of one variable. -/
def pulling (i : Nat) : Objective Rat :=
  ⟨.minimize, ⟨0, Terms.ofList [(i, fractionalFactor)], Terms.empty⟩⟩

theorem evaluate_pulling (i : Nat) (x : Nat → Rat) : (pulling i).evaluate x = 100000 * x i := by
  simp [pulling, Objective.evaluate, Polynomial.evaluate_eq, fractionalFactor]

/-- The estimate for a large multiple of one variable that is not always zero. -/
theorem estimatedFactor_of_pulling {i : Nat} (hobjective : p.objective = pulling i)
    (hmagnitude : 1 ≤ p.magnitudeAt i) : p.estimatedFactor = 100000 * p.magnitudeAt i + 1 := by
  have hterms : (pulling i).polynomial.linear.toList = [(i, 100000)] := rfl
  have hbound : p.objectiveBound = 100000 * p.magnitudeAt i + 1 := by
    simp only [objectiveBound, hobjective, Terms.total, hterms]
    simp [pulling, Terms.empty, penaltyMargin]
  have hlarge : ¬p.objectiveBound < fractionalFactor := by
    have hfactor : (fractionalFactor : Rat) = 100000 := rfl
    rw [hbound, hfactor]
    linarith
  simp only [estimatedFactor, hlarge, decide_false, Bool.and_false, Bool.false_eq_true, if_false]
  exact hbound

/-- Over a range with numbers of both signs some objective changes by at least the estimate. -/
theorem exists_objective_of_not_oneSigned (hp : p.WellFormed) {v : Variable} (hv : v ∈ p.vars)
    (hsigned : ¬v.domain.OneSigned) :
    ∃ o q, p.setObjective o = .ok q ∧ ∃ s t, q.Admissible s ∧ q.Admissible t ∧
      q.estimatedFactor ≤ |q.value s - q.value t| := by
  obtain ⟨i, hi, hat⟩ := List.getElem_of_mem hv
  have hat : p.variableAt? i = some v := List.getElem?_eq_some_iff.mpr ⟨hi, hat⟩
  have hbelow : (pulling i).polynomial.Below p.size :=
    ⟨Terms.Within.ofList fun t ht => by rwa [List.mem_singleton.mp ht], Terms.within_empty⟩
  have hhighest := admissible_highest hp
  have hlowest := admissible_lowest hp
  refine ⟨pulling i, { p with objective := pulling i }, setObjective_eq_ok_iff.mpr ⟨hbelow, rfl⟩,
    p.highest, p.lowest, hhighest, hlowest, ?_⟩
  generalize hq : { p with objective := pulling i } = q
  have hmagnitude : q.magnitudeAt i = v.domain.magnitude :=
    magnitudeAt_of_variableAt? (by rw [← hq]; exact hat)
  have hvalue : ∀ s, q.value s = 100000 * valueAt s i := fun s => by
    rw [← hq]
    exact evaluate_pulling i _
  -- The width of the range exceeds its magnitude by one or more.
  have hwidth : (v.domain.magnitude : Rat) + 1 ≤ v.domain.upper - v.domain.lower ∧
      (1 : Rat) ≤ v.domain.magnitude := by
    have hint : (v.domain.magnitude : Int) + 1 ≤ v.domain.upper - v.domain.lower ∧
        1 ≤ v.domain.magnitude := by
      rw [Domain.OneSigned, not_or, not_le, not_le] at hsigned
      rw [Domain.magnitude]
      omega
    exact ⟨by exact_mod_cast hint.1, by exact_mod_cast hint.2⟩
  rw [estimatedFactor_of_pulling (by rw [← hq]) (hmagnitude ▸ hwidth.2), hmagnitude, hvalue, hvalue,
    valueAt_highest hat, valueAt_lowest hat, ← mul_sub]
  refine le_trans ?_ (le_abs_self _)
  linarith

/-- **What the estimate bounds.** The objective changes by at most twice the estimate, less two,
among the admissible vectors. The estimate exceeds every change, whatever objective over the
variables is set, exactly when no range has numbers of both signs. -/
theorem estimatedFactor_bounds (hp : p.Built) :
    (∀ s t, p.Admissible s → p.Admissible t →
      |p.value s - p.value t| ≤ 2 * (p.estimatedFactor - 1)) ∧
    ((∀ o q, p.setObjective o = .ok q → ∀ s t, q.Admissible s → q.Admissible t →
      |q.value s - q.value t| < q.estimatedFactor) ↔ ∀ v ∈ p.vars, v.domain.OneSigned) := by
  refine ⟨fun s t hs ht => abs_value_sub_value_le_two_mul hs ht, fun hall v hv => ?_,
    fun hsigned o q hq s t hs ht => ?_⟩
  · by_contra hstraddles
    obtain ⟨o, q, hq, s, t, hs, ht, hle⟩ :=
      exists_objective_of_not_oneSigned hp.wellFormed hv hstraddles
    exact absurd (hall o q hq s t hs ht) hle.not_gt
  · obtain ⟨-, rfl⟩ := setObjective_eq_ok_iff.mp hq
    exact value_sub_value_lt hsigned hs ht

end Problem

/-- Minimize `10 - x + n/2 + 2·x·n` for a binary variable `x` and an integer `n` from -4 to 2. The
estimate is `1 + 2 + 8 + 1`, but the objective is 14 at `[1, 2]` and -1 at `[1, -4]`. -/
def swinging : Problem Rat where
  name := "swinging"
  vars := [⟨"x", .binary, 0⟩, ⟨"n", .integer (-4) 2, 1⟩]
  objective := ⟨.minimize,
    ⟨10, Terms.ofList [(0, -1), (1, 1 / 2)], Quadratic.ofProducts [(0, 1, 2)]⟩⟩
  constraints := []

theorem swinging_built : swinging.Built :=
  Problem.built_iff_assemble_eq.mpr (by with_unfolding_all rfl)

theorem estimatedFactor_swinging : swinging.estimatedFactor = 12 := by decide +kernel

/-- The swinging objective changes by at most 22, and another one over its variables changes by more
than its estimate. -/
theorem swinging_bounds :
    (∀ s t, swinging.Admissible s → swinging.Admissible t →
      |swinging.value s - swinging.value t| ≤ 22) ∧
    ¬∀ o q, swinging.setObjective o = .ok q → ∀ s t, q.Admissible s → q.Admissible t →
      |q.value s - q.value t| < q.estimatedFactor := by
  obtain ⟨hbound, hiff⟩ := Problem.estimatedFactor_bounds swinging_built
  rw [estimatedFactor_swinging] at hbound
  refine ⟨fun s t hs ht => (hbound s t hs ht).trans (by norm_num), fun hall => ?_⟩
  have hsigned := hiff.mp hall ⟨"n", .integer (-4) 2, 1⟩ (by simp [swinging])
  simp [Domain.OneSigned, Domain.lower, Domain.upper] at hsigned

/-- **A change beyond the estimate.** The objective of a problem can change by more than the
estimate among its admissible vectors. -/
theorem swinging_exceeds : swinging.Built ∧
    ¬∀ s t, swinging.Admissible s → swinging.Admissible t →
      |swinging.value s - swinging.value t| < swinging.estimatedFactor := by
  refine ⟨swinging_built, fun hall => ?_⟩
  have hlt := hall [1, 2] [1, -4] (by decide +kernel) (by decide +kernel)
  have hchange : |swinging.value [1, 2] - swinging.value [1, -4]| = 15 := by decide +kernel
  rw [hchange, estimatedFactor_swinging] at hlt
  norm_num at hlt

end QuboReduction

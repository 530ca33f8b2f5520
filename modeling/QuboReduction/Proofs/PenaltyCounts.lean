import QuboReduction.Proofs.Penalty

/-!
# What a penalty counts

At zeros and ones the penalty of a shape is a count times its factor. A sum of products over the
pairs of a list is then the number of pairs of ones, which is told by the number of ones alone; the
positions of the list are counted, so a variable that the list has twice makes a pair with itself.

## Main definitions

* `QuboReduction.Shape.breaches` — how often zeros and ones break a shape.

## Main results

* `QuboReduction.sum_eq_countP`, `QuboReduction.pairSum_eq_countP` — sums and sums over pairs as
  numbers of ones.
* `QuboReduction.Shape.evaluate_penalty_of_isBits` — the penalty of a shape at zeros and ones.
-/

namespace QuboReduction

/-! ### Counting ones -/

section Counts

variable {x : Nat → Rat} {vars : List Nat}

/-- The sum of zeros and ones is the number of ones. -/
theorem sum_eq_countP (hbits : ∀ i ∈ vars, x i = 0 ∨ x i = 1) :
    (vars.map x).sum = vars.countP fun i => x i = 1 := by
  induction vars with
  | nil => simp
  | cons i vars ih =>
    obtain ⟨hi, hvars⟩ := List.forall_mem_cons.mp hbits
    rw [List.map_cons, List.sum_cons, ih hvars, List.countP_cons]
    rcases hi with hi | hi
    · simp [hi]
    · simp [hi, add_comm]

/-- The complements of zeros and ones are zeros and ones. -/
theorem bits_complement (hbits : ∀ i ∈ vars, x i = 0 ∨ x i = 1) :
    ∀ i ∈ vars, 1 - x i = 0 ∨ 1 - x i = 1 := by
  intro i hi
  rcases hbits i hi with h | h
  · exact Or.inr (by rw [h, sub_zero])
  · exact Or.inl (by rw [h, sub_self])

/-- The sum of the complements of zeros and ones is the number of zeros. -/
theorem sum_complement_eq_countP (hbits : ∀ i ∈ vars, x i = 0 ∨ x i = 1) :
    (vars.map fun i => 1 - x i).sum = vars.countP fun i => x i = 0 := by
  rw [sum_eq_countP (bits_complement hbits)]
  simp only [sub_eq_self]

/-- The sum over pairs of zeros and ones is the number of pairs of ones. -/
theorem pairSum_eq_countP (hbits : ∀ i ∈ vars, x i = 0 ∨ x i = 1) :
    pairSum x vars =
      (vars.countP fun i => x i = 1) * ((vars.countP fun i => x i = 1) - 1) / 2 := by
  have hsquares : (vars.map fun i => x i ^ 2) = vars.map x := List.map_congr_left fun i hi => by
    rcases hbits i hi with h | h <;> simp [h]
  have htwo := two_mul_pairSum x vars
  rw [hsquares, sum_eq_countP hbits] at htwo
  linear_combination htwo / 2

end Counts

/-! ### Penalties at zeros and ones -/

namespace Shape

/-- How often zeros and ones break a shape: once for an implication that fails, and for a list once
for every pair of positions that are both one, or both zero. -/
def breaches (s : Shape) (values : List Rat) : Rat :=
  match s with
  | implicationLe i j => if valueAt values i = 1 ∧ valueAt values j = 0 then 1 else 0
  | implicationGe i j => if valueAt values j = 1 ∧ valueAt values i = 0 then 1 else 0
  | atMostOne vars =>
    let ones := vars.countP fun i => valueAt values i = 1
    ones * (ones - 1) / 2
  | atMostOneZero vars =>
    let zeros := vars.countP fun i => valueAt values i = 0
    zeros * (zeros - 1) / 2
  | generic => 0

variable {s : Shape} {values : List Rat}

/-- At zeros and ones the cost of a shape counts how often it is broken. -/
theorem cost_eq_breaches (hbits : ∀ i ∈ s.indices, valueAt values i = 0 ∨ valueAt values i = 1) :
    s.cost (valueAt values) = s.breaches values := by
  cases s with
  | implicationLe i j =>
    rw [cost, breaches]
    rcases hbits i (by simp [indices]) with hi | hi <;>
      rcases hbits j (by simp [indices]) with hj | hj <;>
      norm_num [hi, hj]
  | implicationGe i j =>
    rw [cost, breaches]
    rcases hbits i (by simp [indices]) with hi | hi <;>
      rcases hbits j (by simp [indices]) with hj | hj <;>
      norm_num [hi, hj]
  | atMostOne vars => exact pairSum_eq_countP hbits
  | atMostOneZero vars =>
    -- the pairs of zeros are the pairs of ones among the complements
    have hcount := pairSum_eq_countP (bits_complement hbits)
    simp only [sub_eq_self] at hcount
    exact hcount
  | generic => rfl

/-- **Penalties at zeros and ones.** Every shape but the generic one has a penalty. At a vector of
zeros and ones that covers the variables of the shape, its value is the factor times the number of
times that the shape is broken, whatever the factor is. -/
theorem evaluate_penalty_of_isBits (hs : s ≠ .generic) (hbits : IsBits values)
    (hcover : ∀ i ∈ s.indices, i < values.length) (factor : Rat) :
    ∃ penalty, s.penalty? factor = some penalty ∧
      penalty.evaluate (valueAt values) = factor * s.breaches values := by
  have hvalues : ∀ i ∈ s.indices, valueAt values i = 0 ∨ valueAt values i = 1 := fun i hi => by
    rw [valueAt_of_lt (hcover i hi)]
    exact hbits _ (List.getElem_mem _)
  obtain ⟨penalty, hpenalty⟩ := Option.ne_none_iff_exists'.mp (penalty?_eq_none_iff.not.mpr hs)
  refine ⟨penalty, hpenalty, ?_⟩
  rw [← cost_eq_breaches hvalues]
  exact evaluate_penalty? hpenalty

/-- A list that has a variable twice: of its three positions all are zero, which makes three
pairs. -/
theorem penalty_repeated_zeros :
    ∃ penalty : Polynomial Rat, (atMostOneZero [0, 2, 0]).penalty? (5 / 2) = some penalty ∧
      penalty.evaluate (valueAt [0, 1, 0]) = 15 / 2 := by
  have hbits : IsBits [0, 1, 0] := by simp [IsBits]
  obtain ⟨penalty, hpenalty, hvalue⟩ := evaluate_penalty_of_isBits (s := atMostOneZero [0, 2, 0])
    (by decide) hbits (by simp [indices]) (5 / 2)
  have hbreaches : (atMostOneZero [0, 2, 0]).breaches [0, 1, 0] = 3 := by
    norm_num [breaches, valueAt]
  exact ⟨penalty, hpenalty, by rw [hvalue, hbreaches]; norm_num⟩

end Shape

end QuboReduction

import Mathlib.Algebra.Order.Field.Rat
import QuboReduction.PenaltyFactor
import QuboReduction.Proofs.Assignment

/-!
# Estimated penalty factors

The estimated factor adds up the absolute coefficients of the objective, each times the largest
magnitudes of its variables. This bounds the values that the terms can take, and so it bounds their
changes as long as no variable can change its sign. It does not in general: a variable between `-m`
and `m` has the magnitude `m`, but can change by `2·m`.

## Main definitions

* `QuboReduction.Domain.OneSigned` — ranges without numbers of both signs.

## Main results

* `QuboReduction.Problem.value_sub_value_lt`, `QuboReduction.Problem.cost_lt_add_penalty` — the
  estimated factor exceeds what the objective can change by if all ranges are one-signed, so
  breaking a constraint does not pay.
-/

namespace QuboReduction

/-! ### Ranges -/

namespace Domain

/-- No two numbers of the range have opposite signs. -/
def OneSigned (d : Domain) : Prop := 0 ≤ d.lower ∨ d.upper ≤ 0

theorem oneSigned_of_isBinary {d : Domain} (h : d.isBinary = true) : d.OneSigned := by
  cases d with
  | binary => exact Or.inl le_rfl
  | integer lower upper => simp [isBinary] at h

/-- The values of a one-signed range lie between zero and the magnitude, on one side of zero. -/
theorem OneSigned.sides {d : Domain} (h : d.OneSigned) :
    (∀ a, d.Admits a → 0 ≤ a ∧ a ≤ d.magnitude) ∨ ∀ a, d.Admits a → -d.magnitude ≤ a ∧ a ≤ 0 := by
  refine h.imp (fun hlower a ha => ?_) fun hupper a ha => ?_
  · obtain ⟨n, rfl, hn, hn'⟩ := ha
    have hle : n ≤ (d.magnitude : Int) := by
      rw [magnitude]
      omega
    exact ⟨by exact_mod_cast hlower.trans hn, by exact_mod_cast hle⟩
  · obtain ⟨n, rfl, hn, hn'⟩ := ha
    have hle : -(d.magnitude : Int) ≤ n := by
      rw [magnitude]
      omega
    exact ⟨by exact_mod_cast hle, by exact_mod_cast hn'.trans hupper⟩

end Domain

/-- Numbers between zero and `m` on the same side of zero: what the changes of sums and products of
them are bounded by. -/
def SameSide (m a b : Rat) : Prop :=
  (0 ≤ a ∧ a ≤ m ∧ 0 ≤ b ∧ b ≤ m) ∨ (-m ≤ a ∧ a ≤ 0 ∧ -m ≤ b ∧ b ≤ 0)

namespace SameSide

variable {m n a b a' b' : Rat}

theorem abs_sub_le (h : SameSide m a b) : |a - b| ≤ m := by
  rw [abs_le]
  rcases h with ⟨h₁, h₂, h₃, h₄⟩ | ⟨h₁, h₂, h₃, h₄⟩
  · constructor <;> linarith
  · constructor <;> linarith

theorem neg (h : SameSide m a b) : SameSide m (-a) (-b) := by
  rcases h with ⟨h₁, h₂, h₃, h₄⟩ | ⟨h₁, h₂, h₃, h₄⟩
  · exact Or.inr ⟨by linarith, by linarith, by linarith, by linarith⟩
  · exact Or.inl ⟨by linarith, by linarith, by linarith, by linarith⟩

private theorem mul_of_nonneg (h : 0 ≤ a ∧ a ≤ m ∧ 0 ≤ b ∧ b ≤ m)
    (h' : 0 ≤ a' ∧ a' ≤ n ∧ 0 ≤ b' ∧ b' ≤ n) : SameSide (m * n) (a * a') (b * b') := by
  obtain ⟨h₁, h₂, h₃, h₄⟩ := h
  obtain ⟨h₅, h₆, h₇, h₈⟩ := h'
  exact Or.inl ⟨mul_nonneg h₁ h₅, mul_le_mul h₂ h₆ h₅ (h₁.trans h₂), mul_nonneg h₃ h₇,
    mul_le_mul h₄ h₈ h₇ (h₃.trans h₄)⟩

/-- Products of numbers that keep their signs keep theirs. -/
theorem mul (h : SameSide m a b) (h' : SameSide n a' b') :
    SameSide (m * n) (a * a') (b * b') := by
  have hflip : ∀ {m a b : Rat}, -m ≤ a ∧ a ≤ 0 ∧ -m ≤ b ∧ b ≤ 0 →
      0 ≤ -a ∧ -a ≤ m ∧ 0 ≤ -b ∧ -b ≤ m := fun h => by
    obtain ⟨h₁, h₂, h₃, h₄⟩ := h
    exact ⟨by linarith, by linarith, by linarith, by linarith⟩
  rcases h with h | h <;> rcases h' with h' | h'
  · exact mul_of_nonneg h h'
  · simpa using (mul_of_nonneg h (hflip h')).neg
  · simpa using (mul_of_nonneg (hflip h) h').neg
  · simpa using mul_of_nonneg (hflip h) (hflip h')

end SameSide

/-! ### Sums of terms -/

/-- The change of a sum of terms is bounded by the bounds on the changes of its monomials, of which
each has the common factor `k`. -/
private theorem abs_value_sub_value_le {κ : Type} [Ord κ] (e : Terms κ Rat) (m m' bound : κ → Rat)
    (k : Rat) (h : ∀ t ∈ e.toList, |m t.1 - m' t.1| ≤ k * bound t.1) :
    |e.value m - e.value m'| ≤ k * (e.toList.map fun t => |t.2| * bound t.1).sum := by
  unfold Terms.value
  generalize e.toList = l at h
  induction l with
  | nil => simp
  | cons t l ih =>
    obtain ⟨ht, hl⟩ := List.forall_mem_cons.mp h
    rw [List.map_cons, List.sum_cons, List.map_cons, List.sum_cons, List.map_cons, List.sum_cons]
    have hsplit : t.2 * m t.1 + (l.map fun t => t.2 * m t.1).sum -
        (t.2 * m' t.1 + (l.map fun t => t.2 * m' t.1).sum) =
          t.2 * (m t.1 - m' t.1) +
            ((l.map fun t => t.2 * m t.1).sum - (l.map fun t => t.2 * m' t.1).sum) := by ring
    rw [hsplit, mul_add, mul_left_comm]
    refine (abs_add_le _ _).trans (add_le_add ?_ (ih hl))
    rw [abs_mul]
    exact mul_le_mul_of_nonneg_left ht (abs_nonneg _)

namespace Problem

variable {p : Problem Rat} {s t : List Rat}

theorem magnitudeAt_of_variableAt? {i : Nat} {v : Variable} (hv : p.variableAt? i = some v) :
    p.magnitudeAt i = v.domain.magnitude := by
  simp [magnitudeAt, hv]

/-- Values of a one-signed variable are on the same side of zero. -/
theorem sameSide_valueAt (hsigned : ∀ v ∈ p.vars, v.domain.OneSigned) (hs : p.Admissible s)
    (ht : p.Admissible t) (i : Nat) : SameSide (p.magnitudeAt i) (valueAt s i) (valueAt t i) := by
  cases hv : p.variableAt? i with
  | some v =>
    rw [magnitudeAt_of_variableAt? hv]
    rcases (hsigned v (List.mem_of_getElem? hv)).sides with h | h
    · exact Or.inl ⟨(h _ (hs.admits hv)).1, (h _ (hs.admits hv)).2, (h _ (ht.admits hv)).1,
        (h _ (ht.admits hv)).2⟩
    · exact Or.inr ⟨(h _ (hs.admits hv)).1, (h _ (hs.admits hv)).2, (h _ (ht.admits hv)).1,
        (h _ (ht.admits hv)).2⟩
  | none =>
    have hi : p.size ≤ i := List.getElem?_eq_none_iff.mp hv
    rw [magnitudeAt, hv, valueAt_of_ge (hs.length_eq.le.trans hi),
      valueAt_of_ge (ht.length_eq.le.trans hi)]
    exact Or.inl ⟨le_rfl, zero_le_one, le_rfl, zero_le_one⟩

theorem objectiveBound_le_estimatedFactor (p : Problem Rat) :
    p.objectiveBound ≤ p.estimatedFactor := by
  simp only [estimatedFactor]
  split
  · rename_i h
    simp only [Bool.and_eq_true, decide_eq_true_eq] at h
    exact h.2.le
  · exact le_rfl

/-- If between two vectors every variable changes by at most `k` times its magnitude, and every
product by at most `k` times the product of the magnitudes, then the objective changes by at most
`k` times what the estimate adds up. -/
theorem abs_value_sub_value_le_mul {k : Rat}
    (hlinear : ∀ i, |valueAt s i - valueAt t i| ≤ k * p.magnitudeAt i)
    (hquadratic : ∀ i j, |valueAt s i * valueAt s j - valueAt t i * valueAt t j| ≤
      k * (p.magnitudeAt i * p.magnitudeAt j)) :
    |p.value s - p.value t| ≤ k * (p.objectiveBound - 1) := by
  have hl := abs_value_sub_value_le p.objective.polynomial.linear (valueAt s) (valueAt t)
    p.magnitudeAt k fun u _ => hlinear u.1
  have hq := abs_value_sub_value_le p.objective.polynomial.quadratic (Pair.product (valueAt s))
    (Pair.product (valueAt t)) (fun u => p.magnitudeAt u.low * p.magnitudeAt u.high) k
    fun u _ => hquadratic u.1.low u.1.high
  have hchange : p.value s - p.value t =
      (p.objective.polynomial.linear.value (valueAt s) -
        p.objective.polynomial.linear.value (valueAt t)) +
      (p.objective.polynomial.quadratic.value (Pair.product (valueAt s)) -
        p.objective.polynomial.quadratic.value (Pair.product (valueAt t))) := by
    rw [value, value, Objective.evaluate, Objective.evaluate, Polynomial.evaluate_eq,
      Polynomial.evaluate_eq]
    ring
  have hbound : p.objectiveBound =
      (p.objective.polynomial.linear.toList.map fun u => |u.2| * p.magnitudeAt u.1).sum +
      (p.objective.polynomial.quadratic.toList.map fun u =>
        |u.2| * (p.magnitudeAt u.1.low * p.magnitudeAt u.1.high)).sum + 1 := by
    simp only [objectiveBound, Terms.total, Scalar.sum_rat, Scalar.abs_rat, mul_assoc]
    rfl
  rw [hchange, hbound, add_sub_cancel_right, mul_add]
  exact (abs_add_le _ _).trans (add_le_add hl hq)

/-- **One-signed ranges.** The estimated factor exceeds what the objective can change by among the
admissible vectors if no range has numbers of both signs. -/
theorem value_sub_value_lt (hsigned : ∀ v ∈ p.vars, v.domain.OneSigned) (hs : p.Admissible s)
    (ht : p.Admissible t) : |p.value s - p.value t| < p.estimatedFactor := by
  refine lt_of_lt_of_le ?_ p.objectiveBound_le_estimatedFactor
  have hside := fun i => sameSide_valueAt hsigned hs ht i
  have hchange := abs_value_sub_value_le_mul (p := p) (k := 1)
    (fun i => (hside i).abs_sub_le.trans_eq (one_mul _).symm)
    fun i j => ((hside i).mul (hside j)).abs_sub_le.trans_eq (one_mul _).symm
  linarith

theorem abs_cost_sub_cost (p : Problem Rat) (s t : List Rat) :
    |p.cost s - p.cost t| = |p.value s - p.value t| := by
  unfold cost
  cases p.objective.sense with
  | minimize => simp [Sense.sign]
  | maximize =>
    rw [Sense.sign, neg_one_mul, neg_one_mul, neg_sub_neg, abs_sub_comm]

/-- So a penalty of one or more, times the estimated factor, never pays for itself. -/
theorem cost_lt_add_penalty (hsigned : ∀ v ∈ p.vars, v.domain.OneSigned) (hs : p.Admissible s)
    (ht : p.Admissible t) {penalty : Rat} (hpenalty : 1 ≤ penalty) :
    p.cost s < p.cost t + p.estimatedFactor * penalty := by
  have hchange := value_sub_value_lt hsigned hs ht
  rw [← abs_cost_sub_cost] at hchange
  have hfactor : 0 < p.estimatedFactor := (abs_nonneg _).trans_lt hchange
  have hless := (le_abs_self _).trans_lt hchange
  nlinarith

end Problem

end QuboReduction

import Mathlib.Tactic.LinearCombination
import QuboReduction.Proofs.Assignment
import QuboReduction.Penalty

/-!
# Costs of shapes

A shape has a cost at each assignment: the number of ways in which zeros and ones break it. The cost
of a bound on the number of ones counts pairs, and a sum of products over pairs is half of what the
square of the sum exceeds the sum of the squares by; so it is zero exactly when at most one of the
variables is one.

## Main definitions

* `QuboReduction.pairSum` — a sum of products over pairs.
* `QuboReduction.Shape.cost` — the cost of a shape.

## Main results

* `QuboReduction.two_mul_pairSum` — pairs in terms of squares.
* `QuboReduction.Shape.cost_bits` — at zeros and ones, the cost of a shape is a natural number that
  is zero exactly when the shape is kept to.
* `QuboReduction.Problem.shapeOf_spec` — a constraint with a shape says what the shape says.
-/

namespace QuboReduction

/-! ### Sums over pairs -/

/-- The sum of the products of an earlier and a later value. -/
def pairSum (f : Nat → Rat) (vars : List Nat) : Rat :=
  ((pairsOf vars).map fun p => f p.1 * f p.2).sum

section Pairs

variable {f : Nat → Rat} {vars : List Nat}

theorem pairSum_cons (i : Nat) :
    pairSum f (i :: vars) = f i * (vars.map f).sum + pairSum f vars := by
  rw [pairSum, pairsOf, List.map_append, List.sum_append, List.map_map, ← pairSum]
  congr 1
  induction vars with
  | nil => simp
  | cons j vars ih =>
    rw [List.map_cons, List.sum_cons, ih, List.map_cons, List.sum_cons, mul_add]
    rfl

/-- **Pairs.** Twice the sum over pairs is the square of the sum less the sum of the squares. -/
theorem two_mul_pairSum (f : Nat → Rat) (vars : List Nat) :
    2 * pairSum f vars = (vars.map f).sum ^ 2 - (vars.map fun i => f i ^ 2).sum := by
  induction vars with
  | nil => simp [pairSum, pairsOf]
  | cons i vars ih =>
    rw [pairSum_cons, List.map_cons, List.sum_cons, List.map_cons, List.sum_cons, mul_add, ih]
    ring

/-- The sum of zeros and ones is a natural number. -/
theorem sum_bits (hbits : ∀ i ∈ vars, f i = 0 ∨ f i = 1) : ∃ n : Nat, (vars.map f).sum = n := by
  induction vars with
  | nil => exact ⟨0, by simp⟩
  | cons i vars ih =>
    obtain ⟨hi, hvars⟩ := List.forall_mem_cons.mp hbits
    obtain ⟨n, hn⟩ := ih hvars
    rw [List.map_cons, List.sum_cons, hn]
    rcases hi with hi | hi
    · exact ⟨n, by rw [hi, zero_add]⟩
    · exact ⟨n + 1, by rw [hi, Nat.cast_add, Nat.cast_one, add_comm]⟩

private theorem sum_pow_two (hbits : ∀ i ∈ vars, f i = 0 ∨ f i = 1) :
    (vars.map fun i => f i ^ 2).sum = (vars.map f).sum := by
  congr 1
  refine List.map_congr_left fun i hi => ?_
  rcases hbits i hi with h | h <;> simp [h]

/-- Over zeros and ones the sum over pairs is a natural number that is zero exactly when there is at
most one one. -/
theorem pairSum_bits (hbits : ∀ i ∈ vars, f i = 0 ∨ f i = 1) :
    (∃ n : Nat, pairSum f vars = n) ∧ (pairSum f vars = 0 ↔ (vars.map f).sum ≤ 1) := by
  constructor
  · induction vars with
    | nil => exact ⟨0, by simp [pairSum, pairsOf]⟩
    | cons i vars ih =>
      obtain ⟨hi, hvars⟩ := List.forall_mem_cons.mp hbits
      obtain ⟨m, hm⟩ := ih hvars
      obtain ⟨n, hn⟩ := sum_bits hvars
      rw [pairSum_cons, hm, hn]
      rcases hi with hi | hi
      · exact ⟨m, by rw [hi, zero_mul, zero_add]⟩
      · exact ⟨n + m, by rw [hi, one_mul, Nat.cast_add]⟩
  · obtain ⟨n, hn⟩ := sum_bits hbits
    have htwo := two_mul_pairSum f vars
    rw [sum_pow_two hbits, hn] at htwo
    rw [hn]
    constructor
    · intro hzero
      rw [hzero, mul_zero] at htwo
      have hfactor : (n : Rat) * (n - 1) = 0 := by linear_combination -htwo
      rcases mul_eq_zero.mp hfactor with h | h
      · rw [h]
        exact zero_le_one
      · exact (sub_eq_zero.mp h).le
    · intro hle
      have hn' : n ≤ 1 := by exact_mod_cast hle
      rcases (by omega : n = 0 ∨ n = 1) with rfl | rfl
      · simpa using htwo
      · simpa using htwo

end Pairs

/-! ### Costs -/

namespace Shape

/-- The variables of a shape. -/
def indices : Shape → List Nat
  | implicationLe x y => [x, y]
  | implicationGe x y => [x, y]
  | atMostOne vars => vars
  | atMostOneZero vars => vars
  | generic => []

/-- The cost of a shape: for an implication, one where it fails; for a bound on the number of ones,
the number of pairs of ones, and for a bound on the number of zeros, the number of pairs of
zeros. -/
def cost (s : Shape) (x : Nat → Rat) : Rat :=
  match s with
  | implicationLe i j => x i * (1 - x j)
  | implicationGe i j => x j * (1 - x i)
  | atMostOne vars => pairSum x vars
  | atMostOneZero vars => pairSum (fun i => 1 - x i) vars
  | generic => 0

/-- What a shape says. -/
def Holds (s : Shape) (x : Nat → Rat) : Prop :=
  match s with
  | implicationLe i j => x i ≤ x j
  | implicationGe i j => x j ≤ x i
  | atMostOne vars => (vars.map x).sum ≤ 1
  | atMostOneZero vars => (vars.map fun i => 1 - x i).sum ≤ 1
  | generic => True

/-- **Costs.** At zeros and ones the cost of a shape is a natural number, and zero exactly when the
shape holds. -/
theorem cost_bits {s : Shape} {x : Nat → Rat} (hbits : ∀ i ∈ s.indices, x i = 0 ∨ x i = 1) :
    (∃ n : Nat, s.cost x = n) ∧ (s.cost x = 0 ↔ s.Holds x) := by
  cases s with
  | implicationLe i j =>
    rw [cost, Holds]
    rcases hbits i (by simp [indices]) with hi | hi <;>
      rcases hbits j (by simp [indices]) with hj | hj <;>
      rw [hi, hj]
    · exact ⟨⟨0, by norm_num⟩, by norm_num⟩
    · exact ⟨⟨0, by norm_num⟩, by norm_num⟩
    · exact ⟨⟨1, by norm_num⟩, by norm_num⟩
    · exact ⟨⟨0, by norm_num⟩, by norm_num⟩
  | implicationGe i j =>
    rw [cost, Holds]
    rcases hbits i (by simp [indices]) with hi | hi <;>
      rcases hbits j (by simp [indices]) with hj | hj <;>
      rw [hi, hj]
    · exact ⟨⟨0, by norm_num⟩, by norm_num⟩
    · exact ⟨⟨1, by norm_num⟩, by norm_num⟩
    · exact ⟨⟨0, by norm_num⟩, by norm_num⟩
    · exact ⟨⟨0, by norm_num⟩, by norm_num⟩
  | atMostOne vars => exact pairSum_bits hbits
  | atMostOneZero vars =>
    refine pairSum_bits (f := fun i => 1 - x i) fun i hi => ?_
    rcases hbits i hi with h | h
    · exact Or.inr (by rw [h, sub_zero])
    · exact Or.inl (by rw [h, sub_self])
  | generic => exact ⟨⟨0, by simp [cost]⟩, by simp [cost, Holds]⟩

end Shape

/-! ### Recognizing shapes -/

namespace Constraint

variable {c : Constraint Rat} {x : Nat → Rat}

theorem difference?_spec {i j : Nat} (h : c.difference? = some (i, j)) :
    c.linear.value x = x i - x j ∧ i ∈ c.linear.keys ∧ j ∈ c.linear.keys := by
  rw [difference?] at h
  split at h
  · rename_i k a l b hlist
    have hvalue : c.linear.value x = a * x k + b * x l := by simp [Terms.value, hlist]
    have hkeys : c.linear.keys = [k, l] := by simp [Terms.keys, hlist]
    split_ifs at h with hpos hneg
    · simp only [Bool.and_eq_true, beq_iff_eq] at hpos
      simp only [Option.some.injEq, Prod.mk.injEq] at h
      rw [hvalue, hkeys, hpos.1, hpos.2, ← h.1, ← h.2]
      exact ⟨by ring, by simp, by simp⟩
    · simp only [Bool.and_eq_true, beq_iff_eq] at hneg
      simp only [Option.some.injEq, Prod.mk.injEq] at h
      rw [hvalue, hkeys, hneg.1, hneg.2, ← h.1, ← h.2]
      exact ⟨by ring, by simp, by simp⟩
  · contradiction

/-- An implication says what the constraint says. -/
theorem implication?_spec {s : Shape} (h : c.implication? = some s) (hc : c.isLinear = true) :
    (s.Holds x ↔ c.Holds x) ∧ ∀ i ∈ s.indices, i ∈ c.linear.keys := by
  rw [implication?] at h
  split at h
  · rename_i hrhs
    have hzero : c.rhs = 0 := by simpa using hrhs
    split at h
    · rename_i i j hdifference hrelation
      obtain ⟨hvalue, hi, hj⟩ := difference?_spec (x := x) hdifference
      rw [← Option.some.inj h, Holds, evaluate_of_isLinear hc, hvalue, hzero, hrelation]
      simp [Shape.Holds, Relation.Holds, Shape.indices, hi, hj]
    · rename_i i j hdifference hrelation
      obtain ⟨hvalue, hi, hj⟩ := difference?_spec (x := x) hdifference
      rw [← Option.some.inj h, Holds, evaluate_of_isLinear hc, hvalue, hzero, hrelation]
      simp [Shape.Holds, Relation.Holds, Shape.indices, hi, hj]
    · contradiction
  · contradiction

private theorem value_of_equal_coefficients {l : List (Nat × Rat)} {a : Rat}
    (h : ∀ t ∈ l, t.2 = a) :
    (l.map fun t => t.2 * x t.1).sum = a * ((l.map fun t => t.1).map x).sum := by
  induction l with
  | nil => simp
  | cons t l ih =>
    obtain ⟨ht, hl⟩ := List.forall_mem_cons.mp h
    simp only [List.map_cons, List.sum_cons]
    rw [ih hl, ht]
    ring

theorem flip_holds_iff (r : Relation) (a b : Rat) : r.flip.Holds a (-b) ↔ r.Holds (-a) b := by
  cases r with
  | le => exact neg_le.symm
  | ge => exact le_neg.symm
  | eq => exact neg_eq_iff_eq_neg.symm

/-- A bound on the number of ones says what the constraint says. -/
theorem countBound?_spec {r : Relation} {b : Rat} (h : c.countBound? = some (r, b))
    (hc : c.isLinear = true) : r.Holds (c.linear.keys.map x).sum b ↔ c.Holds x := by
  rw [countBound?] at h
  split at h
  · contradiction
  · rename_i first rest hcoefficients
    split at h
    · rename_i hall
      have hfirst : ∀ t ∈ c.linear.toList, t.2 = first := by
        intro t ht
        have hmem : t.2 ∈ first :: rest := hcoefficients ▸ List.mem_map.mpr ⟨t, ht, rfl⟩
        rcases List.mem_cons.mp hmem with h | h
        · exact h
        · simpa using List.all_eq_true.mp hall _ h
      have hvalue : c.linear.value x = first * (c.linear.keys.map x).sum :=
        value_of_equal_coefficients hfirst
      rw [Holds, evaluate_of_isLinear hc, hvalue]
      split_ifs at h with hone hminus
      · simp only [Option.some.injEq, Prod.mk.injEq] at h
        rw [← h.1, ← h.2, beq_iff_eq.mp hone, one_mul]
      · simp only [Option.some.injEq, Prod.mk.injEq] at h
        rw [← h.1, ← h.2, beq_iff_eq.mp hminus, neg_one_mul]
        exact flip_holds_iff _ _ _
    · contradiction

private theorem sum_complement (vars : List Nat) :
    (vars.map fun i => 1 - x i).sum = vars.length - (vars.map x).sum := by
  induction vars with
  | nil => simp
  | cons i vars ih =>
    rw [List.map_cons, List.sum_cons, ih, List.map_cons, List.sum_cons, List.length_cons]
    push_cast
    ring

/-- A bound on the number of ones or zeros says what the constraint says. -/
theorem cardinality?_spec {s : Shape} (h : c.cardinality? = some s) (hc : c.isLinear = true) :
    (s.Holds x ↔ c.Holds x) ∧ ∀ i ∈ s.indices, i ∈ c.linear.keys := by
  simp only [cardinality?] at h
  split at h
  · contradiction
  · rename_i hsize
    have hlen : c.linear.keys.length = c.linear.size := by simp [Terms.keys, Terms.size]
    split at h
    · rename_i bound hbound
      split_ifs at h with hone
      rw [← countBound?_spec hbound hc, ← Option.some.inj h, beq_iff_eq.mp hone]
      exact ⟨Iff.rfl, fun i hi => hi⟩
    · rename_i bound hbound
      split_ifs at h with hall
      rw [← countBound?_spec hbound hc, ← Option.some.inj h, beq_iff_eq.mp hall]
      refine ⟨?_, fun i hi => hi⟩
      rw [Shape.Holds, Relation.Holds, sum_complement, hlen, Scalar.ofInt_rat, Int.cast_natCast,
        Nat.cast_sub (by omega), Nat.cast_one, sub_le_comm]
    · contradiction

end Constraint

namespace Problem

variable {p : Problem Rat} {c : Constraint Rat} {x : Nat → Rat}

/-- A constraint with a shape of its own is a linear inequality over binary variables that the shape
stands for. -/
theorem shapeOf_spec (h : p.shapeOf c ≠ .generic) :
    c.isLinear = true ∧ (∀ i ∈ (p.shapeOf c).indices, i ∈ c.linear.keys ∧ p.isBinaryAt i = true) ∧
      ((p.shapeOf c).Holds x ↔ c.Holds x) := by
  rw [shapeOf] at h ⊢
  split at h
  · rename_i hcondition
    rw [if_pos hcondition]
    simp only [Bool.and_eq_true, List.all_eq_true, decide_eq_true_eq] at hcondition
    obtain ⟨⟨-, hlinear⟩, hbinary⟩ := hcondition
    have hspec : ∀ s, (c.implication? <|> c.cardinality?) = some s →
        (s.Holds x ↔ c.Holds x) ∧ ∀ i ∈ s.indices, i ∈ c.linear.keys := by
      intro s hs
      cases hi : c.implication? with
      | some s' =>
        rw [hi] at hs
        rw [← Option.some.inj hs]
        exact Constraint.implication?_spec hi hlinear
      | none =>
        rw [hi] at hs
        exact Constraint.cardinality?_spec hs hlinear
    cases hs : (c.implication? <|> c.cardinality?) with
    | none => simp [hs] at h
    | some s =>
      obtain ⟨hholds, hindices⟩ := hspec s hs
      exact ⟨hlinear, fun i hi => ⟨hindices i hi, hbinary i (hindices i hi)⟩, hholds⟩
  · contradiction

end Problem

end QuboReduction

import Mathlib.Algebra.Order.Field.Rat
import QuboReduction.Constraint
import QuboReduction.Polynomial
import QuboReduction.Proofs.Terms

/-!
# Polynomials: the variables they mention and their values

A polynomial is *below* `n` when it mentions only the first `n` variables; this is what the largest
index tells, and then its value depends on the first `n` values only. Over the rational numbers the
value of a polynomial is additive in its coefficients.

## Main definitions

* `QuboReduction.Linear.Below`, `QuboReduction.Quadratic.Below`, `QuboReduction.Polynomial.Below`,
  `QuboReduction.Constraint.Below` — the variables that are mentioned are among the first `n`.
* `QuboReduction.Pair.product` — the value of a product of two variables.

## Main results

* `QuboReduction.Polynomial.below_iff`, `QuboReduction.Constraint.below_iff` — the largest index.
* `QuboReduction.Polynomial.evaluate_congr`, `QuboReduction.Constraint.evaluate_congr` — values
  depend on the variables that are mentioned.
* `QuboReduction.Polynomial.evaluate_addMultiple`, `QuboReduction.Polynomial.evaluate_negate` —
  values of sums and multiples.
-/

namespace QuboReduction

variable {α : Type} [Scalar α] {n k : Nat} {x y : Nat → α}

theorem Terms.total_congr {κ : Type} [Ord κ] {e : Terms κ α} {f g : κ → α → α}
    (h : ∀ t ∈ e.toList, f t.1 t.2 = g t.1 t.2) : e.total f = e.total g := by
  rw [Terms.total]
  congr 1
  exact List.map_congr_left h

/-! ### Linear expressions -/

namespace Linear

variable {e f : Linear α}

/-- The variables of a linear expression are among the first `n`. -/
def Below (e : Linear α) (n : Nat) : Prop := e.Within (· < n)

theorem Below.mono (h : e.Below n) (hk : n ≤ k) : e.Below k :=
  Terms.Within.mono h fun _ hi => Nat.lt_of_lt_of_le hi hk

theorem evaluate_congr (h : e.Below n) (hx : ∀ i < n, x i = y i) : e.evaluate x = e.evaluate y :=
  Terms.total_congr fun t ht => by rw [hx t.1 (h t ht)]

/-- The last key is the largest one, since keys are ascending. -/
theorem below_iff : e.Below n ↔ ∀ i, e.maxIndex? = some i → i < n := by
  have hsorted : e.keys.Pairwise (· < ·) := by
    refine List.pairwise_map.mpr (e.ascending.imp fun h => ?_)
    exact Nat.compare_eq_lt.mp h
  rw [Below, Terms.within_iff_keys]
  constructor
  · exact fun h i hi => h i (List.mem_of_getLast? hi)
  · intro h i hi
    obtain ⟨hne, hlast⟩ : ∃ hne, e.maxIndex? = some (e.keys.getLast hne) :=
      ⟨List.ne_nil_of_mem hi, List.getLast?_eq_some_getLast _⟩
    have hle : i ≤ e.keys.getLast hne := by
      rcases List.mem_iff_append.mp hi with ⟨before, after, hsplit⟩
      rcases List.eq_nil_or_concat after with rfl | ⟨after, last, rfl⟩
      · simp [hsplit]
      · have hlt : i < last := by
          rw [hsplit] at hsorted
          exact (List.pairwise_cons.mp (List.pairwise_append.mp hsorted).2.1).1 last (by simp)
        simpa [hsplit] using hlt.le
    exact Nat.lt_of_le_of_lt hle (h _ hlast)

end Linear

/-! ### Quadratic expressions -/

namespace Quadratic

variable {e : Quadratic α}

/-- The variables of a quadratic expression are among the first `n`. -/
def Below (e : Quadratic α) (n : Nat) : Prop := e.Within fun p => p.high < n

theorem Below.mono (h : e.Below n) (hk : n ≤ k) : e.Below k :=
  Terms.Within.mono h fun _ hi => Nat.lt_of_lt_of_le hi hk

theorem evaluate_congr (h : e.Below n) (hx : ∀ i < n, x i = y i) : e.evaluate x = e.evaluate y :=
  Terms.total_congr fun t ht => by
    have hhigh : t.1.high < n := h t ht
    rw [hx t.1.low (Nat.lt_of_le_of_lt t.1.low_le_high hhigh), hx t.1.high hhigh]

theorem below_iff : e.Below n ↔ ∀ i, e.maxIndex? = some i → i < n := by
  rw [Below, Terms.within_iff_keys]
  rw [maxIndex?]
  constructor
  · intro h i hi
    obtain ⟨p, hp, rfl⟩ := List.mem_map.mp (List.max?_mem hi)
    exact h p hp
  · intro h p hp
    have hmem : p.high ∈ e.keys.map fun p => p.high := List.mem_map.mpr ⟨p, hp, rfl⟩
    cases hmax : (e.keys.map fun p => p.high).max? with
    | none => simp [List.max?_eq_none_iff.mp hmax] at hmem
    | some i => exact Nat.lt_of_le_of_lt ((List.max?_eq_some_iff.mp hmax).2 _ hmem) (h i hmax)

/-- Collecting the products of a quadratic expression gives the expression again. -/
theorem ofProducts_toList (e : Quadratic α) :
    ofProducts (e.toList.map fun t => (t.1.low, t.1.high, t.2)) = e := by
  have hpair : ∀ p : Pair, Pair.of p.low p.high = p := fun p => by
    simp [Pair.of, p.low_le_high]
  rw [ofProducts, List.map_map]
  simpa [Function.comp_def, hpair] using e.ofList_toList

end Quadratic

private theorem forall_max_lt_iff {a b : Option Nat} :
    (∀ i, max a b = some i → i < n) ↔ (∀ i, a = some i → i < n) ∧ ∀ i, b = some i → i < n := by
  cases a <;> cases b <;> simp

/-! ### Polynomials -/

namespace Polynomial

variable {f g : Polynomial α}

/-- The variables of a polynomial are among the first `n`. -/
def Below (f : Polynomial α) (n : Nat) : Prop := f.linear.Below n ∧ f.quadratic.Below n

theorem Below.mono (h : f.Below n) (hk : n ≤ k) : f.Below k := ⟨h.1.mono hk, h.2.mono hk⟩

theorem below_iff : f.Below n ↔ ∀ i, f.maxIndex? = some i → i < n := by
  rw [Below, Linear.below_iff, Quadratic.below_iff, maxIndex?, forall_max_lt_iff]

theorem evaluate_congr (h : f.Below n) (hx : ∀ i < n, x i = y i) : f.evaluate x = f.evaluate y := by
  rw [evaluate, evaluate, Linear.evaluate_congr h.1 hx, Quadratic.evaluate_congr h.2 hx]

theorem below_zero : (zero : Polynomial α).Below n := ⟨Terms.within_empty, Terms.within_empty⟩

theorem Below.negate (h : f.Below n) : f.negate.Below n := ⟨h.1.scale _, h.2.scale _⟩

theorem Below.addMultiple (hf : f.Below n) (hg : g.Below n) (factor : α) :
    (f.addMultiple factor g).Below n :=
  ⟨hf.1.add (hg.1.scale factor), hf.2.add (hg.2.scale factor)⟩

end Polynomial

/-! ### Constraints -/

namespace Constraint

variable {c : Constraint α}

/-- The variables of a constraint are among the first `n`. -/
def Below (c : Constraint α) (n : Nat) : Prop := c.linear.Below n ∧ c.quadratic.Below n

theorem Below.mono (h : c.Below n) (hk : n ≤ k) : c.Below k := ⟨h.1.mono hk, h.2.mono hk⟩

theorem below_iff : c.Below n ↔ ∀ i, c.maxIndex? = some i → i < n := by
  rw [Below, Linear.below_iff, Quadratic.below_iff, maxIndex?, forall_max_lt_iff]

theorem evaluate_congr (h : c.Below n) (hx : ∀ i < n, x i = y i) : c.evaluate x = c.evaluate y := by
  rw [evaluate, evaluate, Linear.evaluate_congr h.1 hx, Quadratic.evaluate_congr h.2 hx]

theorem toList_quadratic (hc : c.isLinear = true) : c.quadratic.toList = [] := by
  simpa [isLinear, Terms.isEmpty] using hc

end Constraint

/-! ### Values over the rational numbers -/

section Values

variable {x : Nat → Rat}

/-- The value of a product of two variables. -/
def Pair.product (x : Nat → Rat) (p : Pair) : Rat := x p.low * x p.high

@[simp] theorem Pair.product_of (x : Nat → Rat) (i j : Nat) :
    (Pair.of i j).product x = x i * x j := by
  rw [Pair.product, Pair.of]
  rcases Nat.le_total i j with h | h
  · simp [h]
  · simp [h, mul_comm]

theorem Linear.evaluate_eq (e : Linear Rat) : e.evaluate x = e.value x := e.total_eq_value x

theorem Quadratic.evaluate_eq (e : Quadratic Rat) : e.evaluate x = e.value (Pair.product x) := by
  rw [← e.total_eq_value]
  exact Terms.total_congr fun t _ => mul_assoc _ _ _

@[simp] theorem Quadratic.value_ofProducts (terms : List (Nat × Nat × Rat)) :
    (ofProducts terms).value (Pair.product x) =
      (terms.map fun t => t.2.2 * (x t.1 * x t.2.1)).sum := by
  simp [ofProducts, Function.comp_def]

namespace Polynomial

/-- The value of a polynomial is the sum of the values of its three parts. -/
theorem evaluate_eq (f : Polynomial Rat) :
    f.evaluate x = f.constant + f.linear.value x + f.quadratic.value (Pair.product x) := by
  rw [evaluate, Linear.evaluate_eq, Quadratic.evaluate_eq]

@[simp] theorem evaluate_negate (f : Polynomial Rat) : f.negate.evaluate x = -f.evaluate x := by
  simp only [evaluate_eq, negate, Terms.value_scale]
  ring

@[simp] theorem evaluate_addMultiple (f g : Polynomial Rat) (factor : Rat) :
    (f.addMultiple factor g).evaluate x = f.evaluate x + factor * g.evaluate x := by
  simp only [evaluate_eq, addMultiple, Terms.value_add, Terms.value_scale]
  ring

end Polynomial

theorem Constraint.evaluate_eq (c : Constraint Rat) :
    c.evaluate x = c.linear.value x + c.quadratic.value (Pair.product x) := by
  rw [evaluate, Linear.evaluate_eq, Quadratic.evaluate_eq]

theorem Constraint.evaluate_of_isLinear {c : Constraint Rat} (hc : c.isLinear = true) :
    c.evaluate x = c.linear.value x := by
  simp [evaluate_eq, Terms.value, toList_quadratic hc]

end Values

end QuboReduction

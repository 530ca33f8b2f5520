import Mathlib.Algebra.BigOperators.Group.List.Basic
import Mathlib.Algebra.Order.Field.Rat
import Mathlib.Data.Rat.Floor
import Mathlib.Tactic.Linarith
import Mathlib.Tactic.Ring
import QuboReduction.Scalar.Rational

/-!
# Exact arithmetic

Over the rational numbers the operations of scalars are those of an ordered field: sums do not
depend on where they start, the smaller and the larger of two numbers are `min` and `max`, and
rounding is rounding to an integer.

## Main definitions

* `QuboReduction.IsInteger` — rational numbers that are integers.

## Main results

* `QuboReduction.Scalar.sum_rat` — the sum of a list.
* `QuboReduction.Scalar.isIntegral_iff` — the test for integers.
* `QuboReduction.Scalar.truncate_intCast` — integers are their own integer parts.
-/

namespace QuboReduction

/-! ### Integers among the rational numbers -/

/-- A rational number that is an integer. -/
def IsInteger (a : Rat) : Prop := ∃ n : Int, a = n

namespace IsInteger

variable {a b : Rat}

@[simp] theorem intCast (n : Int) : IsInteger (n : Rat) := ⟨n, rfl⟩

@[simp] theorem zero : IsInteger 0 := ⟨0, by simp⟩

@[simp] theorem one : IsInteger 1 := ⟨1, by simp⟩

theorem add (ha : IsInteger a) (hb : IsInteger b) : IsInteger (a + b) := by
  obtain ⟨m, rfl⟩ := ha
  obtain ⟨n, rfl⟩ := hb
  exact ⟨m + n, by push_cast; rfl⟩

theorem mul (ha : IsInteger a) (hb : IsInteger b) : IsInteger (a * b) := by
  obtain ⟨m, rfl⟩ := ha
  obtain ⟨n, rfl⟩ := hb
  exact ⟨m * n, by push_cast; rfl⟩

theorem neg (ha : IsInteger a) : IsInteger (-a) := by
  obtain ⟨m, rfl⟩ := ha
  exact ⟨-m, by push_cast; rfl⟩

theorem sub (ha : IsInteger a) (hb : IsInteger b) : IsInteger (a - b) := by
  rw [sub_eq_add_neg]
  exact ha.add hb.neg

theorem sum {l : List Rat} (h : ∀ a ∈ l, IsInteger a) : IsInteger l.sum := by
  induction l with
  | nil => simp
  | cons a l ih =>
    rw [List.sum_cons]
    exact (h a List.mem_cons_self).add (ih fun b hb => h b (List.mem_cons_of_mem _ hb))

/-- An integer that is positive is at least one. -/
theorem one_le (ha : IsInteger a) (hpos : 0 < a) : 1 ≤ a := by
  obtain ⟨n, rfl⟩ := ha
  exact_mod_cast hpos

end IsInteger

/-! ### The operations of scalars -/

namespace Scalar

@[simp] theorem sum_rat (xs : List Rat) : Scalar.sum xs = xs.sum := by
  rw [List.sum_eq_foldl]
  rfl

@[simp] theorem least_rat (a b : Rat) : Scalar.least a b = min a b := by
  rw [Scalar.least]
  split
  · rename_i h
    exact (min_eq_left h.le).symm
  · rename_i h
    simpa using not_lt.mp h

@[simp] theorem greatest_rat (a b : Rat) : Scalar.greatest a b = max a b := by
  rw [Scalar.greatest]
  split
  · rename_i h
    exact (max_eq_left h.le).symm
  · rename_i h
    simpa using not_lt.mp h

@[simp] theorem ofInt_rat (n : Int) : (Scalar.ofInt n : Rat) = n := rfl

@[simp] theorem abs_rat (a : Rat) : Scalar.abs a = |a| := by
  change (if a < 0 then -a else a) = |a|
  split
  · rename_i h
    exact (abs_of_neg h).symm
  · rename_i h
    exact (abs_of_nonneg (not_lt.mp h)).symm

@[simp] theorem positivePart_rat (a : Rat) : Scalar.positivePart a = max a 0 := by
  rw [Scalar.positivePart]
  split
  · rename_i h
    exact (max_eq_left h.le).symm
  · rename_i h
    exact (max_eq_right (not_lt.mp h)).symm

@[simp] theorem floor_rat (a : Rat) : Scalar.floor a = (⌊a⌋ : Rat) := rfl

@[simp] theorem ceil_rat (a : Rat) : Scalar.ceil a = (⌈a⌉ : Rat) := by
  change ((a.ceil : Int) : Rat) = _
  rw [Int.cast_inj, Rat.ceil_eq_neg_floor_neg]
  rfl

@[simp] theorem isFinite_rat (a : Rat) : Scalar.isFinite a = true := rfl

theorem isIntegral_iff {a : Rat} : Scalar.isIntegral a = true ↔ IsInteger a := by
  simp only [Scalar.isIntegral, isFinite_rat, Bool.true_and, floor_rat, beq_iff_eq]
  constructor
  · intro h
    exact ⟨⌊a⌋, h.symm⟩
  · rintro ⟨n, rfl⟩
    simp

instance : DecidablePred IsInteger := fun _ => decidable_of_iff _ isIntegral_iff

@[simp] theorem truncate_intCast (n : Int) : Scalar.truncate (n : Rat) = n := by
  change (if (n : Rat) < 0 then (n : Rat).ceil else (n : Rat).floor) = n
  split <;> simp

end Scalar

end QuboReduction

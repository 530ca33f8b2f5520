import Mathlib.Order.WithBot
import QuboReduction.Proofs.Unordered

/-!
# The order of doubles

The doubles other than the value that is not a number are ordered like the rational numbers with an
infinity at each end. Two zeros of different signs stand at the same place. A comparison of doubles
is one of these places, so it is transitive and total among numbers.

## Main definitions

* `QuboReduction.Binary64.extended` — the place of a double in the order.

## Main results

* `QuboReduction.Binary64.compare_eq_extended` — numbers are compared by their places.
* `QuboReduction.Binary64.lt_iff_extended_lt`, `QuboReduction.Binary64.le_iff_extended_le`,
  `QuboReduction.Binary64.beq_iff_extended_eq` — the three comparisons.
* `QuboReduction.Binary64.isFinite_clamp` — numbers in a finite range are finite.
-/

open Float.Model UnpackedFloat

namespace QuboReduction

namespace Binary64

variable {x y : Float}

/-- The place of a double among the rational numbers and two infinities; what is not a number has
none, and stands at zero. -/
def extended (x : Float) : WithBot (WithTop Rat) :=
  match x.toModel.unpack with
  | .infinity .negative => ⊥
  | .infinity .positive => ⊤
  | _ => ((value x : WithTop Rat) : WithBot (WithTop Rat))

theorem extended_of_isFinite (hx : x.isFinite = true) :
    extended x = ((value x : WithTop Rat) : WithBot (WithTop Rat)) := by
  change x.toModel.unpack.isFinite = true at hx
  rw [extended]
  split
  · rename_i h
    rw [h] at hx
    contradiction
  · rename_i h
    rw [h] at hx
    contradiction
  · rfl

/-- A number is finite or one of the two infinities. -/
theorem isFinite_or_infinity (hx : x.isNaN = false) :
    x.isFinite = true ∨ (x.toModel.unpack = .infinity .negative ∧ extended x = ⊥) ∨
      (x.toModel.unpack = .infinity .positive ∧ extended x = ⊤) := by
  change x.toModel.unpack.isNaN = false at hx
  change x.toModel.unpack.isFinite = true ∨ _
  rw [extended]
  cases hcase : x.toModel.unpack with
  | notANumber =>
    rw [hcase] at hx
    contradiction
  | infinity s => cases s <;> simp
  | zero s => exact Or.inl rfl
  | finite s m e hm => exact Or.inl rfl

/-- An infinity is below or above every finite double. -/
private theorem compare_infinity (hy : y.isFinite = true) (s : Sign) :
    UnpackedFloat.compare (.infinity s) y.toModel.unpack =
      some (match s with | .negative => .lt | .positive => .gt) := by
  change y.toModel.unpack.isFinite = true at hy
  cases hcase : y.toModel.unpack with
  | notANumber =>
    rw [hcase] at hy
    contradiction
  | infinity s' =>
    rw [hcase] at hy
    contradiction
  | zero s' => cases s <;> rfl
  | finite s' m e hm => cases s <;> rfl

/-- **Numbers are compared by their places.** -/
theorem compare_eq_extended (hx : x.isNaN = false) (hy : y.isNaN = false) :
    UnpackedFloat.compare x.toModel.unpack y.toModel.unpack =
      some (compare (extended x) (extended y)) := by
  rcases isFinite_or_infinity hx with hx | ⟨hux, hx⟩ | ⟨hux, hx⟩ <;>
    rcases isFinite_or_infinity hy with hy | ⟨huy, hy⟩ | ⟨huy, hy⟩
  · rw [compare_eq (canonical hx) (canonical hy), ← value_eq hx, ← value_eq hy,
      extended_of_isFinite hx, extended_of_isFinite hy]
    simp only [compare, compareOfLessAndEq, WithBot.coe_lt_coe, WithTop.coe_lt_coe,
      WithBot.coe_inj, WithTop.coe_inj]
  · rw [Unpacked.compare_swap, huy, compare_infinity hx, extended_of_isFinite hx, hy]
    exact congrArg some (compare_gt_iff_gt.mpr (WithBot.bot_lt_coe _)).symm
  · rw [Unpacked.compare_swap, huy, compare_infinity hx, extended_of_isFinite hx, hy]
    exact congrArg some
      (compare_lt_iff_lt.mpr (WithBot.coe_lt_coe.mpr (WithTop.coe_lt_top _))).symm
  · rw [hux, compare_infinity hy, extended_of_isFinite hy, hx]
    exact congrArg some (compare_lt_iff_lt.mpr (WithBot.bot_lt_coe _)).symm
  · rw [hux, huy, hx, hy]
    exact congrArg some (compare_eq_iff_eq.mpr rfl).symm
  · rw [hux, huy, hx, hy]
    exact congrArg some (compare_lt_iff_lt.mpr bot_lt_top).symm
  · rw [hux, compare_infinity hy, extended_of_isFinite hy, hx]
    exact congrArg some
      (compare_gt_iff_gt.mpr (WithBot.coe_lt_coe.mpr (WithTop.coe_lt_top _))).symm
  · rw [hux, huy, hx, hy]
    exact congrArg some (compare_gt_iff_gt.mpr bot_lt_top).symm
  · rw [hux, huy, hx, hy]
    exact congrArg some (compare_eq_iff_eq.mpr rfl).symm

theorem lt_iff_extended_lt (hx : x.isNaN = false) (hy : y.isNaN = false) :
    x < y ↔ extended x < extended y := by
  change decide (UnpackedFloat.lt x.toModel.unpack y.toModel.unpack = true) = true ↔ _
  rw [decide_eq_true_iff, UnpackedFloat.lt, compare_eq_extended hx hy, ← compare_lt_iff_lt]
  simp

theorem le_iff_extended_le (hx : x.isNaN = false) (hy : y.isNaN = false) :
    x ≤ y ↔ extended x ≤ extended y := by
  change decide (UnpackedFloat.le x.toModel.unpack y.toModel.unpack = true) = true ↔ _
  rw [decide_eq_true_iff, UnpackedFloat.le, compare_eq_extended hx hy, ← compare_le_iff_le]
  simp [Ordering.isLE_iff_ne_gt]

/-- What is not a number is not equal to anything. -/
theorem isNaN_of_beq (h : (x == y) = true) : x.isNaN = false ∧ y.isNaN = false := by
  rw [← Bool.not_eq_true, ← Bool.not_eq_true, ← not_or]
  change ¬(x.toModel.unpack.isNaN = true ∨ y.toModel.unpack.isNaN = true)
  change UnpackedFloat.beq x.toModel.unpack y.toModel.unpack = true at h
  rw [← Unpacked.compare_eq_none_iff]
  intro hnone
  rw [UnpackedFloat.beq, hnone] at h
  contradiction

theorem beq_iff_extended_eq (hx : x.isNaN = false) (hy : y.isNaN = false) :
    (x == y) = true ↔ extended x = extended y := by
  change UnpackedFloat.beq x.toModel.unpack y.toModel.unpack = true ↔ _
  rw [UnpackedFloat.beq, compare_eq_extended hx hy, ← compare_eq_iff_eq]
  simp

/-! ### Ranges -/

/-- A number cut to a finite range is finite. -/
theorem isFinite_clamp {lower upper : Float} (hlower : lower.isFinite = true)
    (hupper : upper.isFinite = true) (hx : x.isNaN = false) :
    (Scalar.clamp lower upper x).isFinite = true := by
  rw [Scalar.clamp]
  split_ifs with hbelow habove habove
  · exact hupper
  · exact hlower
  · exact hupper
  -- neither below the range nor above it, a number is not an infinity
  · rw [lt_iff_extended_lt hx (isNaN_of_isFinite hlower), extended_of_isFinite hlower] at hbelow
    rw [lt_iff_extended_lt (isNaN_of_isFinite hupper) hx, extended_of_isFinite hupper] at habove
    rcases isFinite_or_infinity hx with hfinite | ⟨-, hbot⟩ | ⟨-, htop⟩
    · exact hfinite
    · exact absurd (hbot ▸ WithBot.bot_lt_coe _) hbelow
    · exact absurd (htop ▸ WithBot.coe_lt_coe.mpr (WithTop.coe_lt_top _)) habove

end Binary64

end QuboReduction

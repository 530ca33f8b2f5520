import QuboReduction.Proofs.Doubles
import QuboReduction.Proofs.Exact

/-!
# Doubles that are integers

A double is found to be an integer when rounding it down does not change it, and then its number is
one. Integers that are not too large are recovered from doubles as they are, and rounding a double
gives an integer.

## Main results

* `QuboReduction.Binary64.beq_iff_value_eq` — equal doubles stand for equal numbers.
* `QuboReduction.Binary64.isInteger_roundBy`, `QuboReduction.Binary64.value_floor`,
  `QuboReduction.Binary64.value_ceil` — rounding to an integer.
* `QuboReduction.Binary64.floor_atMost`, `QuboReduction.Binary64.ceil_atMost` — rounding keeps
  bounds.
* `QuboReduction.Binary64.isInteger_of_isIntegral` — what is found to be an integer is one.
-/

namespace QuboReduction

namespace Binary64

open Float.Model (UnpackedFloat)

variable {x y : Float} {n : Int}

theorem beq_iff_value_eq (hx : x.isFinite = true) (hy : y.isFinite = true) :
    (x == y) = true ↔ value x = value y := by
  change UnpackedFloat.beq x.toModel.unpack y.toModel.unpack = true ↔ _
  rw [UnpackedFloat.beq, compare_eq (canonical hx) (canonical hy), ← value_eq hx, ← value_eq hy,
    ← compare_eq_iff_eq]
  simp

theorem isFinite_zero : (0.0 : Float).isFinite = true := (zero_atMost le_rfl).isFinite

@[simp] theorem value_zero : value 0.0 = 0 := abs_nonpos_iff.mp (zero_atMost le_rfl).abs_le

/-- The integer part of a number that is an integer is that integer. -/
theorem integerPart_of_value_eq (hx : x.isFinite = true) (h : value x = n) : integerPart x = n :=
  le_antisymm (integerPart_le hx h.le) (le_integerPart hx h.ge)

/-- Integers up to `2 ^ 53` are doubles. -/
theorem ofInt_spec (hn : |n| ≤ 2 ^ 53) :
    (Float.ofInt n).isFinite = true ∧ value (Float.ofInt n) = n := by
  refine ⟨(ofInt_atMost (.two_pow (k := 53) (by omega)) (by exact_mod_cast hn)).isFinite, ?_⟩
  cases n with
  | ofNat n => exact value_ofNat (by simpa using Int.toNat_le_toNat hn)
  | negSucc n =>
    rw [Int.negSucc_eq, abs_neg] at hn
    have hle : n + 1 ≤ 2 ^ 53 := by exact_mod_cast (le_abs_self _).trans hn
    have hcast : ((n + 1 : Nat) : Rat) ≤ 2 ^ 53 := by exact_mod_cast hle
    have hneg := value_neg (ofNat_atMost (.two_pow (k := 53) (by omega)) hcast).isFinite
    refine hneg.2.trans ?_
    rw [value_ofNat hle, Int.cast_negSucc]

/-- **Rounding to an integer** gives one, as long as the rule does not give larger integers than it
is given. -/
theorem isInteger_roundBy {rule : Int → Nat → Int} (hrule : ∀ n d, |rule n d| ≤ |n|)
    (hx : x.isFinite = true) :
    (roundBy rule x).isFinite = true ∧ IsInteger (value (roundBy rule x)) := by
  rw [roundBy]
  dsimp only
  split
  · split
    · split
      · obtain ⟨hfinite, hneg⟩ := value_neg isFinite_zero
        exact ⟨hfinite, 0, by simp [hneg]⟩
      · exact ⟨isFinite_zero, 0, by simp⟩
    · obtain ⟨hfinite, hvalue⟩ := ofInt_spec ((hrule _ _).trans (abs_signed_le x))
      exact ⟨hfinite, _, hvalue⟩
  · rename_i hexponent
    rw [hx, Bool.true_and, decide_eq_true_iff, not_lt] at hexponent
    exact ⟨hx, _, value_of_nonneg hexponent⟩

/-- Rounding a double rounds the number that it stands for, for a rule that is given by a rounding
of rational numbers and does not change integers. -/
private theorem value_roundBy {rule : Int → Nat → Int} {f : Rat → Int}
    (hrule : ∀ (n : Int) (d : Nat), rule n d = f (n / d)) (hf : ∀ n : Int, f n = n)
    (habs : ∀ n d, |rule n d| ≤ |n|) (hx : x.isFinite = true) :
    value (roundBy rule x) = f (value x) := by
  rw [roundBy]
  dsimp only
  split
  · rename_i hexponent
    rw [hx, Bool.true_and, decide_eq_true_iff] at hexponent
    have hquotient : value x = (ofFloat x).signed / denominator x := by
      rw [eq_div_iff (by exact_mod_cast (denominator_pos x).ne'), value_mul_denominator hexponent]
    have hround : rule (ofFloat x).signed (Nat.pow 2 (-(ofFloat x).exponent).toNat) =
        f (value x) := by
      rw [hrule, hquotient, denominator]
    rw [← hround]
    split
    · rename_i hzero
      rw [hzero]
      split
      · simp [value_neg isFinite_zero]
      · simp
    · exact (ofInt_spec ((habs _ _).trans (abs_signed_le x))).2
  · rename_i hexponent
    rw [hx, Bool.true_and, decide_eq_true_iff, not_lt] at hexponent
    rw [value_of_nonneg hexponent, hf]

theorem value_floor (hx : x.isFinite = true) : value (Scalar.floor x) = ⌊value x⌋ := by
  refine value_roundBy (fun n d => ?_) Int.floor_intCast abs_floorDiv_le hx
  rw [floorDiv, Rat.floor_intCast_div_natCast, Int.fdiv_eq_ediv_of_nonneg n (Int.natCast_nonneg d)]

theorem value_ceil (hx : x.isFinite = true) : value (Scalar.ceil x) = ⌈value x⌉ := by
  refine value_roundBy (fun n d => ?_) Int.ceil_intCast abs_ceilDiv_le hx
  rw [ceilDiv, ← neg_inj, neg_neg, ← Int.floor_neg, ← neg_div, ← Int.cast_neg,
    Rat.floor_intCast_div_natCast, Int.fdiv_eq_ediv_of_nonneg _ (Int.natCast_nonneg d)]

/-- Rounding down does not leave a bound that is an integer. -/
theorem floor_atMost {k : Nat} (hx : AtMost (2 ^ k) x) : AtMost (2 ^ k) (Scalar.floor x) := by
  obtain ⟨hlower, hupper⟩ := abs_le.mp hx.abs_le
  refine ⟨(isInteger_roundBy abs_floorDiv_le hx.isFinite).1, ?_⟩
  rw [value_floor hx.isFinite, abs_le]
  have hle : (-2 ^ k : Int) ≤ ⌊value x⌋ := Int.le_floor.mpr (by exact_mod_cast hlower)
  exact ⟨by exact_mod_cast hle, (Int.floor_le _).trans hupper⟩

/-- Rounding up does not leave a bound that is an integer. -/
theorem ceil_atMost {k : Nat} (hx : AtMost (2 ^ k) x) : AtMost (2 ^ k) (Scalar.ceil x) := by
  obtain ⟨hlower, hupper⟩ := abs_le.mp hx.abs_le
  refine ⟨(isInteger_roundBy abs_ceilDiv_le hx.isFinite).1, ?_⟩
  rw [value_ceil hx.isFinite, abs_le]
  have hle : ⌈value x⌉ ≤ (2 ^ k : Int) := Int.ceil_le.mpr (by exact_mod_cast hupper)
  exact ⟨hlower.trans (Int.le_ceil _), by exact_mod_cast hle⟩

/-- **Integral doubles.** A double that is found to be an integer is finite and stands for one. -/
theorem isInteger_of_isIntegral (h : Scalar.isIntegral x = true) :
    x.isFinite = true ∧ IsInteger (value x) := by
  obtain ⟨hx, hfloor⟩ := Bool.and_eq_true_iff.mp h
  obtain ⟨hfinite, hinteger⟩ := isInteger_roundBy abs_floorDiv_le hx
  exact ⟨hx, (beq_iff_value_eq hfinite hx).mp hfloor ▸ hinteger⟩

end Binary64

end QuboReduction

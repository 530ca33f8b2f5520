import QuboReduction.Proofs.IntegralDoubles

/-!
# Doubles that are not finite

Besides the finite doubles there are two infinities and one value that is not a number. Packing
keeps them, so what an operation gives for them can be read off its cases. All doubles but the value
that is not a number are in one order, and no comparison with that value holds: of two comparisons
that exclude each other both may fail.

## Main results

* `QuboReduction.Unpacked.isNaN_unpack_pack`, `QuboReduction.Unpacked.isFinite_of_unpack_pack` —
  packing keeps what is not finite.
* `QuboReduction.Binary64.not_lt_iff` — the negation of a strict comparison.
* `QuboReduction.Binary64.isNaN_sub`, `QuboReduction.Binary64.isNaN_sub_of_isNaN` — differences that
  are not numbers.
* `QuboReduction.Binary64.isNaN_ofInt`, `QuboReduction.Binary64.isNaN_roundBy` — integers are
  numbers.
* `QuboReduction.Binary64.isFinite_of_beq`, `QuboReduction.Binary64.isFinite_of_mul`,
  `QuboReduction.Binary64.isFinite_of_neg` — what is not finite stays so.
-/

open Float.Model Float.Model.UnpackedFloat

namespace QuboReduction

namespace Unpacked

variable {u v : UnpackedFloat}

theorem Canonical.isFinite (hu : Canonical u) : u.isFinite = true := by
  rcases hu.cases with ⟨s, rfl⟩ | ⟨s, m, e, hm, rfl⟩ <;> rfl

theorem isNaN_of_isFinite (hu : u.isFinite = true) : u.isNaN = false := by
  cases u <;> first | rfl | contradiction

/-! ### Packing -/

/-- At the last exponent field there are the infinities and the value that is not a number. -/
private theorem unpack_last (s : Sign) (m : BitVec 52) :
    UnpackedFloat.unpack .binary64 (packComponents .binary64 s (-1#11) m) =
      if m = 0#52 then .infinity s else .notANumber := by
  have hexponent : @unpackExponent .binary64 (packComponents .binary64 s (-1#11) m) = -1#11 :=
    unpackExponent_packComponents
  have hmantissa : @unpackMantissa .binary64 (packComponents .binary64 s (-1#11) m) = m :=
    unpackMantissa_packComponents
  have hsign :
      Sign.ofBitVec (@unpackSign .binary64 (packComponents .binary64 s (-1#11) m)) = s := by
    rw [unpackSign_packComponents, Sign.ofBitVec_toBitVec]
  simp only [UnpackedFloat.unpack, hexponent, hmantissa, hsign]
  simp

/-- At any other exponent field there are finite doubles. -/
private theorem isFinite_unpack {e : BitVec 11} (he : e ≠ -1#11) (s : Sign) (m : BitVec 52) :
    (UnpackedFloat.unpack .binary64 (packComponents .binary64 s e m)).isFinite = true := by
  have hexponent : @unpackExponent .binary64 (packComponents .binary64 s e m) = e :=
    unpackExponent_packComponents
  simp only [UnpackedFloat.unpack, hexponent]
  rw [if_neg (by exact he)]
  split
  · split <;> rfl
  · rfl

theorem unpack_pack_infinity (s : Sign) :
    UnpackedFloat.unpack .binary64 (UnpackedFloat.pack .binary64 (.infinity s)) = .infinity s := by
  exact unpack_last s 0#52

theorem unpack_pack_notANumber :
    UnpackedFloat.unpack .binary64 (UnpackedFloat.pack .binary64 .notANumber) = .notANumber := by
  exact (unpack_last _ _).trans (if_neg (by decide))

/-- Packing does not make anything the value that is not a number. -/
theorem isNaN_unpack_pack (u : UnpackedFloat) :
    (UnpackedFloat.unpack .binary64 (UnpackedFloat.pack .binary64 u)).isNaN = u.isNaN := by
  cases u with
  | notANumber => rw [unpack_pack_notANumber]
  | infinity s => rw [unpack_pack_infinity]
  | zero s => rw [unpack_pack_zero]
  | finite s m e hm =>
    rw [pack_finite]
    split
    · rw [unpack_last, if_pos rfl]
      rfl
    · rename_i hexponent
      split
      · refine isNaN_of_isFinite (isFinite_unpack (fun heq => ?_) s _)
        have hfield : (e + 1075).toNat % 2 ^ 11 = 2047 := by
          simpa using congrArg BitVec.toNat heq
        omega
      · exact isNaN_of_isFinite (isFinite_unpack (by decide) s _)

/-- Packing does not make anything finite. -/
theorem isFinite_of_unpack_pack
    (h : (UnpackedFloat.unpack .binary64 (UnpackedFloat.pack .binary64 u)).isFinite = true) :
    u.isFinite = true := by
  cases u with
  | notANumber => rwa [unpack_pack_notANumber] at h
  | infinity s => rwa [unpack_pack_infinity] at h
  | zero s => rfl
  | finite s m e hm => rfl

/-! ### Comparing -/

/-- Two unpacked doubles are compared in both directions, or one of them is not a number. -/
theorem compare_swap (u v : UnpackedFloat) :
    UnpackedFloat.compare v u = (UnpackedFloat.compare u v).map Ordering.swap := by
  cases u with
  | notANumber => cases v <;> rfl
  | infinity s =>
    cases v with
    | infinity s' => cases s <;> cases s' <;> rfl
    | _ => cases s <;> rfl
  | zero s =>
    cases v with
    | finite s' => cases s' <;> rfl
    | infinity s' => cases s' <;> rfl
    | _ => rfl
  | finite s m e hm =>
    cases v with
    | notANumber => cases s <;> rfl
    | infinity s' => cases s <;> cases s' <;> rfl
    | zero s' => cases s <;> rfl
    | finite s' n f hn =>
      have hswap : (compare f e).then (compare n m) =
          ((compare e f).then (compare m n)).swap := by
        rw [Ordering.swap_then, ← Std.OrientedCmp.eq_swap, ← Std.OrientedCmp.eq_swap]
      cases s <;> cases s'
      case negative.positive => rfl
      case positive.negative => rfl
      all_goals simp [UnpackedFloat.compare, hswap]

theorem compare_eq_none_iff :
    UnpackedFloat.compare u v = none ↔ u.isNaN = true ∨ v.isNaN = true := by
  cases u with
  | notANumber => cases v <;> simp [UnpackedFloat.compare, UnpackedFloat.isNaN]
  | infinity s => cases v <;> cases s <;> simp [UnpackedFloat.compare, UnpackedFloat.isNaN]
  | zero s =>
    cases v with
    | infinity s' => cases s' <;> simp [UnpackedFloat.compare, UnpackedFloat.isNaN]
    | finite s' => cases s' <;> simp [UnpackedFloat.compare, UnpackedFloat.isNaN]
    | _ => simp [UnpackedFloat.compare, UnpackedFloat.isNaN]
  | finite s m e hm =>
    cases v with
    | infinity s' => cases s <;> cases s' <;> simp [UnpackedFloat.compare, UnpackedFloat.isNaN]
    | finite s' => cases s <;> cases s' <;> simp [UnpackedFloat.compare, UnpackedFloat.isNaN]
    | _ => cases s <;> simp [UnpackedFloat.compare, UnpackedFloat.isNaN]

/-- Only what is finite is equal to what is finite. -/
theorem isFinite_of_compare_eq (h : UnpackedFloat.compare u v = some .eq) (hv : Canonical v) :
    u.isFinite = true := by
  rcases hv.cases with ⟨s', rfl⟩ | ⟨s', n, f, hn, rfl⟩ <;> cases u with
  | notANumber => contradiction
  | infinity s => cases s <;> simp [UnpackedFloat.compare] at h
  | zero s => rfl
  | finite s m e hm => rfl

/-! ### Operations -/

/-- Adding a finite double does not make anything the value that is not a number. -/
theorem isNaN_add (hu : u.isFinite = true → Canonical u) (hv : Canonical v) :
    (UnpackedFloat.add .binary64 u v).isNaN = u.isNaN := by
  by_cases hfinite : u.isFinite = true
  · rw [isNaN_of_isFinite hfinite, isNaN_of_isFinite (add_spec (hu hfinite) hv).1.isFinite]
  · cases u with
    | notANumber => rfl
    | infinity s => rcases hv.cases with ⟨s', rfl⟩ | ⟨s', n, f, hn, rfl⟩ <;> rfl
    | zero s => exact absurd rfl hfinite
    | finite s m e hm => exact absurd rfl hfinite

/-- A product is finite only if its factors are. -/
theorem isFinite_of_mul (h : (UnpackedFloat.mul .binary64 u v).isFinite = true) :
    u.isFinite = true := by
  cases u with
  | notANumber => exact h
  | infinity s => cases v <;> exact h
  | zero s => rfl
  | finite s m e hm => rfl

end Unpacked

namespace Binary64

open Unpacked (compare_swap compare_eq_none_iff isNaN_unpack_pack isFinite_of_unpack_pack)

variable {x y : Float}

/-! ### Doubles that are not numbers -/

theorem isNaN_of_isFinite (hx : x.isFinite = true) : x.isNaN = false :=
  Unpacked.isNaN_of_isFinite hx

/-- Of two doubles that are numbers one is not above the other, and comparisons with what is not a
number fail. -/
theorem not_lt_iff : ¬x < y ↔ y ≤ x ∨ x.isNaN = true ∨ y.isNaN = true := by
  change ¬decide (UnpackedFloat.lt x.toModel.unpack y.toModel.unpack = true) = true ↔
    decide (UnpackedFloat.le y.toModel.unpack x.toModel.unpack = true) = true ∨
      x.toModel.unpack.isNaN = true ∨ y.toModel.unpack.isNaN = true
  rw [decide_eq_true_iff, decide_eq_true_iff, ← compare_eq_none_iff, UnpackedFloat.lt,
    UnpackedFloat.le, compare_swap x.toModel.unpack]
  cases UnpackedFloat.compare x.toModel.unpack y.toModel.unpack with
  | none => simp
  | some o => cases o <;> simp

/-- Only numbers are below one another. -/
theorem isNaN_of_lt (h : x < y) : x.isNaN = false ∧ y.isNaN = false := by
  rw [← Bool.not_eq_true, ← Bool.not_eq_true, ← not_or]
  exact fun hnan => not_lt_iff.mpr (Or.inr hnan) h

theorem not_le_of_isNaN (h : x.isNaN = true ∨ y.isNaN = true) : ¬x ≤ y := by
  change ¬decide (UnpackedFloat.le x.toModel.unpack y.toModel.unpack = true) = true
  rw [decide_eq_true_iff, UnpackedFloat.le, compare_eq_none_iff.mpr h]
  simp

theorem isNaN_abs (x : Float) : x.abs.isNaN = x.isNaN := by
  refine (isNaN_unpack_pack (UnpackedFloat.abs x.toModel.unpack)).trans ?_
  change _ = x.toModel.unpack.isNaN
  cases x.toModel.unpack <;> rfl

/-- Taking away a finite double does not make anything the value that is not a number. -/
theorem isNaN_sub (hy : y.isFinite = true) : (x - y).isNaN = x.isNaN := by
  refine (isNaN_unpack_pack (UnpackedFloat.sub .binary64 _ _)).trans ?_
  rw [Unpacked.sub_eq_add_neg]
  exact Unpacked.isNaN_add canonical (Unpacked.neg_spec (canonical hy)).1

/-- Nothing makes what is not a number a number again. -/
theorem isNaN_sub_of_isNaN (hx : x.isNaN = true) : (x - y).isNaN = true := by
  refine (isNaN_unpack_pack (UnpackedFloat.sub .binary64 _ _)).trans ?_
  change x.toModel.unpack.isNaN = true at hx
  cases hcase : x.toModel.unpack with
  | notANumber => rfl
  | _ =>
    rw [hcase] at hx
    contradiction

theorem isNaN_neg (x : Float) : (-x).isNaN = x.isNaN := by
  refine (isNaN_unpack_pack (UnpackedFloat.neg x.toModel.unpack)).trans ?_
  change _ = x.toModel.unpack.isNaN
  cases x.toModel.unpack <;> rfl

/-- Integers are rounded to numbers, even if they are too large to be finite. -/
theorem isNaN_ofInt (n : Int) : (Float.ofInt n).isNaN = false := by
  have hnat : ∀ n : Nat, (Float.ofNat n).isNaN = false := by
    intro n
    obtain ⟨u, heq, hcanonical, -⟩ := ofNat_eq n
    rw [heq]
    exact (isNaN_unpack_pack u).trans (Unpacked.isNaN_of_isFinite hcanonical.isFinite)
  cases n with
  | ofNat n => exact hnat n
  | negSucc n => exact (isNaN_neg _).trans (hnat (n + 1))

/-- Rounding to integers keeps numbers. -/
theorem isNaN_roundBy (rule : Int → Nat → Int) (hx : x.isNaN = false) :
    (roundBy rule x).isNaN = false := by
  rw [roundBy]
  dsimp only
  split
  · split
    · split <;> decide +kernel
    · exact isNaN_ofInt _
  · exact hx

/-! ### Doubles that are not finite -/

/-- Only a finite double is equal to a finite double. -/
theorem isFinite_of_beq (h : (x == y) = true) (hy : y.isFinite = true) : x.isFinite = true := by
  change UnpackedFloat.beq x.toModel.unpack y.toModel.unpack = true at h
  rw [UnpackedFloat.beq, beq_iff_eq] at h
  exact Unpacked.isFinite_of_compare_eq h (canonical hy)

theorem isFinite_of_mul (h : (x * y).isFinite = true) : x.isFinite = true :=
  Unpacked.isFinite_of_mul (isFinite_of_unpack_pack h)

theorem isFinite_of_neg (h : (-x).isFinite = true) : x.isFinite = true := by
  have hneg : (UnpackedFloat.neg x.toModel.unpack).isFinite = true := isFinite_of_unpack_pack h
  change x.toModel.unpack.isFinite = true
  cases hx : x.toModel.unpack <;> rw [hx] at hneg <;> exact hneg

end Binary64

end QuboReduction

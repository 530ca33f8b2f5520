import QuboReduction.Proofs.Outcome
import QuboReduction.Proofs.Packing

/-!
# Bounds on doubles

An operation on finite doubles gives a finite double as long as a bound on the magnitude of the
exact result is below `2 ^ 1024` and is itself a double: rounding does not leave the bound. So
magnitudes of doubles are bounded by those of the numbers that they stand for, step by step, without
an estimate of rounding errors.

## Main definitions

* `QuboReduction.IsDouble` — bounds that are kept by rounding.
* `QuboReduction.Binary64.AtMost` — finite doubles with a bounded magnitude.

## Main results

* `QuboReduction.Binary64.AtMost.add`, `QuboReduction.Binary64.AtMost.mul`,
  `QuboReduction.Binary64.AtMost.div` — bounds on the results of operations.
* `QuboReduction.Binary64.lt_iff_value_lt` — the order of doubles is that of their numbers.
* `QuboReduction.Binary64.ofInt_atMost`, `QuboReduction.Binary64.abs_integerPart_le` — integers as
  doubles, and doubles as integers.
* `QuboReduction.Binary64.AtMost.sum` — bounds on sums.
-/

open Float.Model (Format UnpackedFloat)

namespace QuboReduction

/-! ### Bounds -/

/-- A bound that is itself a double: representable and not too large. -/
structure IsDouble (b : Rat) : Prop where
  /-- The bound has a significand of 53 bits. -/
  representable : Representable b
  /-- The bound is not too large. -/
  lt : b < 2 ^ 1024

namespace IsDouble

theorem natCast_mul_two_pow {n k t : Nat} (hn : n ≤ 2 ^ t) (ht : t ≤ 53) (hk : k + t < 1024) :
    IsDouble ((n : Rat) * 2 ^ k) where
  representable :=
    .natCast_mul_two_pow (hn.trans (Nat.pow_le_pow_right two_pos ht)) k
  lt := by
    have hn : (n : Rat) ≤ 2 ^ t := by exact_mod_cast hn
    calc (n : Rat) * 2 ^ k ≤ 2 ^ t * 2 ^ k := by gcongr
      _ = 2 ^ (t + k) := (pow_add 2 t k).symm
      _ < 2 ^ 1024 := pow_lt_pow_right₀ one_lt_two (by omega)

theorem two_pow {k : Nat} (hk : k < 1024) : IsDouble (2 ^ k) := by
  simpa using natCast_mul_two_pow (n := 1) (t := 0) le_rfl (by omega) (by omega : k + 0 < 1024)

end IsDouble

namespace Binary64

variable {x y : Float} {b c d : Rat}

/-- A finite double with a magnitude of at most `b`. -/
@[mk_iff]
structure AtMost (b : Rat) (x : Float) : Prop where
  /-- The double is a finite number. -/
  isFinite : x.isFinite = true
  /-- Its magnitude is not above the bound. -/
  abs_le : |value x| ≤ b

instance : Decidable (AtMost b x) := decidable_of_iff _ (atMost_iff b x).symm

theorem AtMost.mono (h : AtMost b x) (hbc : b ≤ c) : AtMost c x := ⟨h.isFinite, h.abs_le.trans hbc⟩

theorem canonical (h : x.isFinite = true) : Unpacked.Canonical x.toModel.unpack :=
  (Unpacked.canonical_unpack h).1

/-- The numbers of unpacked doubles are representable. -/
theorem representable_of_canonical {u : UnpackedFloat} (hu : Unpacked.Canonical u) :
    Representable (Unpacked.value u) := by
  rcases hu.cases with ⟨s, rfl⟩ | ⟨s, m, e, hm, rfl⟩
  · exact .zero
  · refine ⟨s.apply m, e, ?_, hu.2.1, rfl⟩
    have hlt : (m : Int) ≤ 2 ^ 53 := by exact_mod_cast hu.1.le
    cases s with
    | positive => rwa [UnpackedFloat.Sign.apply, Nat.abs_cast]
    | negative => rwa [UnpackedFloat.Sign.apply, abs_neg, Nat.abs_cast]

/-- The magnitude of a double is a bound that is kept by rounding. -/
theorem isDouble_abs_value (hx : x.isFinite = true) : IsDouble |value x| := by
  obtain ⟨hcanonical, hlt⟩ := Unpacked.canonical_unpack hx
  have hrepresentable := representable_of_canonical hcanonical
  rw [value_eq hx]
  refine ⟨?_, hlt⟩
  rcases abs_choice (Unpacked.value x.toModel.unpack) with h | h
  · rwa [h]
  · rw [h]
    exact hrepresentable.neg

/-- What is packed is finite and keeps its number if that is not too large. -/
theorem ofModel_pack {u : UnpackedFloat} (hu : Unpacked.Canonical u)
    (h : |Unpacked.value u| < 2 ^ 1024) :
    (⟨Float.Model.pack u⟩ : Float).isFinite = true ∧
      value ⟨Float.Model.pack u⟩ = Unpacked.value u := by
  have hunpack : (⟨Float.Model.pack u⟩ : Float).toModel.unpack = u := Unpacked.unpack_pack hu h
  have hfinite : (⟨Float.Model.pack u⟩ : Float).isFinite = true := by
    change (⟨Float.Model.pack u⟩ : Float).toModel.unpack.isFinite = true
    rw [hunpack]
    rcases hu.cases with ⟨s, rfl⟩ | ⟨s, m, e, hm, rfl⟩ <;> rfl
  exact ⟨hfinite, by rw [value_eq hfinite, hunpack]⟩

theorem AtMost.pack {u : UnpackedFloat} {q : Rat} (hb : IsDouble b) (hu : Unpacked.Canonical u)
    (hr : Rounds q (Unpacked.value u)) (hq : |q| ≤ b) : AtMost b ⟨Float.Model.pack u⟩ := by
  have habs := hr.abs_le_of_representable hb.representable hq
  obtain ⟨hfinite, hvalue⟩ := ofModel_pack hu (habs.trans_lt hb.lt)
  exact ⟨hfinite, by rwa [hvalue]⟩

/-- The negative of a double is exact. -/
theorem value_neg (hx : x.isFinite = true) : (-x).isFinite = true ∧ value (-x) = -value x := by
  obtain ⟨hcanonical, hvalue⟩ := Unpacked.neg_spec (canonical hx)
  have hlt := (Unpacked.canonical_unpack hx).2
  obtain ⟨hfinite, heq⟩ := ofModel_pack hcanonical (by rwa [hvalue, abs_neg])
  exact ⟨hfinite, by rw [value_eq hx, ← hvalue]; exact heq⟩

/-- The absolute value of a double is exact. -/
theorem value_abs (hx : x.isFinite = true) :
    x.abs.isFinite = true ∧ value x.abs = |value x| := by
  obtain ⟨hcanonical, hvalue⟩ := Unpacked.abs_spec (canonical hx)
  have hlt := (Unpacked.canonical_unpack hx).2
  obtain ⟨hfinite, heq⟩ := ofModel_pack hcanonical (by rwa [hvalue, abs_abs])
  exact ⟨hfinite, by rw [value_eq hx, ← hvalue]; exact heq⟩

namespace AtMost

/-! ### Operations -/

theorem add (hx : AtMost b x) (hy : AtMost c y) (hd : IsDouble d) (h : b + c ≤ d) :
    AtMost d (x + y) := by
  obtain ⟨hcanonical, hrounds⟩ :=
    Unpacked.add_spec (canonical hx.isFinite) (canonical hy.isFinite)
  rw [← value_eq hx.isFinite, ← value_eq hy.isFinite] at hrounds
  refine .pack hd hcanonical hrounds ?_
  calc |value x + value y| ≤ |value x| + |value y| := abs_add_le _ _
    _ ≤ b + c := add_le_add hx.abs_le hy.abs_le
    _ ≤ d := h

theorem neg (hx : AtMost b x) : AtMost b (-x) := by
  obtain ⟨hfinite, hvalue⟩ := value_neg hx.isFinite
  refine ⟨hfinite, ?_⟩
  rw [hvalue, abs_neg]
  exact hx.abs_le

theorem abs (hx : AtMost b x) : AtMost b x.abs := by
  obtain ⟨hfinite, hvalue⟩ := value_abs hx.isFinite
  refine ⟨hfinite, ?_⟩
  rw [hvalue, abs_abs]
  exact hx.abs_le

theorem sub_eq_add_neg (hy : AtMost c y) : x - y = x + -y := by
  obtain ⟨hcanonical, hvalue⟩ := Unpacked.neg_spec (canonical hy.isFinite)
  have hlt := (Unpacked.canonical_unpack hy.isFinite).2
  have hunpack : (-y).toModel.unpack = UnpackedFloat.neg y.toModel.unpack :=
    Unpacked.unpack_pack hcanonical (by rwa [hvalue, abs_neg])
  change (⟨Float.Model.pack (UnpackedFloat.sub .binary64 x.toModel.unpack y.toModel.unpack)⟩
    : Float) = ⟨Float.Model.pack (UnpackedFloat.add .binary64 x.toModel.unpack
      (-y).toModel.unpack)⟩
  rw [hunpack, Unpacked.sub_eq_add_neg]

theorem mul (hx : AtMost b x) (hy : AtMost c y) (hd : IsDouble d) (h : b * c ≤ d) :
    AtMost d (x * y) := by
  obtain ⟨hcanonical, hrounds⟩ :=
    Unpacked.mul_spec (canonical hx.isFinite) (canonical hy.isFinite)
  rw [← value_eq hx.isFinite, ← value_eq hy.isFinite] at hrounds
  refine .pack hd hcanonical hrounds ?_
  rw [abs_mul]
  exact (mul_le_mul hx.abs_le hy.abs_le (abs_nonneg _) ((abs_nonneg _).trans hx.abs_le)).trans h

/-- A quotient by a number that is at least one. -/
theorem div (hx : AtMost b x) (hy : y.isFinite = true) (hone : 1 ≤ value y) (hb : IsDouble b) :
    AtMost b (x / y) := by
  have hpos : 0 < value y := zero_lt_one.trans_le hone
  obtain ⟨hcanonical, hrounds⟩ := Unpacked.div_spec (canonical hx.isFinite) (canonical hy)
    (by rw [← value_eq hy]; exact hpos.ne')
  rw [← value_eq hx.isFinite, ← value_eq hy] at hrounds
  refine .pack hb hcanonical hrounds ?_
  rw [abs_div, abs_of_pos hpos, div_le_iff₀ hpos]
  exact hx.abs_le.trans (le_mul_of_one_le_right ((abs_nonneg _).trans hx.abs_le) hone)

end AtMost

/-! ### Comparing -/

variable {m n : Nat} {e f : Int}

/-- Of two mantissas in normal form the one with the larger exponent stands for the larger
number. -/
theorem mul_two_pow_lt (hm : m < 2 ^ 53) (he : -1074 ≤ e) (hn : 2 ^ 52 ≤ n ∨ f = -1074)
    (hef : e < f) : (m : Rat) * 2 ^ e < n * 2 ^ f := by
  have hm : (m : Rat) < 2 ^ (53 : Int) := by exact_mod_cast hm
  have hn : (2 : Rat) ^ (52 : Int) ≤ n := by exact_mod_cast hn.resolve_right (by omega)
  calc (m : Rat) * 2 ^ e < 2 ^ (53 : Int) * 2 ^ e := by gcongr
    _ = 2 ^ (52 : Int) * 2 ^ (e + 1) := by
        rw [← zpow_add₀ two_ne_zero, ← zpow_add₀ two_ne_zero]
        congr 1
        ring
    _ ≤ 2 ^ (52 : Int) * 2 ^ f := by
        gcongr
        · exact one_le_two
        · omega
    _ ≤ n * 2 ^ f := by gcongr

/-- Mantissas in normal form are compared after their exponents. -/
theorem then_compare (hm : m < 2 ^ 53) (hn : n < 2 ^ 53) (he : -1074 ≤ e) (hf : -1074 ≤ f)
    (hm' : 2 ^ 52 ≤ m ∨ e = -1074) (hn' : 2 ^ 52 ≤ n ∨ f = -1074) :
    (compare e f).then (compare m n) = compare ((m : Rat) * 2 ^ e) (n * 2 ^ f) := by
  rcases lt_trichotomy e f with hef | rfl | hef
  · rw [Int.compare_eq_lt.mpr hef, compare_lt_iff_lt.mpr (mul_two_pow_lt hm he hn' hef)]
    rfl
  · have hpos : (0 : Rat) < 2 ^ e := zpow_pos two_pos e
    rw [Int.compare_eq_eq.mpr rfl]
    change compare m n = _
    rcases lt_trichotomy m n with hmn | rfl | hmn
    · have hlt : (m : Rat) * 2 ^ e < n * 2 ^ e := by gcongr
      rw [Nat.compare_eq_lt.mpr hmn, compare_lt_iff_lt.mpr hlt]
    · rw [Nat.compare_eq_eq.mpr rfl, compare_eq_iff_eq.mpr rfl]
    · have hlt : (n : Rat) * 2 ^ e < m * 2 ^ e := by gcongr
      rw [Nat.compare_eq_gt.mpr hmn, compare_gt_iff_gt.mpr hlt]
  · rw [Int.compare_eq_gt.mpr hef, compare_gt_iff_gt.mpr (mul_two_pow_lt hn hf hm' hef)]
    rfl

/-- **Comparing** unpacked doubles compares the numbers that they stand for. -/
theorem compare_eq {u v : UnpackedFloat} (hu : Unpacked.Canonical u) (hv : Unpacked.Canonical v) :
    UnpackedFloat.compare u v = some (compare (Unpacked.value u) (Unpacked.value v)) := by
  have hneg {m : Nat} {e : Int} (hm : 0 < m) :
      Unpacked.value (.finite .negative m e hm) = -((m : Rat) * 2 ^ e) := by
    simp [Unpacked.value, UnpackedFloat.Sign.apply]
  have hpos {m : Nat} {e : Int} (hm : 0 < m) :
      Unpacked.value (.finite .positive m e hm) = (m : Rat) * 2 ^ e := rfl
  have hsign {m : Nat} (e : Int) (hm : 0 < m) : (0 : Rat) < m * 2 ^ e := by positivity
  rcases hu.cases with ⟨s, rfl⟩ | ⟨s, m, e, hm, rfl⟩ <;>
    rcases hv.cases with ⟨s', rfl⟩ | ⟨s', n, f, hn, rfl⟩
  · exact congrArg some (compare_eq_iff_eq.mpr rfl).symm
  · cases s' with
    | negative =>
      refine congrArg some (compare_gt_iff_gt.mpr ?_).symm
      exact (hneg hn).trans_lt (neg_lt_zero.mpr (hsign f hn))
    | positive => exact congrArg some (compare_lt_iff_lt.mpr (hsign f hn)).symm
  · cases s with
    | negative =>
      refine congrArg some (compare_lt_iff_lt.mpr ?_).symm
      exact (hneg hm).trans_lt (neg_lt_zero.mpr (hsign e hm))
    | positive => exact congrArg some (compare_gt_iff_gt.mpr (hsign e hm)).symm
  · have hthen := then_compare hu.1 hv.1 hu.2.1 hv.2.1 hu.2.2 hv.2.2
    cases s <;> cases s'
    case negative.negative =>
      rw [hneg, hneg, UnpackedFloat.compare, hthen, ← Std.OrientedCmp.eq_swap]
      simp only [compare, compareOfLessAndEq, neg_lt_neg_iff, neg_inj, eq_comm]
    case negative.positive =>
      refine congrArg some (compare_lt_iff_lt.mpr ?_).symm
      exact (hneg hm).trans_lt ((neg_lt_zero.mpr (hsign e hm)).trans (hsign f hn))
    case positive.negative =>
      refine congrArg some (compare_gt_iff_gt.mpr ?_).symm
      exact (hneg hn).trans_lt ((neg_lt_zero.mpr (hsign f hn)).trans (hsign e hm))
    case positive.positive => exact congrArg some hthen

theorem lt_iff_value_lt (hx : x.isFinite = true) (hy : y.isFinite = true) :
    x < y ↔ value x < value y := by
  change decide (UnpackedFloat.lt x.toModel.unpack y.toModel.unpack = true) = true ↔ _
  rw [decide_eq_true_iff, UnpackedFloat.lt, compare_eq (canonical hx) (canonical hy),
    ← value_eq hx, ← value_eq hy, ← compare_lt_iff_lt]
  simp

theorem le_iff_value_le (hx : x.isFinite = true) (hy : y.isFinite = true) :
    x ≤ y ↔ value x ≤ value y := by
  change decide (UnpackedFloat.le x.toModel.unpack y.toModel.unpack = true) = true ↔ _
  rw [decide_eq_true_iff, UnpackedFloat.le, compare_eq (canonical hx) (canonical hy),
    ← value_eq hx, ← value_eq hy, ← compare_le_iff_le]
  simp [Ordering.isLE_iff_ne_gt]

/-! ### Integers -/

theorem isFinite_one : (1.0 : Float).isFinite = true := by decide +kernel

theorem value_one : value 1.0 = 1 := by
  have hsigned : (ofFloat 1.0).signed = 2 ^ 52 := by decide +kernel
  have hexponent : (ofFloat 1.0).exponent = -52 := by decide +kernel
  rw [value, hsigned, hexponent]
  norm_num

/-- A word below `2 ^ 53` is a double. -/
theorem toFloat_spec {n : Nat} (hn : n < 2 ^ 53) :
    n.toUInt64.toFloat.isFinite = true ∧ value n.toUInt64.toFloat = n := by
  have hword : n.toUInt64.toNat = n := UInt64.toNat_ofNat_of_lt' (hn.trans (by decide))
  obtain ⟨hcanonical, hrounds⟩ := Unpacked.normalize_spec n.toUInt64.toNat 0 .positive
  have hrepresentable : Representable ((n : Int) * 2 ^ (0 : Int)) := by
    simpa using Representable.natCast_mul_two_pow hn.le 0
  rw [hword] at hcanonical hrounds
  have heq := hrounds.eq_of_representable hrepresentable
  have hlt : (n : Rat) < 2 ^ 1024 := by
    calc (n : Rat) < 2 ^ 53 := by exact_mod_cast hn
      _ ≤ 2 ^ 1024 := pow_le_pow_right₀ one_le_two (by omega)
  have hvalue : Unpacked.value (UnpackedFloat.normalize .binary64 n 0 .positive) = n := by
    simpa using heq
  have hpack : n.toUInt64.toFloat =
      ⟨Float.Model.pack (UnpackedFloat.normalize .binary64 n 0 .positive)⟩ := by
    conv_rhs => rw [← hword]
    rfl
  rw [hpack, ← hvalue]
  exact ofModel_pack hcanonical (by rwa [hvalue, Nat.abs_cast])

/-- A small natural number is rounded to a double. -/
theorem ofNat_eq_of_lt {n : Nat} (hn : n < 2 ^ 53) :
    ∃ u, Float.ofNat n = ⟨Float.Model.pack u⟩ ∧ Unpacked.Canonical u ∧
      Rounds n (Unpacked.value u) := by
  obtain ⟨hfinite, hvalue⟩ := toFloat_spec hn
  obtain ⟨hcanonical, hrounds⟩ :=
    Unpacked.mul_spec (canonical hfinite) (canonical isFinite_one)
  rw [← value_eq hfinite, ← value_eq isFinite_one, hvalue, value_one, mul_one] at hrounds
  refine ⟨_, ?_, hcanonical, hrounds⟩
  change Float.ofScientific n false 0 = n.toUInt64.toFloat * 1.0
  rw [Float.ofScientific, dif_pos ⟨hn, Nat.zero_le _⟩]
  rfl

/-- A large natural number is rounded to a double. -/
theorem ofNat_eq_of_le {n : Nat} (hn : 2 ^ 53 ≤ n) :
    ∃ u, Float.ofNat n = ⟨Float.Model.pack u⟩ ∧ Unpacked.Canonical u ∧
      Rounds n (Unpacked.value u) := by
  have hpos : 0 < n <<< 53 := by
    rw [Nat.shiftLeft_eq]
    omega
  have hlog : 53 ≤ n.log2 := (Nat.le_log2 (by omega)).mpr hn
  have hexp : (-53 : Int) + (0 : Int) ≤
      max (((n <<< 53 * 1).log2 : Int) + ((-53 : Int) + (0 : Int)) - 52) (-1074) := by
    rw [mul_one, Unpacked.log2_shiftLeft (by omega)]
    omega
  have hspec := Unpacked.mul_finite_spec .positive .positive hpos Nat.one_pos hexp
  have hvalue : Unpacked.value (.finite .positive (n <<< 53) (-53) hpos) *
      Unpacked.value (.finite .positive 1 0 Nat.one_pos) = n := by
    simp only [Unpacked.value, UnpackedFloat.Sign.apply, Nat.shiftLeft_eq]
    push_cast
    rw [mul_assoc, mul_assoc]
    norm_num
  rw [hvalue] at hspec
  refine ⟨_, ?_, hspec⟩
  change Float.ofScientific n false 0 = _
  rw [Float.ofScientific, dif_neg fun h => absurd h.1 (by omega)]
  change (⟨Float.Model.pack (UnpackedFloat.ofScientific .binary64 n 0)⟩ : Float) = _
  have hnonneg : (0 : Int) ≤ 2 ^ Format.binary64.exponentBits := by positivity
  rw [UnpackedFloat.ofScientific, dif_neg (by omega), if_neg (by omega), if_neg (by omega),
    if_pos le_rfl]
  rfl

/-- **Integers** are rounded to doubles. -/
theorem ofNat_eq (n : Nat) :
    ∃ u, Float.ofNat n = ⟨Float.Model.pack u⟩ ∧ Unpacked.Canonical u ∧
      Rounds n (Unpacked.value u) :=
  (Nat.lt_or_ge n (2 ^ 53)).elim ofNat_eq_of_lt ofNat_eq_of_le

theorem ofNat_atMost {n : Nat} (hb : IsDouble b) (hn : (n : Rat) ≤ b) :
    AtMost b (Float.ofNat n) := by
  obtain ⟨u, heq, hcanonical, hrounds⟩ := ofNat_eq n
  rw [heq]
  exact .pack hb hcanonical hrounds (by rwa [Nat.abs_cast])

theorem ofInt_atMost {n : Int} (hb : IsDouble b) (hn : |(n : Rat)| ≤ b) :
    AtMost b (Float.ofInt n) := by
  cases n with
  | ofNat n => exact ofNat_atMost hb (by simpa using hn)
  | negSucc n =>
    rw [Int.cast_negSucc, abs_neg, Nat.abs_cast] at hn
    exact (ofNat_atMost hb hn).neg

/-- Integers up to `2 ^ 53` are doubles. -/
theorem value_ofNat {n : Nat} (hn : n ≤ 2 ^ 53) : value (Float.ofNat n) = n := by
  obtain ⟨u, heq, hcanonical, hrounds⟩ := ofNat_eq n
  have hvalue : Unpacked.value u = n :=
    hrounds.eq_of_representable (by simpa using Representable.natCast_mul_two_pow hn 0)
  have hlt : (n : Rat) < 2 ^ 1024 := by
    calc (n : Rat) ≤ 2 ^ 53 := by exact_mod_cast hn
      _ < 2 ^ 1024 := pow_lt_pow_right₀ one_lt_two (by omega)
  rw [heq, (ofModel_pack hcanonical (by rwa [hvalue, Nat.abs_cast])).2, hvalue]

/-- A positive number is rounded to one that is at least one. -/
theorem one_le_ofNat {n : Nat} (hb : IsDouble b) (hn : (n : Rat) ≤ b) (hpos : 0 < n) :
    1 ≤ value (Float.ofNat n) := by
  obtain ⟨u, heq, hcanonical, hrounds⟩ := ofNat_eq n
  have habs := hrounds.abs_le_of_representable hb.representable (by rwa [Nat.abs_cast])
  rw [heq, (ofModel_pack hcanonical (habs.trans_lt hb.lt)).2]
  exact hrounds.ge 1 (by simpa using Representable.two_pow 0) (by exact_mod_cast hpos)

/-! ### Integer parts -/

/-- The significand of a double has 53 bits. -/
theorem abs_signed_le (x : Float) : |(ofFloat x).signed| ≤ 2 ^ 53 := by
  have hbound : (ofFloat x).significand ≤ 2 ^ 53 := by
    rw [ofFloat_eq]
    dsimp only
    split <;> dsimp only <;> omega
  rw [signed]
  split
  · rw [abs_neg, Nat.abs_cast]
    exact_mod_cast hbound
  · rw [Nat.abs_cast]
    exact_mod_cast hbound

/-- What the significand of a double with a negative exponent is divided by. -/
def denominator (x : Float) : Nat := Nat.pow 2 (-(ofFloat x).exponent).toNat

theorem denominator_pos (x : Float) : 0 < denominator x := Nat.two_pow_pos _

theorem value_mul_denominator (h : (ofFloat x).exponent < 0) :
    value x * denominator x = (ofFloat x).signed := by
  obtain ⟨k, hk⟩ : ∃ k : Nat, (ofFloat x).exponent = -k := Int.exists_eq_neg_ofNat h.le
  rw [value, denominator, hk, zpow_neg, zpow_natCast]
  simp [Nat.pow_eq]

theorem value_of_nonneg (h : 0 ≤ (ofFloat x).exponent) :
    value x = ((ofFloat x).signed * Nat.pow 2 (ofFloat x).exponent.toNat : Int) := by
  obtain ⟨k, hk⟩ := Int.eq_ofNat_of_zero_le h
  rw [value, hk, zpow_natCast]
  simp [Nat.pow_eq]

/-- The integer part is not above an integer that the number is not above. -/
theorem integerPart_le {n : Int} (hx : x.isFinite = true) (h : value x ≤ n) :
    integerPart x ≤ n := by
  rw [integerPart, if_pos hx]
  dsimp only
  split
  · rename_i hneg
    have hpos : (0 : Int) < denominator x := by exact_mod_cast denominator_pos x
    have hsigned : (ofFloat x).signed ≤ n * denominator x := by
      have hle : (ofFloat x).signed ≤ (n : Rat) * denominator x := by
        rw [← value_mul_denominator hneg]
        gcongr
      exact_mod_cast hle
    calc (ofFloat x).signed.tdiv (denominator x) ≤ (n * denominator x).tdiv (denominator x) :=
          Int.tdiv_le_tdiv hpos hsigned
      _ = n := Int.mul_tdiv_cancel n hpos.ne'
  · rename_i hnonneg
    rw [value_of_nonneg (not_lt.mp hnonneg)] at h
    exact_mod_cast h

/-- The integer part is not below an integer that the number is not below. -/
theorem le_integerPart {n : Int} (hx : x.isFinite = true) (h : n ≤ value x) :
    n ≤ integerPart x := by
  rw [integerPart, if_pos hx]
  dsimp only
  split
  · rename_i hneg
    have hpos : (0 : Int) < denominator x := by exact_mod_cast denominator_pos x
    have hsigned : n * denominator x ≤ (ofFloat x).signed := by
      have hle : (n : Rat) * denominator x ≤ (ofFloat x).signed := by
        rw [← value_mul_denominator hneg]
        gcongr
      exact_mod_cast hle
    calc n = (n * denominator x).tdiv (denominator x) := (Int.mul_tdiv_cancel n hpos.ne').symm
      _ ≤ (ofFloat x).signed.tdiv (denominator x) := Int.tdiv_le_tdiv hpos hsigned
  · rename_i hnonneg
    rw [value_of_nonneg (not_lt.mp hnonneg)] at h
    exact_mod_cast h

theorem abs_integerPart_le {n : Nat} (hx : AtMost n x) : |integerPart x| ≤ n := by
  obtain ⟨hlow, hhigh⟩ := abs_le.mp hx.abs_le
  exact abs_le.mpr ⟨le_integerPart hx.isFinite (by push_cast; exact hlow),
    integerPart_le hx.isFinite (by push_cast; exact hhigh)⟩

/-! ### Rounding to integers -/

theorem zero_atMost (hb : 0 ≤ b) : AtMost b 0.0 := by
  have hsigned : (ofFloat 0.0).signed = 0 := by decide +kernel
  refine ⟨by decide +kernel, ?_⟩
  rw [value, hsigned]
  simpa using hb

theorem abs_floorDiv_le (n : Int) (d : Nat) : |floorDiv n d| ≤ |n| := by
  rw [floorDiv, Int.fdiv_eq_ediv_of_nonneg n (Int.natCast_nonneg d), Int.abs_eq_natAbs,
    Int.abs_eq_natAbs]
  exact_mod_cast Int.natAbs_ediv_le_natAbs n d

theorem abs_ceilDiv_le (n : Int) (d : Nat) : |ceilDiv n d| ≤ |n| := by
  rw [ceilDiv, abs_neg, ← abs_neg n]
  exact abs_floorDiv_le (-n) d

/-! ### Powers of two as bounds -/

section TwoPow

variable {k l n t : Nat}

theorem AtMost.mono_two_pow (h : AtMost (2 ^ k) x) (hkn : k ≤ n) : AtMost (2 ^ n) x :=
  h.mono (pow_le_pow_right₀ one_le_two hkn)

theorem AtMost.mul_two_pow (hx : AtMost (2 ^ k) x) (hy : AtMost (2 ^ l) y) (hkl : k + l ≤ n)
    (hn : n < 1024) : AtMost (2 ^ n) (x * y) :=
  (hx.mul hy (.two_pow (by omega)) (pow_add 2 k l).ge).mono_two_pow hkl

theorem AtMost.add_two_pow (hx : AtMost (2 ^ k) x) (hy : AtMost (2 ^ l) y) (hk : k < n)
    (hl : l < n) (hn : n < 1024) : AtMost (2 ^ n) (x + y) := by
  obtain ⟨n, rfl⟩ : ∃ m, n = m + 1 := ⟨n - 1, by omega⟩
  have hx : AtMost (2 ^ n) x := hx.mono_two_pow (by omega)
  have hy : AtMost (2 ^ n) y := hy.mono_two_pow (by omega)
  exact hx.add hy (.two_pow hn) (by rw [pow_succ, mul_two])

theorem AtMost.sub_two_pow (hx : AtMost (2 ^ k) x) (hy : AtMost (2 ^ l) y) (hk : k < n)
    (hl : l < n) (hn : n < 1024) : AtMost (2 ^ n) (x - y) := by
  rw [hy.sub_eq_add_neg]
  exact hx.add_two_pow hy.neg hk hl hn

/-! ### Sums -/

/-- A count of summands of the same magnitude is a factor of the bound. -/
theorem mul_two_pow_le {m : Nat} (hm : m ≤ 2 ^ t) (hkt : k + t ≤ n) :
    (m : Rat) * 2 ^ k ≤ 2 ^ n := by
  have hm : (m : Rat) ≤ 2 ^ t := by exact_mod_cast hm
  calc (m : Rat) * 2 ^ k ≤ 2 ^ t * 2 ^ k := by gcongr
    _ = 2 ^ (k + t) := by rw [pow_add, mul_comm]
    _ ≤ 2 ^ n := pow_le_pow_right₀ one_le_two hkt

/-- Each summand of the same magnitude adds that magnitude to the bound. -/
theorem AtMost.foldl_add {xs : List Float} {start : Float} (hstart : AtMost 0 start)
    (hxs : ∀ x ∈ xs, AtMost (2 ^ k) x) (hcount : xs.length ≤ 2 ^ t) (ht : t ≤ 53)
    (hkt : k + t ≤ n) (hn : n < 1024) :
    AtMost (2 ^ n) (xs.foldl (fun total x => total + x) start) := by
  have hbound : AtMost ((0 + xs.length : Nat) * 2 ^ k)
      (xs.foldl (fun total x => total + x) start) :=
    foldl_of_step (motive := fun m total => AtMost (m * 2 ^ k) total) (by simpa using hstart)
      (fun _ _ x hx hm htotal => htotal.add (hxs x hx) (.natCast_mul_two_pow hm ht (by omega))
        (by push_cast; rw [add_one_mul])) (by rwa [zero_add])
  rw [zero_add] at hbound
  exact hbound.mono (mul_two_pow_le hcount hkt)

theorem AtMost.sum {xs : List Float} (hxs : ∀ x ∈ xs, AtMost (2 ^ k) x)
    (hcount : xs.length ≤ 2 ^ t) (ht : t ≤ 53) (hkt : k + t ≤ n) (hn : n < 1024) :
    AtMost (2 ^ n) (Scalar.sum xs) :=
  AtMost.foldl_add (zero_atMost le_rfl).neg hxs hcount ht hkt hn

end TwoPow

end Binary64

end QuboReduction

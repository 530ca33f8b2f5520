import QuboReduction.Proofs.Doubles

/-!
# Rounding to the nearest

A product of doubles is rounded to the nearest multiple of its last place, and to the even one of
two that are equally near. Whether a product is an integer can depend on such a tie, so here the
bits that are shifted out of a mantissa are read in full: the first of them tells in which half of a
unit a number lies, and the others whether there is more.

## Main definitions

* `QuboReduction.Halves` — what a mantissa with the bits shifted out of it stands for, up to halves.
* `QuboReduction.RoundsToEven` — a number is rounded to the nearest number of units.

## Main results

* `QuboReduction.RoundsToEven.abs_sub_le_div` — the relative error of rounding.
* `QuboReduction.RoundsToEven.eq_intCast` — what is close to an integer is rounded to it.
* `QuboReduction.Binary64.mul_toEven` — products of doubles.
-/

open Float.Model Float.Model.UnpackedFloat

namespace QuboReduction

/-! ### Relative errors -/

/-- Rounding to one of the two representable numbers around a number changes it by at most a part in
`2 ^ 52`. -/
theorem Rounds.abs_sub_le_div {q r : Rat} (h : Rounds q r) (hq : 2 ^ (-1022 : Int) ≤ q) :
    |r - q| ≤ q / 2 ^ 52 := by
  have hpos : 0 < q := lt_of_lt_of_le (by positivity) hq
  obtain ⟨e, hlow, hhigh⟩ := exists_mem_Ico_zpow hpos (one_lt_two (α := Rat))
  have he : -1022 ≤ e := by
    have hlt : (2 : Rat) ^ (-1022 : Int) < 2 ^ (e + 1) := hq.trans_lt hhigh
    have := (zpow_lt_zpow_iff_right₀ (one_lt_two (α := Rat))).mp hlt
    omega
  -- the number in units of the last place, of which it has between `2 ^ 52` and `2 ^ 53`
  obtain ⟨t, rfl⟩ : ∃ t, e = t + 52 := ⟨e - 52, by ring⟩
  have hunit : (0 : Rat) < 2 ^ t := by positivity
  have hlow : 2 ^ 52 * 2 ^ t ≤ q := by
    rwa [zpow_add₀ two_ne_zero, mul_comm, zpow_ofNat] at hlow
  have hhigh : q < 2 ^ 53 * 2 ^ t := by
    have hsum : t + 52 + 1 = t + 53 := by ring
    rwa [hsum, zpow_add₀ two_ne_zero, mul_comm, zpow_ofNat] at hhigh
  have hfloor := Int.floor_le (q / 2 ^ t)
  have hnext := Int.lt_floor_add_one (q / 2 ^ t)
  generalize ⌊q / 2 ^ t⌋ = k at hfloor hnext
  rw [le_div_iff₀ hunit] at hfloor
  rw [div_lt_iff₀ hunit] at hnext
  have hk : k < 2 ^ 53 := by
    exact_mod_cast lt_of_mul_lt_mul_right (hfloor.trans_lt hhigh) hunit.le
  have hk' : 0 < k + 1 := by
    have hlt : (0 : Rat) * 2 ^ t < (k + 1) * 2 ^ t := by linarith
    exact_mod_cast lt_of_mul_lt_mul_right hlt hunit.le
  have hbelow : k * 2 ^ t ≤ r := h.ge _ ⟨k, t, by rw [abs_le]; omega, by omega, rfl⟩ hfloor
  have habove : r ≤ (k + 1) * 2 ^ t := by
    have hle := h.le _ ⟨k + 1, t, by rw [abs_le]; omega, by omega, rfl⟩
    push_cast at hle
    exact hle hnext.le
  rw [abs_le]
  constructor <;> linarith

/-! ### Mantissas and halves -/

/-- A mantissa with its round bit, which counts one half. -/
def halves (em : ExtendedMantissa) : Rat := em.mantissa + if em.roundBit then 1 / 2 else 0

/-- A mantissa with the bits that were shifted out of it stands for a number that the round bit
locates up to one half; the sticky bit tells whether there is more to it. -/
structure Halves (em : ExtendedMantissa) (v : Rat) : Prop where
  /-- Without the sticky bit there is no more. -/
  eq : em.stickyBit = false → v = halves em
  /-- With the sticky bit there is more, but less than one half. -/
  lt : em.stickyBit = true → halves em < v ∧ v < halves em + 1 / 2

namespace Halves

variable {em : ExtendedMantissa} {v : Rat}

theorem exact (m : Nat) : Halves (.ofMantissaAndAccuracy m .exact) m where
  eq _ := by simp [halves, ExtendedMantissa.ofMantissaAndAccuracy]
  lt h := by simp [ExtendedMantissa.ofMantissaAndAccuracy] at h

/-- The bit that is shifted out becomes the round bit. -/
theorem halves_shiftRightOne (em : ExtendedMantissa) :
    halves em.shiftRightOne = em.mantissa / 2 := by
  have hdiv : (em.mantissa : Rat) = 2 * (em.mantissa / 2 : Nat) + (em.mantissa % 2 : Nat) := by
    exact_mod_cast (Nat.div_add_mod em.mantissa 2).symm
  rw [halves, ExtendedMantissa.shiftRightOne]
  rcases Nat.mod_two_eq_zero_or_one em.mantissa with hmod | hmod
  · simp only [hmod, bne_self_eq_false, Bool.false_eq_true, if_false, hdiv]
    push_cast
    ring
  · rw [hdiv]
    simp only [hmod, Nat.one_ne_zero, bne_iff_ne, ne_eq, not_false_eq_true, if_true]
    push_cast
    ring

theorem shiftRightOne (h : Halves em v) : Halves em.shiftRightOne (v / 2) := by
  have hsticky : em.shiftRightOne.stickyBit = (em.roundBit || em.stickyBit) := rfl
  constructor
  · intro hnone
    rw [hsticky, Bool.or_eq_false_iff] at hnone
    rw [halves_shiftRightOne, h.eq hnone.2, halves, hnone.1]
    simp
  · intro hmore
    rw [hsticky, Bool.or_eq_true_iff] at hmore
    rw [halves_shiftRightOne]
    have hbounds : (em.mantissa : Rat) < v ∧ v < em.mantissa + 1 := by
      cases hround : em.roundBit with
      | false =>
        have hlt := h.lt (hmore.resolve_left (by simp [hround]))
        simp only [halves, hround, Bool.false_eq_true, if_false] at hlt
        constructor <;> linarith
      | true =>
        cases hsticky : em.stickyBit with
        | false =>
          have heq := h.eq hsticky
          simp only [halves, hround, if_true] at heq
          constructor <;> linarith
        | true =>
          have hlt := h.lt hsticky
          simp only [halves, hround, if_true] at hlt
          constructor <;> linarith
    constructor <;> linarith

theorem shiftRight (h : Halves em v) (k : Nat) : Halves (em >>> k) (v / 2 ^ k) := by
  change Halves (k.repeat ExtendedMantissa.shiftRightOne em) _
  induction k with
  | zero => simpa [Nat.repeat] using h
  | succ k ih =>
    rw [Nat.repeat, pow_succ, ← div_div]
    exact ih.shiftRightOne

/-- The rounded mantissa is the nearest integer, and the even one of two that are equally near. -/
theorem abs_sub_roundedMantissa_le (h : Halves em v) :
    |v - em.roundedMantissa| ≤ 1 / 2 ∧
      (|v - em.roundedMantissa| = 1 / 2 → Even (em.roundedMantissa : Int)) := by
  obtain ⟨m, round, sticky⟩ := em
  cases round <;> cases sticky
  case false.false =>
    have hv : v = m := by simpa [halves] using h.eq rfl
    have hzero : v - m = 0 := sub_eq_zero.mpr hv
    change |v - (m : Nat)| ≤ 1 / 2 ∧ (|v - (m : Nat)| = 1 / 2 → Even (m : Int))
    rw [hzero, abs_zero]
    norm_num
  case false.true =>
    obtain ⟨hlow, hhigh⟩ : (m : Rat) < v ∧ v < m + 1 / 2 := by simpa [halves] using h.lt rfl
    change |v - (m : Nat)| ≤ 1 / 2 ∧ (|v - (m : Nat)| = 1 / 2 → Even (m : Int))
    rw [abs_of_pos (by linarith)]
    exact ⟨by linarith, fun htie => by linarith⟩
  case true.false =>
    -- a tie goes to the mantissa if that is even, and to the next one if not
    have hv : v = m + 1 / 2 := by simpa [halves] using h.eq rfl
    change |v - ((m + m % 2 : Nat) : Rat)| ≤ 1 / 2 ∧
      (|v - ((m + m % 2 : Nat) : Rat)| = 1 / 2 → Even ((m + m % 2 : Nat) : Int))
    refine ⟨?_, fun _ => ?_⟩
    · rcases Nat.mod_two_eq_zero_or_one m with hmod | hmod
      · rw [hmod, hv]
        norm_num
      · rw [hmod, hv]
        norm_num
    · rw [Int.even_iff]
      omega
  case true.true =>
    obtain ⟨hlow, hhigh⟩ : (m : Rat) + 1 / 2 < v ∧ v < m + 1 / 2 + 1 / 2 := by
      simpa [halves] using h.lt rfl
    change |v - ((m + 1 : Nat) : Rat)| ≤ 1 / 2 ∧
      (|v - ((m + 1 : Nat) : Rat)| = 1 / 2 → Even ((m + 1 : Nat) : Int))
    push_cast
    rw [abs_of_neg (by linarith)]
    exact ⟨by linarith, fun htie => by linarith⟩

end Halves

/-! ### Numbers of units -/

/-- A number `q` is rounded to `m` units of `2 ^ t`: there are at most `2 ^ 53` units in it, and at
least `2 ^ 52` unless the unit is the least one, and no other number of units is nearer. -/
structure RoundsToEven (q : Rat) (m t : Int) : Prop where
  /-- The unit is the least one, or the number has 53 bits above it. -/
  least_or_le : t = -1074 ∨ 2 ^ (t + 52) ≤ |q|
  /-- The number has at most 53 bits above the unit. -/
  le : |q| ≤ 2 ^ (t + 53)
  /-- The number is at most half a unit away. -/
  abs_sub_le : |q - m * 2 ^ t| ≤ 2 ^ t / 2
  /-- Of two numbers of units that are equally near, it is the even one. -/
  even : |q - m * 2 ^ t| = 2 ^ t / 2 → Even m

namespace RoundsToEven

variable {q : Rat} {m n t : Int}

theorem zero : RoundsToEven 0 0 (-1074) where
  least_or_le := Or.inl rfl
  le := by simp
  abs_sub_le := by
    rw [Int.cast_zero, zero_mul, sub_zero, abs_zero]
    positivity
  even _ := Even.zero

theorem neg (h : RoundsToEven q m t) : RoundsToEven (-q) (-m) t := by
  have hsub : -q - ((-m : Int) : Rat) * 2 ^ t = -(q - m * 2 ^ t) := by
    push_cast
    ring
  refine ⟨by rw [abs_neg]; exact h.least_or_le, by rw [abs_neg]; exact h.le, ?_, ?_⟩
  · rw [hsub, abs_neg]
    exact h.abs_sub_le
  · rw [hsub, abs_neg]
    exact fun htie => (h.even htie).neg

/-- **Relative error.** Above the least unit rounding changes a number by at most a part in
`2 ^ 53`. -/
theorem abs_sub_le_div (h : RoundsToEven q m t) (hq : 2 ^ (-1022 : Int) ≤ |q|) :
    |q - m * 2 ^ t| ≤ |q| / 2 ^ 53 := by
  refine h.abs_sub_le.trans ?_
  have hunit : (2 : Rat) ^ (t + 52) ≤ |q| := by
    rcases h.least_or_le with rfl | hle
    · exact hq
    · exact hle
  rw [zpow_add₀ two_ne_zero] at hunit
  rw [div_le_div_iff₀ two_pos (by positivity)]
  have hpow : (2 : Rat) ^ (52 : Int) = 2 ^ 52 := by norm_num
  rw [hpow] at hunit
  linarith

/-- **Absolute error.** A number below a power of two is at most half of the last place below that
power away from what it is rounded to. -/
theorem abs_sub_le_of_lt (h : RoundsToEven q m t) {k : Int} (hk : -1021 ≤ k) (hq : |q| < 2 ^ k) :
    |q - m * 2 ^ t| ≤ 2 ^ (k - 54) := by
  have ht : t - 1 ≤ k - 54 := by
    rcases h.least_or_le with rfl | hle
    · omega
    · have := (zpow_lt_zpow_iff_right₀ (one_lt_two (α := Rat))).mp (hle.trans_lt hq)
      omega
  calc |q - m * 2 ^ t| ≤ 2 ^ t / 2 := h.abs_sub_le
    _ = 2 ^ (t - 1) := by rw [zpow_sub_one₀ two_ne_zero, div_eq_mul_inv]
    _ ≤ 2 ^ (k - 54) := zpow_le_zpow_right₀ one_le_two ht

/-- The unit of a number that is close to an integer with 53 bits is at most two. -/
private theorem unit_le {n : Nat} (h : RoundsToEven q m t) (hn : (n : Rat) ≤ 2 ^ 53)
    (hq : |q - n| ≤ n / 2 ^ 54) : t ≤ 1 := by
  by_contra hlarge
  have hunit : (2 : Rat) ^ 54 ≤ |q| := by
    calc (2 : Rat) ^ 54 ≤ 2 ^ (t + 52) := by
          rw [← zpow_natCast]
          exact zpow_le_zpow_right₀ one_le_two (by omega)
      _ ≤ |q| := h.least_or_le.resolve_left (by omega)
  have htriangle : |q| ≤ |q - n| + n := by simpa using abs_add_le (q - n) (n : Rat)
  linarith

/-- An integer with 53 bits that a number is close to is itself a number of units, of which it has
at most `2 ^ 53`. -/
private theorem exists_units {n : Nat} (h : RoundsToEven q m t) (hn : (n : Rat) ≤ 2 ^ 53)
    (hq : |q - n| ≤ n / 2 ^ 54) : ∃ N : Nat, (n : Rat) = N * 2 ^ t ∧ N ≤ 2 ^ 53 := by
  have htriangle : n ≤ |q - n| + |q| := by
    have hle := abs_sub_abs_le_abs_sub (n : Rat) q
    rw [Nat.abs_cast, abs_sub_comm] at hle
    linarith
  rcases (h.unit_le hn hq).lt_or_eq with hsmall | rfl
  · obtain ⟨k, rfl⟩ : ∃ k : Nat, t = -k := ⟨(-t).toNat, by omega⟩
    have hunits : (n : Rat) = ((n * 2 ^ k : Nat) : Rat) * 2 ^ (-k : Int) := by
      rw [zpow_neg, zpow_natCast]
      push_cast
      field_simp
    refine ⟨n * 2 ^ k, hunits, ?_⟩
    by_contra hlarge
    have hlarge : (2 : Rat) ^ 53 + 1 ≤ ((n * 2 ^ k : Nat) : Rat) := by
      exact_mod_cast Nat.succ_le_of_lt (not_le.mp hlarge)
    have hle := h.le
    generalize hu : (2 : Rat) ^ (-k : Int) = u at hunits
    have hunit : 0 < u := hu ▸ by positivity
    rw [zpow_add₀ two_ne_zero, hu, zpow_ofNat] at hle
    have hgrow := mul_le_mul_of_nonneg_right hlarge hunit.le
    rw [← hunits] at hgrow
    linarith
  · -- the only such integer in units of two is the last one
    have hunit : (2 : Rat) ^ 53 ≤ |q| := by
      have hle := h.least_or_le.resolve_left (by omega)
      norm_num at hle ⊢
      exact hle
    have hle : |q| ≤ |q - n| + n := by simpa using abs_add_le (q - n) (n : Rat)
    have hlast : ((2 ^ 53 - 1 : Nat) : Rat) < n := by
      push_cast
      linarith
    have hlast : 2 ^ 53 - 1 < n := by exact_mod_cast hlast
    have hn : n ≤ 2 ^ 53 := by exact_mod_cast hn
    obtain rfl : n = 2 ^ 53 := by omega
    exact ⟨2 ^ 52, by norm_num, by norm_num⟩

private theorem eq_natCast {n : Nat} (h : RoundsToEven q m t) (hn : (n : Rat) ≤ 2 ^ 53)
    (hq : |q - n| ≤ n / 2 ^ 54) : (m : Rat) * 2 ^ t = n := by
  obtain ⟨N, hN, hle⟩ := h.exists_units hn hq
  have hhalf := h.abs_sub_le
  have heven := h.even
  generalize hu : (2 : Rat) ^ t = u at hN hhalf heven ⊢
  have hunit : 0 < u := hu ▸ by positivity
  have hcast : (N : Rat) ≤ 2 ^ 53 := by exact_mod_cast hle
  have hgrow := mul_le_mul_of_nonneg_right hcast hunit.le
  rw [← hN] at hgrow
  have htriangle := abs_add_le ((m : Rat) * u - q) (q - n)
  rw [abs_sub_comm _ q, sub_add_sub_cancel] at htriangle
  have hdistance : |(m : Rat) * u - n| = |((m - N : Int) : Rat)| * u := by
    rw [hN, ← sub_mul, abs_mul, abs_of_pos hunit]
    push_cast
    rfl
  rw [hdistance] at htriangle
  -- the numbers of units differ by one at most, and by one only in case of a tie
  have hone : |m - (N : Int)| ≤ 1 := by
    have hle : |((m - N : Int) : Rat)| * u ≤ 1 * u := by linarith
    exact_mod_cast le_of_mul_le_mul_right hle hunit
  have hsame : m = N := by
    by_contra hne
    have hdiff : |m - (N : Int)| = 1 := by
      have hpos : 0 < |m - (N : Int)| := abs_pos.mpr (sub_ne_zero.mpr hne)
      omega
    have hdiffCast : |((m - N : Int) : Rat)| = 1 := by exact_mod_cast hdiff
    rw [hdiffCast, one_mul] at htriangle
    have hmeven : Even m := heven (le_antisymm hhalf (by linarith))
    have hfull : (N : Rat) = 2 ^ 53 := by
      refine le_antisymm hcast ?_
      refine le_of_mul_le_mul_right ?_ hunit
      rw [← hN]
      linarith
    have hfull : N = 2 ^ 53 := by exact_mod_cast hfull
    rw [Int.even_iff] at hmeven
    rcases (abs_eq zero_le_one).mp hdiff with hdiff | hdiff <;> omega
  rw [hsame, hN]
  rfl

/-- **Integers are kept.** A number whose distance from an integer with 53 bits is at most a part in
`2 ^ 54` of that integer is rounded to it. -/
theorem eq_intCast (h : RoundsToEven q m t) (hn : |n| ≤ 2 ^ 53)
    (hq : |q - n| ≤ |(n : Rat)| / 2 ^ 54) : (m : Rat) * 2 ^ t = n := by
  rcases Int.eq_nat_or_neg n with ⟨k, rfl | rfl⟩
  · rw [Nat.abs_cast] at hn
    rw [Int.cast_natCast] at hq ⊢
    rw [Nat.abs_cast] at hq
    exact h.eq_natCast (by exact_mod_cast hn) hq
  · rw [abs_neg, Nat.abs_cast] at hn
    rw [Int.cast_neg, Int.cast_natCast] at hq ⊢
    rw [abs_neg, Nat.abs_cast] at hq
    have hq' : |-q - k| ≤ k / 2 ^ 54 := by
      rwa [← neg_add', abs_neg, ← sub_neg_eq_add]
    have heq := h.neg.eq_natCast (by exact_mod_cast hn) hq'
    rw [Int.cast_neg, neg_mul] at heq
    linarith

/-- A number whose distance from an integer is at most a part in `2 ^ 52` of that integer stays as
close to it as a part in `2 ^ 51`. -/
theorem abs_sub_intCast_le (h : RoundsToEven q m t) (hq : |q - n| ≤ |(n : Rat)| / 2 ^ 52) :
    |(m : Rat) * 2 ^ t - n| ≤ |(n : Rat)| / 2 ^ 51 := by
  rcases eq_or_ne n 0 with rfl | hn
  · have heq := h.eq_intCast (n := 0) (by simp) (by simpa using hq)
    rw [heq]
    simp
  · have hone : (1 : Rat) ≤ |(n : Rat)| := by exact_mod_cast Int.one_le_abs hn
    have hlow : |(n : Rat)| ≤ |q - n| + |q| := by
      have hle := abs_sub_abs_le_abs_sub (n : Rat) q
      rw [abs_sub_comm] at hle
      linarith
    have hhigh : |q| ≤ |q - n| + |(n : Rat)| := by simpa using abs_add_le (q - n) (n : Rat)
    have hnormal : (2 : Rat) ^ (-1022 : Int) ≤ |q| := by
      calc (2 : Rat) ^ (-1022 : Int) ≤ 2 ^ (-1 : Int) := zpow_le_zpow_right₀ one_le_two (by omega)
        _ ≤ |q| := by
          norm_num
          linarith
    have herror := h.abs_sub_le_div hnormal
    have htriangle := abs_add_le ((m : Rat) * 2 ^ t - q) (q - n)
    rw [abs_sub_comm _ q, sub_add_sub_cancel] at htriangle
    linarith

end RoundsToEven

/-! ### Products -/

namespace Unpacked

variable {a b : UnpackedFloat}

/-- The rounding of an integer mantissa is one to the nearest. -/
theorem roundWithAccuracy_toEven (s : Sign) {m : Nat} {e : Int} (hm : m ≠ 0)
    (he : e ≤ max ((m.log2 : Int) + e - 52) (-1074)) :
    ∃ n t, RoundsToEven ((s.apply 1 : Int) * (m * 2 ^ e)) n t ∧
      value (roundWithAccuracy .binary64 s m e .exact) = n * 2 ^ t := by
  obtain ⟨k, t, hunits, hleast, hlarge, -, hvalue⟩ :=
    roundWithAccuracy_units s (.exact m) he (Or.inl hm)
  obtain ⟨hhalf, htie⟩ := ((Halves.exact m).shiftRight k).abs_sub_roundedMantissa_le
  generalize (ExtendedMantissa.ofMantissaAndAccuracy m .exact >>> k).roundedMantissa = n at *
  have hpos : (0 : Rat) < m * 2 ^ e := by positivity
  have hunit : (0 : Rat) < 2 ^ t := by positivity
  have hdistance : |(m : Rat) * 2 ^ e - ((n : Int) : Rat) * 2 ^ t| =
      |(m : Rat) / 2 ^ k - n| * 2 ^ t := by
    rw [hunits, ← abs_of_pos hunit, ← abs_mul, abs_of_pos hunit]
    push_cast
    ring_nf
  have hpositive : RoundsToEven (m * 2 ^ e) n t := by
    refine ⟨by rwa [abs_of_pos hpos], ?_, ?_, ?_⟩
    · rw [abs_of_pos hpos, add_comm t, zpow_add₀ two_ne_zero]
      exact_mod_cast hlarge
    · rw [hdistance]
      linarith [mul_le_mul_of_nonneg_right hhalf hunit.le]
    · rw [hdistance]
      intro heq
      refine htie (mul_right_cancel₀ hunit.ne' ?_)
      rw [heq]
      ring
  cases s with
  | positive => exact ⟨n, t, by simpa [Sign.apply] using hpositive, hvalue⟩
  | negative => exact ⟨-n, t, by simpa [Sign.apply] using hpositive.neg, hvalue⟩

/-- **Products** of doubles are rounded to the nearest. -/
theorem mul_toEven (ha : Canonical a) (hb : Canonical b) :
    ∃ n t, RoundsToEven (value a * value b) n t ∧
      value (UnpackedFloat.mul .binary64 a b) = n * 2 ^ t := by
  rcases ha.cases with ⟨s, rfl⟩ | ⟨s, m, e, hm, rfl⟩ <;>
    rcases hb.cases with ⟨s', rfl⟩ | ⟨s', n, f, hn, rfl⟩
  · exact ⟨0, -1074, by simpa [value] using RoundsToEven.zero, by simp [UnpackedFloat.mul, value]⟩
  · exact ⟨0, -1074, by simpa [value] using RoundsToEven.zero, by simp [UnpackedFloat.mul, value]⟩
  · exact ⟨0, -1074, by simpa [value] using RoundsToEven.zero, by simp [UnpackedFloat.mul, value]⟩
  · rw [value_mul_finite]
    exact roundWithAccuracy_toEven _ (Nat.mul_pos hm hn).ne' (mul_exponent_le ha hb)

end Unpacked

/-- A product of finite doubles that is not too large is rounded to the nearest. -/
theorem Binary64.mul_toEven {x y : Float} {b : Rat} (hx : x.isFinite = true)
    (hy : y.isFinite = true) (hb : IsDouble b) (h : |value x * value y| ≤ b) :
    (x * y).isFinite = true ∧
      ∃ m t, RoundsToEven (value x * value y) m t ∧ value (x * y) = m * 2 ^ t := by
  obtain ⟨hcanonical, hrounds⟩ := Unpacked.mul_spec (canonical hx) (canonical hy)
  obtain ⟨m, t, heven, hvalue⟩ := Unpacked.mul_toEven (canonical hx) (canonical hy)
  rw [← value_eq hx, ← value_eq hy] at hrounds heven
  have habs := hrounds.abs_le_of_representable hb.representable h
  obtain ⟨hfinite, heq⟩ := ofModel_pack hcanonical (habs.trans_lt hb.lt)
  exact ⟨hfinite, m, t, heven, heq.trans hvalue⟩

end QuboReduction

import QuboReduction.Proofs.Rounding

/-!
# Arithmetic on unpacked doubles

Sums, differences, products and quotients of finite doubles are their exact values, rounded. The
mantissas are brought to one exponent, multiplied or divided as natural numbers, and what comes out
is rounded once.

## Main results

* `QuboReduction.Unpacked.normalize_spec` — the rounding of an integer at an exponent.
* `QuboReduction.Unpacked.add_spec`, `QuboReduction.Unpacked.mul_spec`,
  `QuboReduction.Unpacked.div_spec` — operations.
-/

open Float.Model Float.Model.UnpackedFloat

namespace QuboReduction

namespace Unpacked

variable {a b : UnpackedFloat} {m n k : Nat} {e f t : Int} {s : Sign}

/-! ### Signs -/

theorem sign_apply_eq (s : Sign) (n : Int) : s.apply n = s.apply 1 * n := by
  cases s <;> simp [Sign.apply]

theorem sign_apply_neg (s : Sign) (n : Int) : (-s).apply n = -s.apply n := by
  cases s with
  | positive => rfl
  | negative => exact (neg_neg n).symm

theorem sign_apply_mul (s s' : Sign) : (s * s').apply 1 = s.apply 1 * s'.apply 1 := by
  cases s <;> cases s' <;> rfl

theorem sign_apply_div (s s' : Sign) : (s / s').apply 1 = s.apply 1 * s'.apply 1 := by
  cases s <;> cases s' <;> rfl

/-! ### Mantissas at other exponents -/

theorem log2_shiftLeft (hm : m ≠ 0) (k : Nat) : (m <<< k).log2 = m.log2 + k := by
  have hpos : m <<< k ≠ 0 := by simpa [Nat.shiftLeft_eq] using hm
  rw [Nat.log2_eq_iff hpos, Nat.shiftLeft_eq]
  have hlow := Nat.log2_self_le hm
  have hhigh := Nat.lt_log2_self (n := m)
  constructor
  · rw [pow_add]
    gcongr
  · rw [show m.log2 + k + 1 = (m.log2 + 1) + k by omega, pow_add _ (m.log2 + 1)]
    gcongr

/-- A mantissa that is shifted to the left stands for the same number at a smaller exponent. -/
theorem decreaseExponent_value (m : Nat) (e t : Int) :
    ((decreaseExponent m e t).1 : Rat) * 2 ^ (decreaseExponent m e t).2 = m * 2 ^ e := by
  have hexp : (2 : Rat) ^ e = 2 ^ (e - t).toNat * 2 ^ (e - (e - t).toNat) := by
    rw [← zpow_natCast, ← zpow_add₀ two_ne_zero]
    congr 1
    omega
  simp only [decreaseExponent, Nat.shiftLeft_eq]
  rw [hexp]
  push_cast
  ring

theorem sign_apply_decreaseExponent (s : Sign) (m : Nat) (h : t ≤ e) :
    ((s.apply ((decreaseExponent m e t).1 : Int) : Int) : Rat) * 2 ^ t =
      (s.apply m : Int) * 2 ^ e := by
  have hexp : (decreaseExponent m e t).2 = t := by
    simp only [decreaseExponent]
    omega
  have hvalue := decreaseExponent_value m e t
  rw [hexp] at hvalue
  rw [sign_apply_eq s m, sign_apply_eq]
  push_cast
  rw [mul_assoc, mul_assoc, ← hvalue]

/-! ### Normalizing -/

theorem round_spec (s : Sign) (hm : m ≠ 0) (e : Int) :
    Canonical (UnpackedFloat.round .binary64 s m e) ∧
      Rounds ((s.apply m : Int) * 2 ^ e) (value (UnpackedFloat.round .binary64 s m e)) := by
  set k := (e - max ((m.log2 : Int) + e - 52) (-1074)).toNat with hk
  have hround : UnpackedFloat.round .binary64 s m e =
      roundWithAccuracy .binary64 s (m <<< k) (e - k) .exact := by
    rw [hk, ← targetExponent_eq]
    rfl
  have hlog := log2_shiftLeft hm k
  have hexp : e - k ≤ max (((m <<< k).log2 : Int) + (e - k) - 52) (-1074) := by
    rw [hlog]
    push_cast
    omega
  have hpos : m <<< k ≠ 0 := by simpa [Nat.shiftLeft_eq] using hm
  have hspec := roundWithAccuracy_spec s (.exact (m <<< k)) hexp (Or.inl hpos)
  have hvalue : ((m <<< k : Nat) : Rat) * 2 ^ (e - k) = m * 2 ^ e := decreaseExponent_value m e _
  rw [hround, sign_apply_eq]
  rw [hvalue] at hspec
  simpa [mul_assoc] using hspec

theorem normalize_spec (m e : Int) (s : Sign) :
    Canonical (UnpackedFloat.normalize .binary64 m e s) ∧
      Rounds (m * 2 ^ e) (value (UnpackedFloat.normalize .binary64 m e s)) := by
  rw [UnpackedFloat.normalize]
  rcases lt_trichotomy m 0 with hm | rfl | hm
  · rw [Int.compare_eq_lt.mpr hm]
    have hround := round_spec .negative (m := (-m).toNat) (by omega) e
    have hvalue : Sign.negative.apply ((-m).toNat : Nat) = m := by
      simp only [Sign.apply]
      omega
    rwa [hvalue] at hround
  · refine ⟨trivial, ?_⟩
    simpa [value] using Rounds.refl 0
  · rw [Int.compare_eq_gt.mpr hm]
    have hround := round_spec .positive (m := m.toNat) (by omega) e
    have hvalue : Sign.positive.apply (m.toNat : Nat) = m := by
      simp only [Sign.apply]
      omega
    rwa [hvalue] at hround

/-! ### Operations -/

/-- A finite double in normal form is a zero or has a mantissa. -/
theorem Canonical.cases (ha : Canonical a) :
    (∃ s, a = .zero s) ∨ ∃ s m e hm, a = .finite s m e hm := by
  cases a with
  | notANumber => exact ha.elim
  | infinity s => exact ha.elim
  | zero s => exact Or.inl ⟨s, rfl⟩
  | finite s m e hm => exact Or.inr ⟨s, m, e, hm, rfl⟩

theorem neg_spec (ha : Canonical a) :
    Canonical (UnpackedFloat.neg a) ∧ value (UnpackedFloat.neg a) = -value a := by
  rcases ha.cases with ⟨s, rfl⟩ | ⟨s, m, e, hm, rfl⟩
  · exact ⟨trivial, neg_zero.symm⟩
  · refine ⟨ha, ?_⟩
    simp only [UnpackedFloat.neg, value, sign_apply_neg]
    push_cast
    ring

theorem abs_spec (ha : Canonical a) :
    Canonical (UnpackedFloat.abs a) ∧ value (UnpackedFloat.abs a) = |value a| := by
  rcases ha.cases with ⟨s, rfl⟩ | ⟨s, m, e, hm, rfl⟩
  · exact ⟨trivial, abs_zero.symm⟩
  · refine ⟨ha, ?_⟩
    have hpos : (0 : Rat) ≤ m * 2 ^ e := by positivity
    cases s <;> simp [UnpackedFloat.abs, value, Sign.apply, abs_of_nonneg hpos]

/-- **Sums** of doubles are rounded. -/
theorem add_spec (ha : Canonical a) (hb : Canonical b) :
    Canonical (UnpackedFloat.add .binary64 a b) ∧
      Rounds (value a + value b) (value (UnpackedFloat.add .binary64 a b)) := by
  rcases ha.cases with ⟨s, rfl⟩ | ⟨s, m, e, hm, rfl⟩ <;>
    rcases hb.cases with ⟨s', rfl⟩ | ⟨s', n, f, hn, rfl⟩
  · have hzero : Rounds ((0 : Rat) + 0) 0 := by simpa using Rounds.refl 0
    simp only [UnpackedFloat.add]
    split <;> exact ⟨trivial, hzero⟩
  · exact ⟨hb, by simpa [UnpackedFloat.add, value] using Rounds.refl _⟩
  · exact ⟨ha, by simpa [UnpackedFloat.add, value] using Rounds.refl _⟩
  · have hexact : value (.finite s m e hm) + value (.finite s' n f hn) =
        ((s.apply ((decreaseExponent m e (min e f)).1 : Int) +
          s'.apply ((decreaseExponent n f (min e f)).1 : Int) : Int) : Rat) * 2 ^ (min e f) := by
      push_cast
      rw [add_mul, sign_apply_decreaseExponent s m (min_le_left e f),
        sign_apply_decreaseExponent s' n (min_le_right e f)]
      rfl
    rw [hexact]
    exact normalize_spec ..

theorem sub_eq_add_neg (a b : UnpackedFloat) :
    UnpackedFloat.sub .binary64 a b = UnpackedFloat.add .binary64 a (UnpackedFloat.neg b) := by
  cases a <;> cases b <;> try rfl
  case finite.finite s m e hm s' n f hn =>
    simp only [UnpackedFloat.sub, UnpackedFloat.add, UnpackedFloat.neg, sign_apply_neg,
      Int.sub_eq_add_neg]

/-- The product of two numbers in terms of the product of their mantissas. -/
theorem value_mul_finite (s s' : Sign) (hm : 0 < m) (hn : 0 < n) :
    value (.finite s m e hm) * value (.finite s' n f hn) =
      ((s * s').apply 1 : Int) * (((m * n : Nat) : Rat) * 2 ^ (e + f)) := by
  simp only [value]
  rw [sign_apply_eq s, sign_apply_eq s', sign_apply_mul, zpow_add₀ two_ne_zero]
  push_cast
  ring

/-- The product of two mantissas in normal form has 53 bits, or both exponents are the least one. -/
theorem mul_exponent_le {s s' : Sign} {hm : 0 < m} {hn : 0 < n} (ha : Canonical (.finite s m e hm))
    (hb : Canonical (.finite s' n f hn)) :
    e + f ≤ max (((m * n).log2 : Int) + (e + f) - 52) (-1074) := by
  have hpos : m * n ≠ 0 := (Nat.mul_pos hm hn).ne'
  by_cases hlarge : 2 ^ 52 ≤ m * n
  · have hlog := (Nat.le_log2 hpos).mpr hlarge
    omega
  · have hm' : ¬2 ^ 52 ≤ m := fun h => hlarge (h.trans (Nat.le_mul_of_pos_right m hn))
    have hn' : ¬2 ^ 52 ≤ n := fun h => hlarge (h.trans (Nat.le_mul_of_pos_left n hm))
    have he := ha.2.2.resolve_left hm'
    have hf := hb.2.2.resolve_left hn'
    omega

/-- The product of two mantissas is rounded, when no more than 53 bits are asked of it. -/
theorem mul_finite_spec (s s' : Sign) (hm : 0 < m) (hn : 0 < n)
    (hexp : e + f ≤ max (((m * n).log2 : Int) + (e + f) - 52) (-1074)) :
    Canonical (UnpackedFloat.mul .binary64 (.finite s m e hm) (.finite s' n f hn)) ∧
      Rounds (value (.finite s m e hm) * value (.finite s' n f hn))
        (value (UnpackedFloat.mul .binary64 (.finite s m e hm) (.finite s' n f hn))) := by
  rw [value_mul_finite]
  exact roundWithAccuracy_spec _ (.exact _) hexp (Or.inl (Nat.mul_pos hm hn).ne')

/-- **Products** of doubles are rounded. -/
theorem mul_spec (ha : Canonical a) (hb : Canonical b) :
    Canonical (UnpackedFloat.mul .binary64 a b) ∧
      Rounds (value a * value b) (value (UnpackedFloat.mul .binary64 a b)) := by
  rcases ha.cases with ⟨s, rfl⟩ | ⟨s, m, e, hm, rfl⟩ <;>
    rcases hb.cases with ⟨s', rfl⟩ | ⟨s', n, f, hn, rfl⟩
  · exact ⟨trivial, by simpa [UnpackedFloat.mul, value] using Rounds.refl 0⟩
  · exact ⟨trivial, by simpa [UnpackedFloat.mul, value] using Rounds.refl 0⟩
  · exact ⟨trivial, by simpa [UnpackedFloat.mul, value] using Rounds.refl 0⟩
  · exact mul_finite_spec s s' hm hn (mul_exponent_le ha hb)

theorem brackets_div (m : Nat) (hn : 0 < n) :
    Brackets (.ofMantissaAndAccuracy (m / n) (accuracyOfFraction (m % n) n)) ((m : Rat) / n) := by
  have hpos : (0 : Rat) < n := by exact_mod_cast hn
  have hdiv : (m : Rat) = n * (m / n : Nat) + (m % n : Nat) := by
    exact_mod_cast (Nat.div_add_mod m n).symm
  have hmod : ((m % n : Nat) : Rat) < n := by exact_mod_cast Nat.mod_lt m hn
  have hmod₀ : (0 : Rat) ≤ (m % n : Nat) := Nat.cast_nonneg _
  constructor
  · rw [mantissa_ofMantissaAndAccuracy, le_div_iff₀ hpos]
    linarith
  · rw [mantissa_ofMantissaAndAccuracy, div_lt_iff₀ hpos]
    linarith
  · rw [mantissa_ofMantissaAndAccuracy, div_eq_iff hpos.ne']
    by_cases hrest : m % n = 0
    · have hexact : (m : Rat) = (m / n : Nat) * n := by
        rw [hdiv, hrest]
        push_cast
        ring
      simp [hrest, accuracyOfFraction, ExtendedMantissa.ofMantissaAndAccuracy, ← hexact]
    · have hne : (m : Rat) ≠ (m / n : Nat) * n := by
        intro h
        have hzero : ((m % n : Nat) : Rat) = 0 := by linarith
        exact hrest (by exact_mod_cast hzero)
      have hbits : ¬((ExtendedMantissa.ofMantissaAndAccuracy (m / n)
          (accuracyOfFraction (m % n) n)).roundBit = false ∧
          (ExtendedMantissa.ofMantissaAndAccuracy (m / n)
          (accuracyOfFraction (m % n) n)).stickyBit = false) := by
        rw [accuracyOfFraction, if_neg hrest]
        cases compare (2 * (m % n)) n <;> simp [ExtendedMantissa.ofMantissaAndAccuracy]
      exact iff_of_false hne hbits

/-- A quotient has 53 bits if the dividend has that many more than the divisor. -/
theorem two_pow_le_div (hm : m ≠ 0) (hn : 0 < n) (h : n.log2 + 53 ≤ m.log2) : 2 ^ 52 ≤ m / n := by
  rw [Nat.le_div_iff_mul_le hn]
  calc 2 ^ 52 * n ≤ 2 ^ 52 * 2 ^ (n.log2 + 1) := by gcongr; exact Nat.lt_log2_self.le
    _ = 2 ^ (n.log2 + 53) := by rw [← pow_add]; congr 1; omega
    _ ≤ 2 ^ m.log2 := Nat.pow_le_pow_right two_pos h
    _ ≤ m := Nat.log2_self_le hm

/-- The quotient of two mantissas has 53 bits unless its exponent is at most the least one. -/
theorem divCore_spec (s : Sign) (hm : 0 < m) (hn : 0 < n) (e f : Int) :
    let quotient := divCore .binary64 m e n f
    Canonical (roundWithAccuracy .binary64 s quotient.1 quotient.2.1 quotient.2.2) ∧
      Rounds ((s.apply 1 : Int) * (m * 2 ^ e / (n * 2 ^ f)))
        (value (roundWithAccuracy .binary64 s quotient.1 quotient.2.1 quotient.2.2)) := by
  set t := min (e - f) (max ((m.log2 : Int) + e - (n.log2 + f) - 53) (-1074)) with ht
  set k := (e - f - t).toNat with hk
  have hcore : divCore .binary64 m e n f =
      ((m <<< k) / n, t, accuracyOfFraction ((m <<< k) % n) n) := by
    have htarget : Format.binary64.targetExponent (totalExponent m e - totalExponent n f) =
        max ((m.log2 : Int) + e - (n.log2 + f) - 53) (-1074) := by
      simp only [Format.targetExponent, totalExponent, Format.mantissaBits, Format.minExponent]
      norm_num
      omega
    rw [divCore, htarget]
  have hek : e - f = t + k := by omega
  have hvalue : ((m <<< k : Nat) : Rat) / n * 2 ^ t = m * 2 ^ e / (n * 2 ^ f) := by
    have hn : (n : Rat) ≠ 0 := by exact_mod_cast hn.ne'
    have hexp : (2 : Rat) ^ e = 2 ^ f * (2 ^ t * 2 ^ k) := by
      rw [← zpow_natCast, ← zpow_add₀ two_ne_zero, ← zpow_add₀ two_ne_zero]
      congr 1
      omega
    rw [Nat.shiftLeft_eq, hexp]
    push_cast
    field_simp
  have hlarge : t ≤ -1074 ∨ 2 ^ 52 ≤ (m <<< k) / n := by
    by_cases hleast : t ≤ -1074
    · exact Or.inl hleast
    · have hlog := log2_shiftLeft hm.ne' k
      have hmpos : m <<< k ≠ 0 := by simpa [Nat.shiftLeft_eq] using hm.ne'
      exact Or.inr (two_pow_le_div hmpos hn (by omega))
  have hexp : t ≤ max ((((m <<< k) / n).log2 : Int) + t - 52) (-1074) := by
    rcases hlarge with hleast | hlarge
    · omega
    · have hlog := (Nat.le_log2 (n := (m <<< k) / n) (by omega)).mpr hlarge
      omega
  have hnonzero : (m <<< k) / n ≠ 0 ∨ t ≤ -1022 := by omega
  dsimp only
  rw [hcore, ← hvalue]
  exact roundWithAccuracy_spec s (brackets_div (m <<< k) hn) hexp hnonzero

/-- **Quotients** of doubles are rounded. -/
theorem div_spec (ha : Canonical a) (hb : Canonical b) (hzero : value b ≠ 0) :
    Canonical (UnpackedFloat.div .binary64 a b) ∧
      Rounds (value a / value b) (value (UnpackedFloat.div .binary64 a b)) := by
  rcases hb.cases with ⟨s', rfl⟩ | ⟨s', n, f, hn, rfl⟩
  · exact absurd rfl hzero
  · rcases ha.cases with ⟨s, rfl⟩ | ⟨s, m, e, hm, rfl⟩
    · exact ⟨trivial, by simpa [UnpackedFloat.div, value] using Rounds.refl 0⟩
    · have hvalue : value (.finite s m e hm) / value (.finite s' n f hn) =
          ((s / s').apply 1 : Int) * ((m : Rat) * 2 ^ e / (n * 2 ^ f)) := by
        simp only [value, sign_apply_div]
        cases s <;> cases s' <;> simp [Sign.apply, neg_div, div_neg]
      rw [hvalue]
      exact divCore_spec (s / s') hm hn e f

end Unpacked

end QuboReduction

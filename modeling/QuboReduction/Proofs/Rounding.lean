import Mathlib

/-!
# Rounding to double precision

The operations on doubles compute a number exactly, or a mantissa and whether something is left of
it, and round it to a significand of 53 bits. All that is needed of this rounding is that no double
lies between a number and what it is rounded to: then a number that is a double is kept, and a bound
that is a double is kept too.

## Main definitions

* `QuboReduction.Representable` — numbers with a significand of 53 bits.
* `QuboReduction.Rounds` — no representable number lies between a number and another one.
* `QuboReduction.Brackets` — what a mantissa with the bits shifted out of it stands for.
* `QuboReduction.Unpacked.value`, `QuboReduction.Unpacked.Canonical` — the number of an unpacked
  double, and its normal form.

## Main results

* `QuboReduction.Rounds.of_multiple` — rounding to a multiple of a power of two.
* `QuboReduction.Unpacked.roundWithAccuracy_spec` — the rounding of mantissas is one.
-/

open Float.Model Float.Model.UnpackedFloat

namespace QuboReduction

/-! ### Numbers with a significand of 53 bits -/

/-- A number with a significand of 53 bits above the least exponent; the doubles are those that are
below `2 ^ 1024` in magnitude. -/
def Representable (b : Rat) : Prop :=
  ∃ n e : Int, |n| ≤ 2 ^ 53 ∧ -1074 ≤ e ∧ b = n * 2 ^ e

namespace Representable

variable {b : Rat}

theorem neg (h : Representable b) : Representable (-b) := by
  obtain ⟨n, e, hn, he, rfl⟩ := h
  exact ⟨-n, e, by rwa [abs_neg], he, by push_cast; ring⟩

theorem natCast_mul_two_pow {n : Nat} (h : n ≤ 2 ^ 53) (k : Nat) :
    Representable ((n : Rat) * 2 ^ k) :=
  ⟨n, k, by rw [Nat.abs_cast]; exact_mod_cast h, by omega, by push_cast; rw [zpow_natCast]⟩

theorem two_pow (k : Nat) : Representable (2 ^ k) := by
  simpa using natCast_mul_two_pow (n := 1) (by norm_num) k

theorem zero : Representable 0 := by simpa using natCast_mul_two_pow (n := 0) (by norm_num) 0

/-- A representable number is a multiple of a power of two, or has a magnitude below what 53 bits
above that power reach. -/
theorem multiple_or_le (h : Representable b) (t : Int) :
    (∃ n : Int, b = n * 2 ^ t) ∨ -1074 < t ∧ b ≤ 2 ^ (t + 52) := by
  obtain ⟨n, e, hn, he, rfl⟩ := h
  rcases le_or_gt t e with hte | hte
  · refine Or.inl ⟨n * 2 ^ (e - t).toNat, ?_⟩
    have hexp : (2 : Rat) ^ e = 2 ^ (e - t).toNat * 2 ^ t := by
      rw [← zpow_natCast, ← zpow_add₀ two_ne_zero]
      congr 1
      omega
    rw [hexp]
    push_cast
    ring
  · refine Or.inr ⟨by omega, ?_⟩
    have hn : (n : Rat) ≤ 2 ^ (53 : Int) := by exact_mod_cast (abs_le.mp hn).2
    calc (n : Rat) * 2 ^ e ≤ 2 ^ (53 : Int) * 2 ^ e := by gcongr
      _ = 2 ^ (53 + e) := (zpow_add₀ two_ne_zero _ _).symm
      _ ≤ 2 ^ (t + 52) := zpow_le_zpow_right₀ one_le_two (by omega)

end Representable

/-! ### Rounding -/

/-- A number `r` that a number `q` is rounded to: no representable number lies between the two, on
either side. -/
structure Rounds (q r : Rat) : Prop where
  /-- Representable numbers above stay above. -/
  le : ∀ b, Representable b → q ≤ b → r ≤ b
  /-- Representable numbers below stay below. -/
  ge : ∀ b, Representable b → b ≤ q → b ≤ r

namespace Rounds

variable {q r b : Rat}

theorem refl (q : Rat) : Rounds q q := ⟨fun _ _ h => h, fun _ _ h => h⟩

theorem neg (h : Rounds q r) : Rounds (-q) (-r) where
  le b hb hq := by linarith [h.ge (-b) hb.neg (by linarith)]
  ge b hb hq := by linarith [h.le (-b) hb.neg (by linarith)]

/-- A representable number is rounded to itself. -/
theorem eq_of_representable (h : Rounds q r) (hq : Representable q) : r = q :=
  le_antisymm (h.le q hq le_rfl) (h.ge q hq le_rfl)

theorem abs_le_of_representable (h : Rounds q r) (hb : Representable b) (hq : |q| ≤ b) :
    |r| ≤ b := by
  rw [abs_le] at hq ⊢
  exact ⟨h.ge (-b) hb.neg hq.1, h.le b hb hq.2⟩

/-- Rounding to a multiple of a power of two, when no multiple lies between: the power is the least
one, or the number has 53 bits above it. -/
theorem of_multiple {m : Nat} {t : Int} (hnormal : t = -1074 ∨ 2 ^ (t + 52) ≤ q)
    (hle : ∀ n : Int, n * 2 ^ t ≤ q → n ≤ m) (hge : ∀ n : Int, q ≤ n * 2 ^ t → (m : Int) ≤ n) :
    Rounds q (m * 2 ^ t) := by
  have hlimit : (2 : Rat) ^ (t + 52) = (2 ^ 52 : Int) * 2 ^ t := by
    rw [zpow_add₀ two_ne_zero]
    push_cast
    ring
  have hmul {n n' : Int} (h : n ≤ n') : (n : Rat) * 2 ^ t ≤ n' * 2 ^ t := by gcongr
  constructor
  · intro b hb hq
    rcases hb.multiple_or_le t with ⟨n, rfl⟩ | ⟨ht, hle'⟩
    · exact_mod_cast hmul (hge n hq)
    · -- the number itself is the least one with 53 bits above the power
      have hnormal := hnormal.resolve_left ht.ne'
      have hm := hmul (hge (2 ^ 52) (hlimit ▸ hq.trans hle'))
      calc (m : Rat) * 2 ^ t ≤ (2 ^ 52 : Int) * 2 ^ t := by exact_mod_cast hm
        _ = 2 ^ (t + 52) := hlimit.symm
        _ ≤ b := hnormal.trans hq
  · intro b hb hq
    rcases hb.multiple_or_le t with ⟨n, rfl⟩ | ⟨ht, hle'⟩
    · exact_mod_cast hmul (hle n hq)
    · have hnormal := hnormal.resolve_left ht.ne'
      have hm := hmul (hle (2 ^ 52) (hlimit ▸ hnormal))
      calc b ≤ 2 ^ (t + 52) := hle'
        _ = (2 ^ 52 : Int) * 2 ^ t := hlimit
        _ ≤ m * 2 ^ t := by exact_mod_cast hm

end Rounds

/-! ### Mantissas with further bits -/

/-- A mantissa with the bits that were shifted out of it stands for a number from the mantissa to
below the next one, and for the mantissa itself exactly when none of these bits is set. -/
structure Brackets (em : ExtendedMantissa) (v : Rat) : Prop where
  /-- The mantissa is not above the number. -/
  le : (em.mantissa : Rat) ≤ v
  /-- The next mantissa is above the number. -/
  lt : v < em.mantissa + 1
  /-- The bits tell whether the number is the mantissa. -/
  eq_iff : v = em.mantissa ↔ em.roundBit = false ∧ em.stickyBit = false

namespace Brackets

variable {em : ExtendedMantissa} {v : Rat} {n : Int}

theorem exact (m : Nat) : Brackets (.ofMantissaAndAccuracy m .exact) m where
  le := le_rfl
  lt := lt_add_one _
  eq_iff := by simp [ExtendedMantissa.ofMantissaAndAccuracy]

theorem shiftRightOne (h : Brackets em v) : Brackets em.shiftRightOne (v / 2) := by
  obtain ⟨hle, hlt, heq⟩ := h
  have hdiv : (em.mantissa : Rat) = 2 * (em.mantissa / 2 : Nat) + (em.mantissa % 2 : Nat) := by
    exact_mod_cast (Nat.div_add_mod em.mantissa 2).symm
  have hmod : ((em.mantissa % 2 : Nat) : Rat) ≤ 1 := by
    exact_mod_cast Nat.le_of_lt_succ (Nat.mod_lt em.mantissa two_pos)
  have hmod₀ : (0 : Rat) ≤ (em.mantissa % 2 : Nat) := Nat.cast_nonneg _
  constructor
  · change ((em.mantissa / 2 : Nat) : Rat) ≤ v / 2
    linarith
  · change v / 2 < ((em.mantissa / 2 : Nat) : Rat) + 1
    linarith
  · change v / 2 = ((em.mantissa / 2 : Nat) : Rat) ↔
      (em.mantissa % 2 != 0) = false ∧ (em.roundBit || em.stickyBit) = false
    rw [Bool.or_eq_false_iff, ← heq, bne_eq_false_iff_eq]
    constructor
    · intro hv
      have hzero : ((em.mantissa % 2 : Nat) : Rat) = 0 := by linarith
      exact ⟨by exact_mod_cast hzero, by linarith⟩
    · rintro ⟨hzero, rfl⟩
      rw [hdiv, hzero]
      push_cast
      ring

theorem shiftRight (h : Brackets em v) (k : Nat) : Brackets (em >>> k) (v / 2 ^ k) := by
  change Brackets (k.repeat ExtendedMantissa.shiftRightOne em) _
  induction k with
  | zero => simpa [Nat.repeat] using h
  | succ k ih =>
    rw [Nat.repeat, pow_succ, ← div_div]
    exact ih.shiftRightOne

private theorem roundedMantissa_bounds (em : ExtendedMantissa) :
    em.mantissa ≤ em.roundedMantissa ∧ em.roundedMantissa ≤ em.mantissa + 1 := by
  obtain ⟨m, round, sticky⟩ := em
  cases round <;> cases sticky <;>
    simp only [ExtendedMantissa.roundedMantissa, ExtendedMantissa.accuracy,
      Accuracy.roundToNearestEven] <;> omega

/-- The rounded mantissa is not above an integer that the number is not above. -/
theorem roundedMantissa_le (h : Brackets em v) (hn : v ≤ n) : (em.roundedMantissa : Int) ≤ n := by
  have hbounds := (roundedMantissa_bounds em).2
  have hle : (em.mantissa : Int) ≤ n := by exact_mod_cast h.le.trans hn
  rcases hle.lt_or_eq with hlt | heq
  · omega
  · -- nothing was shifted out, so nothing is rounded
    have hv : v = em.mantissa := le_antisymm (by rw [← Int.cast_natCast, heq]; exact hn) h.le
    obtain ⟨hround, hsticky⟩ := h.eq_iff.mp hv
    obtain ⟨m, round, sticky⟩ := em
    obtain rfl : round = false := hround
    obtain rfl : sticky = false := hsticky
    exact hle

/-- The rounded mantissa is not below an integer that the number is not below. -/
theorem le_roundedMantissa (h : Brackets em v) (hn : n ≤ v) : n ≤ em.roundedMantissa := by
  have hbounds := (roundedMantissa_bounds em).1
  have hlt : (n : Rat) < (em.mantissa + 1 : Int) := by
    push_cast
    exact hn.trans_lt h.lt
  have hlt : n < em.mantissa + 1 := by exact_mod_cast hlt
  omega

end Brackets

/-! ### Rounding to double precision -/

namespace Unpacked

/-- The number that an unpacked double stands for, zero for what is not a finite number. -/
def value : UnpackedFloat → Rat
  | .finite s m e _ => (s.apply m : Int) * 2 ^ e
  | _ => 0

/-- A finite unpacked double in normal form: the significand has 53 bits unless the exponent is the
least one. The exponent may be too large. -/
def Canonical : UnpackedFloat → Prop
  | .finite _ m e _ => m < 2 ^ 53 ∧ -1074 ≤ e ∧ (2 ^ 52 ≤ m ∨ e = -1074)
  | .zero _ => True
  | _ => False

variable {m k : Nat} {e t : Int} {s : Sign} {v : Rat} {acc : Accuracy}

/-- The exponent that a mantissa is shifted to. -/
theorem targetExponent_eq (m : Nat) (e : Int) :
    Format.binary64.targetExponent (totalExponent m e) = max (m.log2 + e - 52) (-1074) := by
  simp only [Format.targetExponent, totalExponent, Format.mantissaBits, Format.minExponent]
  norm_num
  omega

/-- The unpacked double of a rounded mantissa, which may have one bit too many. -/
def carry (s : Sign) (m : Nat) (e : Int) : UnpackedFloat :=
  let last := shiftToTargetExponent .binary64 m e .exact
  if h : last.1.mantissa = 0 then .zero s
  else .finite s last.1.mantissa last.2 (Nat.pos_of_ne_zero h)

theorem shiftToTargetExponent_of_lt (hm : m < 2 ^ 53) (he : -1074 ≤ e) :
    shiftToTargetExponent .binary64 m e .exact = (⟨m, false, false⟩, e) := by
  have hlog : m.log2 < 53 := by
    by_cases hzero : m = 0
    · rw [hzero]
      decide
    · exact (Nat.log2_lt hzero).mpr hm
  have hshift : (max (m.log2 + e - 52) (-1074) - e).toNat = 0 := by omega
  simp only [shiftToTargetExponent, targetExponent_eq, shiftToExponent, hshift]
  exact congrArg _ (add_zero e)

theorem shiftToTargetExponent_of_eq (he : -1074 ≤ e) :
    shiftToTargetExponent .binary64 (2 ^ 53) e .exact = (⟨2 ^ 52, false, false⟩, e + 1) := by
  have hshift : (max ((2 ^ 53 : Nat).log2 + e - 52) (-1074) - e).toNat = 1 := by
    rw [Nat.log2_two_pow]
    omega
  simp only [shiftToTargetExponent, targetExponent_eq, shiftToExponent, hshift]
  rfl

/-- A bit too many is not set, so taking it away changes nothing. -/
theorem carry_spec (s : Sign) (hm : m ≤ 2 ^ 53) (he : -1074 ≤ e)
    (hnormal : e = -1074 ∨ 2 ^ 52 ≤ m) :
    Canonical (carry s m e) ∧ value (carry s m e) = (s.apply m : Int) * 2 ^ e := by
  rcases hm.lt_or_eq with hlt | rfl
  · simp only [carry, shiftToTargetExponent_of_lt hlt he]
    split
    · rename_i hzero
      refine ⟨trivial, ?_⟩
      rw [hzero]
      cases s <;> simp [value, Sign.apply]
    · exact ⟨⟨hlt, he, hnormal.symm⟩, rfl⟩
  · simp only [carry, shiftToTargetExponent_of_eq he]
    refine ⟨⟨by decide, by omega, Or.inl le_rfl⟩, ?_⟩
    have hpow : (2 : Rat) ^ (e + 1) = 2 * 2 ^ e := by
      rw [zpow_add₀ two_ne_zero, zpow_one, mul_comm]
    change ((s.apply (2 ^ 52 : Nat) : Int) : Rat) * 2 ^ (e + 1) = _
    rw [hpow]
    cases s <;> simp only [Sign.apply] <;> push_cast <;> ring

theorem mantissa_ofMantissaAndAccuracy (m : Nat) (acc : Accuracy) :
    (ExtendedMantissa.ofMantissaAndAccuracy m acc).mantissa = m := by
  cases acc with
  | exact => rfl
  | inexact o => cases o <;> rfl

/-- A number has at least 53 bits above the exponent that its mantissa is shifted to, unless that is
the least one. -/
theorem least_or_le_mul (hv : Brackets (.ofMantissaAndAccuracy m acc) v) (hm : m ≠ 0 ∨ e ≤ -1022)
    (ht : t = max (m.log2 + e - 52) (-1074)) : t = -1074 ∨ (2 ^ (t + 52) : Rat) ≤ v * 2 ^ e := by
  by_cases hleast : t = -1074
  · exact Or.inl hleast
  · have hexp : t + 52 = m.log2 + e := by omega
    have hzero : m ≠ 0 := by
      rintro rfl
      simp only [Nat.log2_zero] at hexp
      omega
    have hlog : ((2 ^ m.log2 : Nat) : Rat) ≤ m := by exact_mod_cast Nat.log2_self_le hzero
    have hmv := hv.le
    rw [mantissa_ofMantissaAndAccuracy] at hmv
    refine Or.inr ?_
    rw [hexp, zpow_add₀ two_ne_zero, zpow_natCast]
    push_cast at hlog
    gcongr
    exact hlog.trans hmv

/-- A number has at most 53 bits above the exponent that its mantissa is shifted to. -/
theorem mul_le_two_pow (hv : Brackets (.ofMantissaAndAccuracy m acc) v)
    (ht : m.log2 + e - 52 ≤ t) : v * 2 ^ e ≤ (2 ^ 53 : Int) * 2 ^ t := by
  have hlog : (m + 1 : Rat) ≤ 2 ^ (m.log2 + 1) := by exact_mod_cast Nat.lt_log2_self
  have hlt := hv.lt
  rw [mantissa_ofMantissaAndAccuracy] at hlt
  have hmv : v ≤ 2 ^ ((m.log2 : Int) + 1) := hlt.le.trans (by exact_mod_cast hlog)
  calc v * 2 ^ e ≤ 2 ^ ((m.log2 : Int) + 1) * 2 ^ e := by gcongr
    _ = 2 ^ ((m.log2 : Int) + 1 + e) := (zpow_add₀ two_ne_zero _ _).symm
    _ ≤ 2 ^ (53 + t) := zpow_le_zpow_right₀ one_le_two (by omega)
    _ = (2 ^ 53 : Int) * 2 ^ t := by
      rw [zpow_add₀ two_ne_zero]
      norm_num

/-- What rounding does with a number that a mantissa stands for, at an exponent that is not above
the one that the mantissa is shifted to: it expresses the number in units `2 ^ t`, of which there
are at most `2 ^ 53` in it, and at least `2 ^ 52` unless the unit is the least one, and rounds the
number of units. -/
theorem roundWithAccuracy_units (s : Sign) (hv : Brackets (.ofMantissaAndAccuracy m acc) v)
    (he : e ≤ max (m.log2 + e - 52) (-1074)) (hm : m ≠ 0 ∨ e ≤ -1022) :
    ∃ (k : Nat) (t : Int), v * 2 ^ e = v / 2 ^ k * 2 ^ t ∧
      (t = -1074 ∨ 2 ^ (t + 52) ≤ v * 2 ^ e) ∧ v * 2 ^ e ≤ (2 ^ 53 : Int) * 2 ^ t ∧
      Canonical (roundWithAccuracy .binary64 s m e acc) ∧
      value (roundWithAccuracy .binary64 s m e acc) =
        (s.apply (ExtendedMantissa.ofMantissaAndAccuracy m acc >>> k).roundedMantissa : Int) *
          2 ^ t := by
  set t := max (m.log2 + e - 52) (-1074) with ht
  set k := (t - e).toNat with hk
  have hcarry : roundWithAccuracy .binary64 s m e acc =
      carry s (ExtendedMantissa.ofMantissaAndAccuracy m acc >>> k).roundedMantissa (e + k) := by
    rw [hk, ht, ← targetExponent_eq]
    rfl
  have hek : e + k = t := by omega
  rw [hek] at hcarry
  set em := ExtendedMantissa.ofMantissaAndAccuracy m acc >>> k
  have hw : Brackets em (v / 2 ^ k) := hv.shiftRight k
  have hunits : v * 2 ^ e = v / 2 ^ k * 2 ^ t := by
    rw [← hek, zpow_add₀ two_ne_zero, zpow_natCast, mul_comm (2 ^ e) (2 ^ k : Rat), ← mul_assoc,
      div_mul_cancel₀ _ (pow_ne_zero k two_ne_zero)]
  have hpos : (0 : Rat) < 2 ^ t := zpow_pos two_pos t
  have hnormal := least_or_le_mul hv hm ht
  have hlarge := mul_le_two_pow hv (t := t) (le_max_left _ _)
  have hbound : em.roundedMantissa ≤ 2 ^ 53 := by
    exact_mod_cast hw.roundedMantissa_le (n := 2 ^ 53)
      (le_of_mul_le_mul_right (hunits ▸ hlarge) hpos)
  have hcanonical : t = -1074 ∨ 2 ^ 52 ≤ em.roundedMantissa := by
    refine hnormal.imp_right fun hn => ?_
    have hlimit : (2 ^ 52 : Int) * (2 : Rat) ^ t = 2 ^ (t + 52) := by
      rw [zpow_add₀ two_ne_zero]
      push_cast
      ring
    exact_mod_cast hw.le_roundedMantissa (n := 2 ^ 52)
      (le_of_mul_le_mul_right (hunits ▸ hlimit.trans_le hn) hpos)
  obtain ⟨hcanon, hvalue⟩ := carry_spec s hbound (le_max_right _ _) hcanonical
  exact ⟨k, t, hunits, hnormal, hlarge, hcarry ▸ hcanon, by rw [hcarry, hvalue]⟩

/-- **Rounding** of a number that a mantissa stands for, at an exponent that is not above the one
that the mantissa is shifted to. -/
theorem roundWithAccuracy_spec (s : Sign) (hv : Brackets (.ofMantissaAndAccuracy m acc) v)
    (he : e ≤ max (m.log2 + e - 52) (-1074)) (hm : m ≠ 0 ∨ e ≤ -1022) :
    Canonical (roundWithAccuracy .binary64 s m e acc) ∧
      Rounds ((s.apply 1 : Int) * (v * 2 ^ e))
        (value (roundWithAccuracy .binary64 s m e acc)) := by
  obtain ⟨k, t, hunits, hnormal, -, hcanon, hvalue⟩ := roundWithAccuracy_units s hv he hm
  refine ⟨hcanon, ?_⟩
  rw [hvalue]
  have hw := hv.shiftRight k
  have hpos : (0 : Rat) < 2 ^ t := zpow_pos two_pos t
  have hrounds := Rounds.of_multiple hnormal
    (fun n hn => hw.le_roundedMantissa (le_of_mul_le_mul_right (hunits ▸ hn) hpos))
    fun n hn => hw.roundedMantissa_le (le_of_mul_le_mul_right (hunits ▸ hn) hpos)
  cases s with
  | positive => simpa [Sign.apply] using hrounds
  | negative => simpa [Sign.apply] using hrounds.neg

end Unpacked

end QuboReduction

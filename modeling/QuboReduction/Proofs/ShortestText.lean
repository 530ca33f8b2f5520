import QuboReduction.Decimal.Shortest
import QuboReduction.Proofs.DecimalText
import QuboReduction.Proofs.IntegralDoubles
import QuboReduction.Proofs.Unordered

/-!
# Texts of doubles

A double is written as a decimal among the numbers that round to it. No number rounds to two doubles
of different magnitude: the intervals of neighbours meet at most at an end, and of two neighbours
one has an odd significand, so its interval does not include the end. The decimal is read back from
the text, and the sign is in front of it. So two finite doubles with the same text in reports are
equal.

## Main definitions

* `QuboReduction.Binary64.Normal` — the parts of a double in normal form.
* `QuboReduction.Binary64.Covers` — a number rounds to the magnitude of a double.

## Main results

* `QuboReduction.Binary64.covers_shortest` — the shortest decimal rounds to the double.
* `QuboReduction.Binary64.Covers.unique` — a number rounds to one magnitude only.
* `QuboReduction.Binary64.beq_of_reportText_eq` — texts in reports tell doubles apart.
* `QuboReduction.Binary64.mem_reportText` — the characters of these texts.
-/

namespace QuboReduction

namespace Binary64

variable {v w : Binary64} {a : Rat} {x y : Float}

/-! ### Parts in normal form -/

/-- The parts of a double are in normal form: the exponent is the least one that the significand
allows, and the gap below is narrow at the powers of two above the least exponent. -/
structure Normal (v : Binary64) : Prop where
  /-- The significand has 53 bits. -/
  significand_lt : v.significand < 2 ^ 53
  /-- The exponent is not below the least one. -/
  le_exponent : -1074 ≤ v.exponent
  /-- The first bit of the significand is set unless the exponent is the least one. -/
  normal_or_least : 2 ^ 52 ≤ v.significand ∨ v.exponent = -1074
  /-- The gap below is half the gap above at powers of two. -/
  narrowBelow_iff : v.narrowBelow = true ↔ v.significand = 2 ^ 52 ∧ -1074 < v.exponent

theorem normal_ofFloat (x : Float) : (ofFloat x).Normal := by
  have hfraction : x.toModel.toBits.toBitVec.toNat % 2 ^ 52 < 2 ^ 52 :=
    Nat.mod_lt _ (Nat.two_pow_pos 52)
  rw [ofFloat_eq]
  dsimp only
  generalize x.toModel.toBits.toBitVec.toNat >>> 52 % 2 ^ 11 = field at *
  generalize x.toModel.toBits.toBitVec.toNat % 2 ^ 52 = fraction at *
  split
  · exact ⟨by dsimp only; omega, le_rfl, Or.inr rfl, by simp⟩
  · refine ⟨by dsimp only; omega, by dsimp only; omega, Or.inl (by simp), ?_⟩
    simp only [Bool.and_eq_true, beq_iff_eq, decide_eq_true_eq]
    omega

/-! ### Rounding intervals -/

/-- Four times the lower end of the rounding interval, in units of the significand. -/
def lower (v : Binary64) : Nat := 4 * v.significand - (if v.narrowBelow then 1 else 2)

/-- Four times the upper end of the rounding interval, in units of the significand. -/
def upper (v : Binary64) : Nat := 4 * v.significand + 2

/-- A number rounds to the magnitude of a double: it lies in the rounding interval, which includes
its ends if the significand is even. -/
@[mk_iff]
structure Covers (v : Binary64) (a : Rat) : Prop where
  /-- The number is above the lower end, or it is this end. -/
  above : v.lower * 2 ^ (v.exponent - 2) < a ∨
    Even v.significand ∧ a = v.lower * 2 ^ (v.exponent - 2)
  /-- The number is below the upper end, or it is this end. -/
  below : a < v.upper * 2 ^ (v.exponent - 2) ∨
    Even v.significand ∧ a = v.upper * 2 ^ (v.exponent - 2)

/-- Scaled numbers are compared exactly. -/
theorem compareScaled_eq (a : Nat) (i : Int) (n : Nat) (j : Int) :
    compareScaled a i n j = compare ((a : Rat) * 10 ^ i) (n * 2 ^ j) := by
  have hten : (10 : Rat) ^ i * 10 ^ (-i).toNat = 10 ^ i.toNat := by
    rw [← zpow_natCast, ← zpow_natCast, ← zpow_add₀ (by norm_num)]
    congr 1
    omega
  have htwo : (2 : Rat) ^ j * 2 ^ (-j).toNat = 2 ^ j.toNat := by
    rw [← zpow_natCast, ← zpow_natCast, ← zpow_add₀ two_ne_zero]
    congr 1
    omega
  -- both sides are multiplied by the powers that negative exponents ask for
  have hpos : (0 : Rat) < 10 ^ (-i).toNat * 2 ^ (-j).toNat := by positivity
  have hleft : ((a * Nat.pow 10 i.toNat * Nat.pow 2 (-j).toNat : Nat) : Rat) =
      a * 10 ^ i * (10 ^ (-i).toNat * 2 ^ (-j).toNat) := by
    push_cast [Nat.pow_eq]
    rw [← hten]
    ring
  have hright : ((n * Nat.pow 2 j.toNat * Nat.pow 10 (-i).toNat : Nat) : Rat) =
      n * 2 ^ j * (10 ^ (-i).toNat * 2 ^ (-j).toNat) := by
    push_cast [Nat.pow_eq]
    rw [← htwo]
    ring
  rw [compareScaled, ← cmp_eq_compare, ← cmp_eq_compare, ← cmp_mul_pos_right hpos, ← hleft,
    ← hright]
  exact (Nat.strictMono_cast.cmp_map_eq _ _).symm

/-- What is found to read back as a double rounds to it. -/
theorem readsBack_iff (d : Decimal) : v.readsBack d = true ↔ v.Covers d.value := by
  have heven : (v.significand % 2 == 0) = true ↔ Even v.significand := by
    rw [beq_iff_eq, Nat.even_iff]
  rw [readsBack, covers_iff]
  rw [← lower, ← upper, compareScaled_eq, compareScaled_eq, ← Decimal.value]
  simp only [Bool.and_eq_true, Bool.or_eq_true, heven, beq_iff_eq, compare_gt_iff_gt,
    compare_lt_iff_lt, compare_eq_iff_eq]

/-- Intervals with a number in common overlap, or meet at an end that both of them include. -/
theorem Covers.meet (hv : v.Covers a) (hw : w.Covers a) :
    (w.lower : Rat) * 2 ^ (w.exponent - 2) < v.upper * 2 ^ (v.exponent - 2) ∨
      Even v.significand ∧ Even w.significand ∧
        (w.lower : Rat) * 2 ^ (w.exponent - 2) = v.upper * 2 ^ (v.exponent - 2) := by
  rcases hw.above with habove | ⟨heven, rfl⟩ <;> rcases hv.below with hbelow | ⟨heven', heq⟩
  · exact Or.inl (habove.trans hbelow)
  · exact Or.inl (habove.trans_eq heq)
  · exact Or.inl hbelow
  · exact Or.inr ⟨heven', heven, heq⟩

/-- Above the least exponent the lower end is at least that of the least significand. -/
theorem Normal.le_lower (hw : w.Normal) (hexponent : -1074 < w.exponent) :
    2 ^ 54 - 1 ≤ w.lower := by
  have hsignificand := hw.normal_or_least.resolve_right hexponent.ne'
  rw [lower]
  split
  · omega
  · rename_i hnarrow
    have hne : w.significand ≠ 2 ^ 52 := fun heq =>
      hnarrow (hw.narrowBelow_iff.mpr ⟨heq, hexponent⟩)
    omega

/-- Intervals of doubles with different exponents have no number in common: the one with the
smaller exponent ends at the latest where the other one begins, and does not include this end, since
the largest significand is odd. -/
theorem Covers.exponent_le (hv : v.Normal) (hw : w.Normal) (h : v.Covers a) (h' : w.Covers a) :
    w.exponent ≤ v.exponent := by
  by_contra hlt
  rw [not_le] at hlt
  have hlower := hw.le_lower (hv.le_exponent.trans_lt hlt)
  have hscale : ∀ n : Nat, n ≤ 2 ^ 55 - 2 →
      (n : Rat) * 2 ^ (v.exponent - 2) ≤ w.lower * 2 ^ (w.exponent - 2) := fun n hn => by
    have hle : (n : Rat) ≤ w.lower * 2 := by
      have hle : n ≤ w.lower * 2 := by omega
      exact_mod_cast hle
    calc (n : Rat) * 2 ^ (v.exponent - 2) ≤ w.lower * 2 * 2 ^ (v.exponent - 2) := by gcongr
      _ = w.lower * 2 ^ (v.exponent - 2 + 1) := by rw [zpow_add_one₀ two_ne_zero]; ring
      _ ≤ w.lower * 2 ^ (w.exponent - 2) := by
        gcongr
        · exact one_le_two
        · omega
  have hsignificand := hv.significand_lt
  rcases h.meet h' with hmeet | ⟨⟨k, hk⟩, -, hmeet⟩
  · exact (hscale v.upper (by rw [upper]; omega)).not_gt hmeet
  · have hnext := hscale (v.upper + 1) (by rw [upper]; omega)
    have hpos : (0 : Rat) < 2 ^ (v.exponent - 2) := zpow_pos two_pos _
    push_cast at hnext
    linarith

/-- Intervals of different significands at one exponent have no number in common. -/
theorem Covers.significand_le (hexponent : v.exponent = w.exponent) (h : v.Covers a)
    (h' : w.Covers a) : w.significand ≤ v.significand := by
  by_contra hlt
  rw [not_le] at hlt
  have hpos : (0 : Rat) < 2 ^ (w.exponent - 2) := zpow_pos two_pos _
  have hends : v.upper ≤ w.lower := by
    rw [upper, lower]
    split <;> omega
  rcases h.meet h' with hmeet | ⟨heven, heven', hmeet⟩
  · rw [hexponent, mul_lt_mul_iff_left₀ hpos] at hmeet
    exact hends.not_gt (by exact_mod_cast hmeet)
  · -- neighbours, of which one is odd
    rw [hexponent, mul_left_inj' hpos.ne'] at hmeet
    have hmeet : w.lower = v.upper := by exact_mod_cast hmeet
    rw [lower, upper] at hmeet
    rw [Nat.even_iff] at heven heven'
    split at hmeet <;> omega

/-- **A number rounds to one magnitude only.** -/
theorem Covers.unique (hv : v.Normal) (hw : w.Normal) (h : v.Covers a) (h' : w.Covers a) :
    v.significand = w.significand ∧ v.exponent = w.exponent := by
  have hexponent := le_antisymm (h'.exponent_le hw hv h) (h.exponent_le hv hw h')
  have hsignificand := le_antisymm (h'.significand_le hexponent.symm h)
    (h.significand_le hexponent h')
  exact ⟨hsignificand, hexponent⟩

/-! ### The shortest decimal -/

theorem covers_zero (h : v.significand = 0) : v.Covers 0 where
  above := Or.inr ⟨by simp [h], by simp [lower, h]⟩
  below := Or.inl (by rw [upper, h]; positivity)

/-- A double rounds to itself. -/
theorem covers_self (h : v.significand ≠ 0) : v.Covers (v.significand * 2 ^ v.exponent) := by
  have hself : (v.significand : Rat) * 2 ^ v.exponent =
      (4 * v.significand : Nat) * 2 ^ (v.exponent - 2) := by
    rw [zpow_sub₀ two_ne_zero]
    push_cast
    ring
  have hpos : (0 : Rat) < 2 ^ (v.exponent - 2) := zpow_pos two_pos _
  rw [hself]
  refine ⟨Or.inl ?_, Or.inl ?_⟩
  · rw [mul_lt_mul_iff_left₀ hpos, Nat.cast_lt, lower]
    split <;> omega
  · rw [mul_lt_mul_iff_left₀ hpos, Nat.cast_lt, upper]
    omega

theorem value_exact (v : Binary64) : v.exact.value = v.significand * 2 ^ v.exponent := by
  rw [exact]
  split
  · rename_i hexponent
    rw [Decimal.value, zpow_zero, mul_one]
    push_cast [Nat.pow_eq]
    rw [← zpow_natCast, Int.toNat_of_nonneg hexponent]
  · rename_i hexponent
    have hfive : (5 : Rat) ^ (-v.exponent).toNat * 10 ^ v.exponent = 2 ^ v.exponent := by
      rw [← zpow_natCast, Int.toNat_of_nonneg (by omega), show (10 : Rat) = 5 * 2 by norm_num,
        mul_zpow, ← mul_assoc, ← zpow_add₀ (by norm_num), neg_add_cancel, zpow_zero, one_mul]
    rw [Decimal.value]
    push_cast [Nat.pow_eq]
    rw [mul_assoc, hfive]

/-- A decimal that is selected rounds to the double. -/
theorem covers_of_onGrid {tie : Tie} {e : Int} {d : Decimal} (h : v.onGrid tie e = some d) :
    v.Covers d.value := by
  rw [← readsBack_iff]
  rw [onGrid] at h
  split at h
  · contradiction
  · rename_i hlow _
    rwa [← Option.some.inj h]
  · rename_i _ hhigh
    rwa [← Option.some.inj h]
  · rename_i hlow hhigh
    split at h
    · rwa [← Option.some.inj h]
    · rwa [← Option.some.inj h]
    · split at h
      · rwa [← Option.some.inj h]
      · rwa [← Option.some.inj h]

/-- **The shortest decimal** rounds to the double. -/
theorem covers_shortest (tie : Tie) (v : Binary64) : v.Covers (v.shortest tie).value := by
  rw [shortest]
  split
  · rename_i hzero
    simpa [Decimal.value] using covers_zero hzero
  · rename_i hpos
    rw [Decimal.value_trim]
    cases hfound : (List.range 17).findSome? fun n => v.onGrid tie (v.scale - (n + 1 : Nat)) with
    | none => exact v.value_exact ▸ covers_self hpos
    | some d =>
      obtain ⟨n, -, hn⟩ := List.exists_of_findSome?_eq_some hfound
      exact covers_of_onGrid hn

/-! ### Texts in reports -/

/-- The digits of a double in reports. -/
def reportDigits (x : Float) : List Char :=
  ((ofFloat x).shortest .awayFromZero).positional []

theorem toList_reportText (hx : x.isFinite = true) :
    (reportText x).toList =
      if (ofFloat x).negative then '-' :: reportDigits x else reportDigits x := by
  have hnan : x.isNaN = false := isNaN_of_isFinite hx
  have hinf : x.isInf = false := by
    change x.toModel.unpack.isInf = false
    rcases (canonical hx).cases with ⟨s, hu⟩ | ⟨s, m, e, hm, hu⟩ <;> rw [hu] <;> rfl
  rw [reportText, hnan, hinf]
  simp only [Bool.false_eq_true, if_false, text, Decimal.write, reportStyle, if_true,
    String.toList_ofList]
  rfl

theorem minus_notMem_reportDigits (x : Float) : '-' ∉ reportDigits x := fun h => by
  rcases Decimal.isDigit_or_point h with h | h <;> exact absurd h (by decide)

/-- The characters of a text are digits, a sign and a point. -/
theorem mem_reportText (hx : x.isFinite = true) {c : Char} (h : c ∈ (reportText x).toList) :
    c.isDigit = true ∨ c = '-' ∨ c = '.' := by
  have hdigits : c ∈ reportDigits x → c.isDigit = true ∨ c = '-' ∨ c = '.' := fun h =>
    (Decimal.isDigit_or_point h).imp_right Or.inr
  rw [toList_reportText hx] at h
  split at h
  · rcases List.mem_cons.mp h with rfl | h
    · exact Or.inr (Or.inl rfl)
    · exact hdigits h
  · exact hdigits h

/-- A text has a digit. -/
theorem exists_digit_reportText (hx : x.isFinite = true) :
    ∃ c ∈ (reportText x).toList, c.isDigit = true := by
  obtain ⟨c, hc, hdigit⟩ := ((ofFloat x).shortest .awayFromZero).exists_digit
  refine ⟨c, ?_, hdigit⟩
  rw [toList_reportText hx]
  split
  · exact List.mem_cons_of_mem _ hc
  · exact hc

/-- **Texts tell doubles apart.** Finite doubles with the same text are equal. -/
theorem beq_of_reportText_eq (hx : x.isFinite = true) (hy : y.isFinite = true)
    (h : reportText x = reportText y) : (x == y) = true := by
  have hlist := congrArg String.toList h
  rw [toList_reportText hx, toList_reportText hy] at hlist
  have hsign : (ofFloat x).negative = (ofFloat y).negative ∧ reportDigits x = reportDigits y := by
    cases hnegative : (ofFloat x).negative <;> cases hnegative' : (ofFloat y).negative <;>
      simp only [hnegative, hnegative', if_true, Bool.false_eq_true, if_false] at hlist
    · exact ⟨rfl, hlist⟩
    · exact absurd (hlist ▸ List.mem_cons_self) (minus_notMem_reportDigits x)
    · exact absurd (hlist ▸ List.mem_cons_self) (minus_notMem_reportDigits y)
    · exact ⟨rfl, (List.cons.inj hlist).2⟩
  have hvalue := congrArg Decimal.readPositional hsign.2
  rw [reportDigits, reportDigits, Decimal.readPositional_positional,
    Decimal.readPositional_positional] at hvalue
  have hcovers := covers_shortest .awayFromZero (ofFloat x)
  rw [hvalue] at hcovers
  obtain ⟨hsignificand, hexponent⟩ := hcovers.unique (normal_ofFloat x) (normal_ofFloat y)
    (covers_shortest .awayFromZero (ofFloat y))
  rw [beq_iff_value_eq hx hy, value, value, signed, signed, hsign.1, hsignificand, hexponent]

end Binary64

end QuboReduction

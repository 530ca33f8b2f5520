import Mathlib.Algebra.Order.Field.Rat
import Mathlib.Data.List.TakeWhile
import Mathlib.Tactic.Ring
import QuboReduction.Decimal

/-!
# Reading decimals

A decimal in positional notation is read by joining the digits on both sides of the point and
counting those behind it. This gives back its number, so decimals with the same text stand for the
same number. The text has digits and at most a point, and it has a digit.

## Main definitions

* `QuboReduction.Decimal.value` — the number that a decimal stands for.
* `QuboReduction.Decimal.readPositional` — the number that a text denotes.

## Main results

* `QuboReduction.Decimal.value_trim` — trailing zeros do not matter.
* `QuboReduction.Decimal.readPositional_positional` — a text denotes the number that it was written
  for.
-/

namespace QuboReduction

namespace Decimal

variable {d : Decimal} {whole fraction text : List Char} {c : Char}

/-- The number that a decimal stands for. -/
def value (d : Decimal) : Rat := d.digits * 10 ^ d.exponent

/-! ### Trailing zeros -/

theorem value_trimZeros (fuel : Nat) (d : Decimal) : (trimZeros fuel d).value = d.value := by
  induction fuel generalizing d with
  | zero => rfl
  | succ fuel ih =>
    rw [trimZeros]
    split
    · rename_i hlast
      have hdigits : (d.digits : Rat) = (d.digits / 10 : Nat) * 10 := by
        exact_mod_cast (Nat.div_mul_cancel (Nat.dvd_of_mod_eq_zero hlast)).symm
      rw [ih, value, value, hdigits, zpow_add_one₀ (by norm_num)]
      ring
    · rfl

/-- Moving trailing zeros into the exponent keeps the number. -/
theorem value_trim (d : Decimal) : d.trim.value = d.value := by
  rw [trim]
  split
  · rename_i hzero
    simp [value, hzero]
  · exact value_trimZeros _ d

/-! ### Digits -/

theorem naturalOf_eq (text : List Char) : naturalOf text = Nat.ofDigitChars 10 text 0 := rfl

theorem figures_eq (d : Decimal) : d.figures = Nat.toDigits 10 d.digits := by
  rw [figures, Nat.toString_eq_repr, Nat.toList_repr]

theorem figures_ne_nil (d : Decimal) : d.figures ≠ [] := by
  rw [figures_eq]
  exact Nat.toDigits_ne_nil

theorem isDigit_of_mem_figures (h : c ∈ d.figures) : c.isDigit = true := by
  rw [figures_eq] at h
  exact Nat.isDigit_of_mem_toDigits (by decide) (by decide) h

theorem isDigit_of_mem_zeros {count : Nat} (h : c ∈ zeros count) : c.isDigit = true := by
  rw [List.eq_of_mem_replicate h]
  decide

theorem naturalOf_figures (d : Decimal) : naturalOf d.figures = d.digits := by
  rw [naturalOf_eq, figures_eq, Nat.ofDigitChars_ten_toDigits]

/-- Zeros behind digits multiply by powers of ten. -/
theorem naturalOf_append_zeros (text : List Char) (count : Nat) :
    naturalOf (text ++ zeros count) = 10 ^ count * naturalOf text := by
  rw [naturalOf_eq, naturalOf_eq, Nat.ofDigitChars_append, zeros, Nat.ofDigitChars_replicate_zero]

/-- Zeros in front of digits do not matter. -/
theorem naturalOf_zeros_append (count : Nat) (text : List Char) :
    naturalOf (zeros count ++ text) = naturalOf text := by
  rw [naturalOf_eq, naturalOf_eq, Nat.ofDigitChars_append, zeros, Nat.ofDigitChars_replicate_zero,
    Nat.mul_zero]

/-! ### Positional notation -/

/-- The number that a text of digits with or without a point denotes. -/
def readPositional (text : List Char) : Rat :=
  let (whole, rest) := spanDigits text
  naturalOf (whole ++ rest.drop 1) * 10 ^ (-((rest.drop 1).length : Int))

theorem readPositional_whole (h : ∀ c ∈ whole, c.isDigit = true) :
    readPositional whole = naturalOf whole := by
  have htake : whole.takeWhile Char.isDigit = whole := List.takeWhile_eq_self_iff.mpr h
  have hdrop : whole.dropWhile Char.isDigit = [] := List.dropWhile_eq_nil_iff.mpr h
  simp [readPositional, spanDigits, htake, hdrop]

theorem readPositional_point (h : ∀ c ∈ whole, c.isDigit = true) (fraction : List Char) :
    readPositional (whole ++ '.' :: fraction) =
      naturalOf (whole ++ fraction) * 10 ^ (-(fraction.length : Int)) := by
  have htake : (whole ++ '.' :: fraction).takeWhile Char.isDigit = whole := by
    rw [List.takeWhile_append_of_pos h, List.takeWhile_cons_of_neg (by decide), List.append_nil]
  have hdrop : (whole ++ '.' :: fraction).dropWhile Char.isDigit = '.' :: fraction := by
    rw [List.dropWhile_append_of_pos h, List.dropWhile_cons_of_neg (by decide)]
  rw [readPositional, spanDigits, htake, hdrop]
  rfl

/-- The three forms of a decimal in positional notation. -/
theorem positional_cases (d : Decimal) :
    (0 ≤ d.exponent ∧ d.positional [] = d.figures ++ zeros d.exponent.toNat) ∨
      ∃ whole fraction : List Char, d.positional [] = whole ++ '.' :: fraction ∧
        (∀ c ∈ whole, c.isDigit = true) ∧ (∀ c ∈ fraction, c.isDigit = true) ∧ whole ≠ [] ∧
        naturalOf (whole ++ fraction) = d.digits ∧ (fraction.length : Int) = -d.exponent := by
  by_cases hexponent : 0 ≤ d.exponent
  · exact Or.inl ⟨hexponent, by rw [positional, if_pos hexponent, List.append_nil]⟩
  · refine Or.inr ?_
    rw [positional, if_neg hexponent]
    dsimp only
    split
    · rename_i hplaces
      refine ⟨_, _, rfl, fun c hc => isDigit_of_mem_figures (List.mem_of_mem_take hc),
        fun c hc => isDigit_of_mem_figures (List.mem_of_mem_drop hc), ?_, ?_, ?_⟩
      · rw [Ne, List.take_eq_nil_iff]
        simp only [figures_ne_nil, or_false]
        omega
      · rw [List.take_append_drop, naturalOf_figures]
      · rw [List.length_drop]
        omega
    · rename_i hplaces
      refine ⟨['0'], _, rfl, List.forall_mem_singleton.mpr rfl, ?_, by simp, ?_, ?_⟩
      · intro c hc
        rcases List.mem_append.mp hc with hc | hc
        · exact isDigit_of_mem_zeros hc
        · exact isDigit_of_mem_figures hc
      · have hzeros : ['0'] ++ (zeros ((-d.exponent).toNat - d.figures.length) ++ d.figures) =
            zeros ((-d.exponent).toNat - d.figures.length + 1) ++ d.figures := by
          simp [zeros, List.replicate_succ]
        rw [hzeros, naturalOf_zeros_append, naturalOf_figures]
      · rw [List.length_append, zeros, List.length_replicate]
        omega

/-- **A text denotes the number that it was written for.** -/
theorem readPositional_positional (d : Decimal) : readPositional (d.positional []) = d.value := by
  rcases d.positional_cases with ⟨hexponent, htext⟩ | ⟨whole, fraction, htext, hwhole, -, -,
    hdigits, hlength⟩
  · have hall : ∀ c ∈ d.figures ++ zeros d.exponent.toNat, c.isDigit = true := fun c hc => by
      rcases List.mem_append.mp hc with hc | hc
      · exact isDigit_of_mem_figures hc
      · exact isDigit_of_mem_zeros hc
    have hpow : (10 : Rat) ^ d.exponent = 10 ^ d.exponent.toNat := by
      rw [← zpow_natCast, Int.toNat_of_nonneg hexponent]
    rw [htext, readPositional_whole hall, naturalOf_append_zeros, naturalOf_figures, value, hpow]
    push_cast
    ring
  · rw [htext, readPositional_point hwhole, hdigits, hlength, neg_neg, value]

/-- The characters of a text are digits and a point. -/
theorem isDigit_or_point (h : c ∈ d.positional []) : c.isDigit = true ∨ c = '.' := by
  rcases d.positional_cases with ⟨-, htext⟩ | ⟨whole, fraction, htext, hwhole, hfraction, -⟩
  · rw [htext, List.mem_append] at h
    exact Or.inl (h.elim isDigit_of_mem_figures isDigit_of_mem_zeros)
  · rw [htext, List.mem_append, List.mem_cons] at h
    rcases h with h | rfl | h
    · exact Or.inl (hwhole c h)
    · exact Or.inr rfl
    · exact Or.inl (hfraction c h)

/-- A text has a digit. -/
theorem exists_digit (d : Decimal) : ∃ c ∈ d.positional [], c.isDigit = true := by
  rcases d.positional_cases with ⟨-, htext⟩ | ⟨whole, fraction, htext, hwhole, -, hne, -⟩
  · obtain ⟨c, hc⟩ := List.exists_mem_of_ne_nil _ d.figures_ne_nil
    exact ⟨c, htext ▸ List.mem_append_left _ hc, isDigit_of_mem_figures hc⟩
  · obtain ⟨c, hc⟩ := List.exists_mem_of_ne_nil _ hne
    exact ⟨c, htext ▸ List.mem_append_left _ hc, hwhole c hc⟩

end Decimal

end QuboReduction

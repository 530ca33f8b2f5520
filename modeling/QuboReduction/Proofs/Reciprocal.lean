import QuboReduction.Proofs.Nearest

/-!
# Dividing by a rounded reciprocal

An integer that is a multiple of `g` is divided by `g` if it is multiplied by the double nearest to
`1 / g`, but only up to rounding: the reciprocal is not exact, and the product is rounded again. The
quotient is off by at most a part in `2 ^ 51`, and it is exact for all multiples if `g` times the
reciprocal is one up to a part in `2 ^ 54`. That is so for all `g` below 49, and for 49 it is not.

## Main definitions

* `QuboReduction.Binary64.reciprocal` — the double nearest to `1 / g`.
* `QuboReduction.Binary64.ExactReciprocal` — the divisors whose reciprocal is close enough.

## Main results

* `QuboReduction.Binary64.mul_reciprocal` — what multiplying by a reciprocal gives.
* `QuboReduction.Binary64.exactReciprocal_iff` — small divisors by which all multiples are divided
  exactly.
-/

namespace QuboReduction

namespace Binary64

variable {g : Nat} {x : Float} {n : Int}

/-- The double by which a number is multiplied in order to divide it by `g`. -/
def reciprocal (g : Nat) : Float := 1.0 / Float.ofNat g

/-- The reciprocal of a divisor is so close that every quotient is rounded to an integer. -/
def ExactReciprocal (g : Nat) : Prop := |(g : Rat) * value (reciprocal g) - 1| ≤ 1 / 2 ^ 54

instance : DecidablePred ExactReciprocal := fun _ => inferInstanceAs (Decidable (_ ≤ _))

/-! ### Reciprocals -/

/-- The reciprocal is a finite double, to which `1 / g` is rounded. -/
theorem reciprocal_spec (hpos : 0 < g) (hg : g ≤ 2 ^ 53) :
    (reciprocal g).isFinite = true ∧ Representable (value (reciprocal g)) ∧
      Rounds (1 / g) (value (reciprocal g)) := by
  have hdouble : IsDouble (2 ^ 53) := .two_pow (by omega)
  have hfinite : (Float.ofNat g).isFinite = true :=
    (ofNat_atMost hdouble (by exact_mod_cast hg)).isFinite
  have hone : (1 : Rat) ≤ g := by exact_mod_cast hpos
  obtain ⟨hcanonical, hrounds⟩ := Unpacked.div_spec (canonical isFinite_one) (canonical hfinite)
    (by rw [← value_eq hfinite, value_ofNat hg]; positivity)
  rw [← value_eq isFinite_one, ← value_eq hfinite, value_one, value_ofNat hg] at hrounds
  have habs := hrounds.abs_le_of_representable (b := 1) (by simpa using Representable.two_pow 0)
    (by rw [abs_of_pos (by positivity), div_le_one (by positivity)]; exact hone)
  obtain ⟨hpacked, hvalue⟩ := ofModel_pack hcanonical
    (habs.trans_lt (one_lt_pow₀ one_lt_two (by omega)))
  have heq : value (reciprocal g) = Unpacked.value _ := hvalue
  exact ⟨hpacked, heq ▸ representable_of_canonical hcanonical, heq ▸ hrounds⟩

/-- The relative error of the reciprocal. -/
theorem abs_mul_reciprocal_sub_one_le (hpos : 0 < g) (hg : g ≤ 2 ^ 53) :
    |(g : Rat) * value (reciprocal g) - 1| ≤ 1 / 2 ^ 52 := by
  obtain ⟨-, -, hrounds⟩ := reciprocal_spec hpos hg
  have hgpos : (0 : Rat) < g := by exact_mod_cast hpos
  have hcast : (g : Rat) ≤ 2 ^ 53 := by exact_mod_cast hg
  have hnormal : (2 : Rat) ^ (-1022 : Int) ≤ 1 / g := by
    calc (2 : Rat) ^ (-1022 : Int) ≤ 2 ^ (-53 : Int) := zpow_le_zpow_right₀ one_le_two (by omega)
      _ ≤ 1 / g := by
        rw [zpow_neg, zpow_ofNat, ← one_div]
        exact one_div_le_one_div_of_le hgpos hcast
  have herror := mul_le_mul_of_nonneg_left (hrounds.abs_sub_le_div hnormal) hgpos.le
  have hscale : (g : Rat) * value (reciprocal g) - 1 = g * (value (reciprocal g) - 1 / g) := by
    field_simp
  rw [hscale, abs_mul, abs_of_pos hgpos]
  refine herror.trans_eq ?_
  field_simp

/-! ### Quotients -/

/-- Multiplying `n * g` by the reciprocal of `g` rounds once more. -/
private theorem mul_reciprocal_toEven (hpos : 0 < g) (hg : g ≤ 2 ^ 53) (hx : x.isFinite = true)
    (hvalue : value x = n * g) (hbound : |value x| ≤ 2 ^ 53) :
    (x * reciprocal g).isFinite = true ∧ ∃ m t,
      RoundsToEven (n * (g * value (reciprocal g))) m t ∧
        value (x * reciprocal g) = m * 2 ^ t := by
  obtain ⟨hfinite, -, hrounds⟩ := reciprocal_spec hpos hg
  have hone : (1 : Rat) ≤ g := by exact_mod_cast hpos
  have hinverse : |value (reciprocal g)| ≤ 1 := by
    refine hrounds.abs_le_of_representable (by simpa using Representable.two_pow 0) ?_
    rw [abs_of_pos (by positivity), div_le_one (by positivity)]
    exact hone
  have hproduct : |value x * value (reciprocal g)| ≤ 2 ^ 53 := by
    rw [abs_mul]
    exact (mul_le_mul hbound hinverse (abs_nonneg _) (by positivity)).trans_eq (mul_one _)
  obtain ⟨hfinite', m, t, heven, hm⟩ :=
    mul_toEven hx hfinite (.two_pow (k := 53) (by omega)) hproduct
  rw [hvalue, mul_assoc] at heven
  exact ⟨hfinite', m, t, heven, hm⟩

/-- **Quotients by rounded reciprocals.** Multiplying `n * g` by the reciprocal of `g` gives `n` up
to a part in `2 ^ 51`, and exactly if the reciprocal is close enough. -/
theorem mul_reciprocal (hpos : 0 < g) (hg : g ≤ 2 ^ 53) (hx : x.isFinite = true)
    (hvalue : value x = n * g) (hbound : |value x| ≤ 2 ^ 53) :
    (x * reciprocal g).isFinite = true ∧
      |value (x * reciprocal g) - n| ≤ |(n : Rat)| / 2 ^ 51 ∧
      (ExactReciprocal g → value (x * reciprocal g) = n) := by
  obtain ⟨hfinite, m, t, heven, hm⟩ := mul_reciprocal_toEven hpos hg hx hvalue hbound
  have hone : (1 : Rat) ≤ g := by exact_mod_cast hpos
  have hn : |n| ≤ 2 ^ 53 := by
    have hle : |(n : Rat)| * 1 ≤ |(n : Rat)| * g := by gcongr
    rw [hvalue, abs_mul, Nat.abs_cast] at hbound
    rw [mul_one] at hle
    exact_mod_cast hle.trans hbound
  have hclose : |n * (g * value (reciprocal g)) - n| =
      |(n : Rat)| * |g * value (reciprocal g) - 1| := by
    rw [← abs_mul, mul_sub, mul_one]
  rw [hm]
  refine ⟨hfinite, heven.abs_sub_intCast_le ?_, fun hexact => heven.eq_intCast hn ?_⟩
  · rw [hclose, div_eq_mul_one_div]
    exact mul_le_mul_of_nonneg_left (abs_mul_reciprocal_sub_one_le hpos hg) (abs_nonneg _)
  · rw [hclose, div_eq_mul_one_div]
    exact mul_le_mul_of_nonneg_left hexact (abs_nonneg _)

/-! ### Divisors that are exact -/

/-- If the divisor is taken to one, then the reciprocal is not too small. -/
private theorem le_of_one (hpos : 0 < g) (hg : g ≤ 2 ^ 53) (hx : x.isFinite = true)
    (hvalue : value x = g) (hone : value (x * reciprocal g) = 1) :
    -(1 / 2 ^ 54) ≤ (g : Rat) * value (reciprocal g) - 1 := by
  by_contra hsmall
  have hcast : (g : Rat) ≤ 2 ^ 53 := by exact_mod_cast hg
  obtain ⟨-, m, t, heven, hm⟩ := mul_reciprocal_toEven (n := 1) hpos hg hx
    (by rw [hvalue, Int.cast_one, one_mul]) (by rwa [hvalue, Nat.abs_cast])
  rw [Int.cast_one, one_mul] at heven
  have herror := abs_le.mp (abs_mul_reciprocal_sub_one_le hpos hg)
  generalize (g : Rat) * value (reciprocal g) = q at *
  have hq : |q| < 2 ^ (0 : Int) := by
    rw [abs_of_nonneg (by linarith), zpow_zero]
    linarith
  have hle := heven.abs_sub_le_of_lt (by omega) hq
  rw [← hm, hone, zero_sub, zpow_neg, zpow_ofNat] at hle
  linarith [(abs_le.mp hle).1]

/-- For divisors up to `2 ^ 26` the error of the reciprocal is a multiple of `2 ^ (-79)`. -/
private theorem exists_error_units (hpos : 0 < g) (hg : g ≤ 2 ^ 26) :
    ∃ N : Int, (g : Rat) * value (reciprocal g) - 1 = N / 2 ^ 79 := by
  obtain ⟨-, hrepresentable, hrounds⟩ := reciprocal_spec hpos (hg.trans (by norm_num))
  have hgpos : (0 : Rat) < g := by exact_mod_cast hpos
  have hcast : (g : Rat) ≤ 2 ^ 26 := by exact_mod_cast hg
  have hle : (2 : Rat) ^ (-26 : Int) ≤ value (reciprocal g) := by
    refine hrounds.ge _ ⟨1, -26, by norm_num, by omega, by norm_num⟩ ?_
    rw [zpow_neg, zpow_ofNat, ← one_div]
    exact one_div_le_one_div_of_le hgpos hcast
  rcases hrepresentable.multiple_or_le (-79) with ⟨N, hN⟩ | ⟨-, hsmall⟩
  · refine ⟨g * N - 2 ^ 79, ?_⟩
    rw [hN, zpow_neg, zpow_ofNat]
    push_cast
    field_simp
    norm_num
  · have hlt : (2 : Rat) ^ (-79 + 52 : Int) < 2 ^ (-26 : Int) :=
      zpow_lt_zpow_right₀ one_lt_two (by omega)
    linarith

/-- If the multiple of the divisor by `2 ^ 27 - 1` is taken to that number, then the reciprocal is
not too large. -/
private theorem le_of_last (hpos : 0 < g) (hg : g ≤ 2 ^ 26) (hx : x.isFinite = true)
    (hvalue : value x = (2 ^ 27 - 1 : Int) * g)
    (hlast : value (x * reciprocal g) = (2 ^ 27 - 1 : Int)) :
    (g : Rat) * value (reciprocal g) - 1 ≤ 1 / 2 ^ 54 := by
  by_contra hlarge
  have hg' : g ≤ 2 ^ 53 := hg.trans (by norm_num)
  have hcast : (g : Rat) ≤ 2 ^ 26 := by exact_mod_cast hg
  have hbound : |value x| ≤ 2 ^ 53 := by
    rw [hvalue, abs_of_nonneg (by positivity)]
    push_cast
    linarith
  obtain ⟨-, m, t, heven, hm⟩ := mul_reciprocal_toEven hpos hg' hx hvalue hbound
  have herror := abs_le.mp (abs_mul_reciprocal_sub_one_le hpos hg')
  obtain ⟨N, hN⟩ := exists_error_units hpos hg
  have hproduct : (g : Rat) * value (reciprocal g) = 1 + N / 2 ^ 79 := by linarith
  rw [hN] at hlarge herror
  rw [hproduct] at heven
  have hunits : 2 ^ 25 + 1 ≤ N := by
    have hlt : (2 ^ 25 : Rat) < N := by
      rw [not_le, lt_div_iff₀ (by positivity)] at hlarge
      linarith
    exact_mod_cast hlt
  have hunits : (2 ^ 25 + 1 : Rat) ≤ N := by exact_mod_cast hunits
  have hlastCast : ((2 ^ 27 - 1 : Int) : Rat) = 2 ^ 27 - 1 := by norm_num
  rw [hlastCast] at hlast heven
  have hq : |(2 ^ 27 - 1 : Rat) * (1 + N / 2 ^ 79)| < 2 ^ (27 : Int) := by
    rw [abs_of_nonneg (by positivity), zpow_ofNat]
    linarith
  have hle := heven.abs_sub_le_of_lt (k := 27) (by omega) hq
  rw [← hm, hlast, zpow_sub₀ two_ne_zero, zpow_ofNat, zpow_ofNat] at hle
  linarith [(abs_le.mp hle).2]

/-- **Exact divisors.** A divisor up to `2 ^ 26` divides all its multiples up to `2 ^ 53` exactly if
and only if its reciprocal is close enough. -/
theorem exactReciprocal_iff (hpos : 0 < g) (hg : g ≤ 2 ^ 26) :
    ExactReciprocal g ↔ ∀ (x : Float) (n : Int), x.isFinite = true → value x = n * g →
      |value x| ≤ 2 ^ 53 → value (x * reciprocal g) = n := by
  have hg' : g ≤ 2 ^ 53 := hg.trans (by norm_num)
  constructor
  · exact fun hexact x n hx hvalue hbound =>
      (mul_reciprocal hpos hg' hx hvalue hbound).2.2 hexact
  · intro hall
    have hmultiple : ∀ k : Nat, k * g ≤ 2 ^ 53 → ∃ x : Float, x.isFinite = true ∧
        value x = k * g ∧ value (x * reciprocal g) = k := fun k hk => by
      have hcast : ((k * g : Nat) : Rat) ≤ 2 ^ 53 := by exact_mod_cast hk
      have hfinite := (ofNat_atMost (.two_pow (k := 53) (by omega)) hcast).isFinite
      have hvalue : value (Float.ofNat (k * g)) = k * g := by
        rw [value_ofNat hk]
        push_cast
        rfl
      exact ⟨_, hfinite, hvalue, hall _ k hfinite hvalue (by rwa [value_ofNat hk, Nat.abs_cast])⟩
    rw [ExactReciprocal, abs_le]
    constructor
    · obtain ⟨x, hx, hvalue, hquotient⟩ := hmultiple 1 (by omega)
      exact le_of_one hpos hg' hx (by simpa using hvalue) (by simpa using hquotient)
    · obtain ⟨x, hx, hvalue, hquotient⟩ := hmultiple (2 ^ 27 - 1) (by omega)
      exact le_of_last hpos hg hx (by simpa using hvalue) (by simpa using hquotient)

/-- Small divisors divide exactly; 49 is the first that does not. -/
theorem exactReciprocal_of_lt (hpos : 0 < g) (hg : g < 49) : ExactReciprocal g := by
  have hall : ∀ g < 49, 0 < g → ExactReciprocal g := by decide +kernel
  exact hall g hg hpos

example : ¬ExactReciprocal 49 := by decide +kernel

end Binary64

end QuboReduction

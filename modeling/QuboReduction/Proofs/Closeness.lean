import QuboReduction.Proofs.ExactDoubles
import QuboReduction.Proofs.ExtendedOrder
import QuboReduction.Proofs.Unordered
import QuboReduction.Report

/-!
# Closeness to one

Reports take two scalars to be close if they differ by at most a billionth of the larger one. Both
sides of this comparison are rounded, and a billionth is not a double. None of this matters for the
closeness of a double to one: near one the difference is exact and a multiple of `2 ^ (-53)`, no
such multiple lies between the exact bound and the rounded one, and away from one the two sides are
far apart.

In a report a coefficient that is close to one is left out, and so is the size of one that is close
to minus one. A coefficient is *legible* if it is one of them or differs from both by more than a
billionth of the larger magnitude, and is then close to them only when it is one of them.

## Main definitions

* `QuboReduction.Binary64.billionth` — the double that stands for a billionth.
* `QuboReduction.Binary64.IsLegible` — coefficients that can be told from a term.

## Main results

* `QuboReduction.Representable.abs_sub_one_le` — a difference that is not above the bound after
  rounding is not above it before.
* `QuboReduction.Binary64.isClose_one_iff_abs_sub_le`,
  `QuboReduction.Binary64.isClose_neg_one_iff_abs_add_le` — what is close to one and to minus one.
* `QuboReduction.Binary64.IsLegible.isClose_abs_iff` — sizes of legible coefficients.
-/

open Float.Model Float.Model.UnpackedFloat

namespace QuboReduction

/-! ### Halves and maxima of representable numbers -/

namespace Representable

variable {b c v r p : Rat}

protected theorem abs (h : Representable b) : Representable |b| := by
  rcases abs_choice b with hb | hb
  · rwa [hb]
  · rw [hb]
    exact h.neg

protected theorem max (hb : Representable b) (hc : Representable c) : Representable (max b c) := by
  rcases max_choice b c with h | h <;> rwa [h]

/-- The half of a number that is not small. -/
theorem half (h : Representable b) (hb : 1 / 2 ≤ |b|) : Representable (b / 2) := by
  obtain ⟨n, e, hn, -, rfl⟩ := h
  have he : -54 ≤ e := by
    by_contra hsmall
    have hn : |(n : Rat)| ≤ 2 ^ 53 := by exact_mod_cast hn
    have hpow : (2 : Rat) ^ e ≤ 2 ^ (-55 : Int) := zpow_le_zpow_right₀ one_le_two (by omega)
    rw [abs_mul, abs_of_pos (by positivity : (0 : Rat) < 2 ^ e)] at hb
    have hle : |(n : Rat)| * 2 ^ e ≤ 2 ^ 53 * 2 ^ (-55 : Int) := by gcongr
    norm_num at hle hb
    linarith
  refine ⟨n, e - 1, hn, by omega, ?_⟩
  rw [zpow_sub_one₀ two_ne_zero]
  ring

end Representable

namespace Binary64

/-- The double that stands for a billionth. -/
def billionth : Rat := 4835703278458517 / 2 ^ 82

theorem representable_billionth : Representable billionth :=
  ⟨4835703278458517, -82, by norm_num, by norm_num, by norm_num [billionth]⟩

end Binary64

open Binary64 (billionth representable_billionth)

namespace Representable

variable {b c v r p : Rat}

/-- A multiple of a billionth is far below a half of the number. -/
private theorem mul_billionth_lt (hb : Representable b) (hone : 1 ≤ b)
    (hp : Rounds (billionth * b) p) : p < b / 2 := by
  have habs : |b| = b := abs_of_nonneg (by linarith)
  have hquarter : Representable (b / 2 / 2) := by
    refine (hb.half (by rw [habs]; linarith)).half ?_
    rw [abs_div, habs, abs_of_pos two_pos]
    linarith
  have hle := hp.le _ hquarter (by rw [billionth]; linarith)
  linarith

/-- Away from one the difference from one is not small. -/
private theorem half_le_abs (hv : Representable v) (hr : Rounds (v - 1) r)
    (hfar : v ≤ 1 / 2 ∨ 2 ≤ v) : max |v| 1 / 2 ≤ |r| := by
  rcases hfar with hlow | hhigh
  · rcases le_or_gt v 0 with hneg | hpos
    · -- a negative number is moved away from zero
      have hle := hr.le v hv (by linarith)
      have hle' := hr.le (-1) ⟨-1, 0, by norm_num, by norm_num, by norm_num⟩ (by linarith)
      rw [abs_of_nonpos hneg, abs_of_nonpos (by linarith : r ≤ 0)]
      have hmax : max (-v) 1 ≤ -r := max_le (by linarith) (by linarith)
      have hpos : 1 ≤ max (-v) 1 := le_max_right _ _
      linarith
    · have hle := hr.le (-(1 / 2)) ⟨-1, -1, by norm_num, by norm_num, by norm_num⟩ (by linarith)
      rw [abs_of_pos hpos, max_eq_right (by linarith), abs_of_nonpos (by linarith : r ≤ 0)]
      linarith
  · have habs : |v| = v := abs_of_nonneg (by linarith)
    have hge := hr.ge _ (hv.half (by rw [habs]; linarith)) (by linarith)
    rw [habs, max_eq_left (by linarith)]
    exact hge.trans (le_abs_self r)

/-- Near one the difference from one is exact, and a multiple of the last place of the number. -/
private theorem exists_units_sub_one (hv : Representable v) {n : Nat} (hn : n ≤ 53)
    (hlow : 2 ^ (-n + 52 : Int) < v) (hhigh : v < 2) :
    ∃ k : Int, v - 1 = k / 2 ^ n ∧ Representable (v - 1) := by
  have hpos : 0 < v := lt_trans (by positivity) hlow
  rcases hv.multiple_or_le (-n) with ⟨m, hm⟩ | ⟨-, hle⟩
  · have hunits : v - 1 = (m - 2 ^ n : Int) / 2 ^ n := by
      rw [hm, zpow_neg, zpow_natCast]
      push_cast
      field_simp
    have hcount : |m - 2 ^ n| ≤ 2 ^ 53 := by
      have hlt : |v - 1| < 1 := abs_lt.mpr ⟨by linarith, by linarith⟩
      rw [hunits, abs_div, abs_of_pos (by positivity : (0 : Rat) < 2 ^ n),
        div_lt_one (by positivity)] at hlt
      have hlt : |m - 2 ^ n| < 2 ^ n := by exact_mod_cast hlt
      exact hlt.le.trans (pow_le_pow_right₀ (by norm_num) hn)
    refine ⟨m - 2 ^ n, hunits, m - 2 ^ n, -n, hcount, by omega, ?_⟩
    rw [hunits, zpow_neg, zpow_natCast, div_eq_mul_inv]
  · exact absurd hle (not_le.mpr hlow)

/-- Below one the difference is a multiple of `2 ^ (-53)`. -/
private theorem abs_sub_one_le_below (hv : Representable v) (hlow : 1 / 2 < v) (hhigh : v ≤ 1)
    (hr : Rounds (v - 1) r) (h : |r| ≤ billionth) : |v - 1| ≤ 1 / 10 ^ 9 := by
  obtain ⟨k, hk, hexact⟩ := hv.exists_units_sub_one (n := 53) le_rfl (by norm_num; linarith)
    (by linarith)
  rw [hr.eq_of_representable hexact, abs_of_nonpos (by linarith), billionth] at h
  rw [abs_of_nonpos (by linarith)]
  have hcount : -9007199 ≤ k := by
    have hlt : (-9007200 : Rat) < k := by linarith
    have hlt : -9007200 < k := by exact_mod_cast hlt
    omega
  have hcount : (-9007199 : Rat) ≤ k := by exact_mod_cast hcount
  linarith

/-- Above one the difference is a multiple of `2 ^ (-52)`, and the bound is hardly larger. -/
private theorem abs_sub_one_le_above (hv : Representable v) (hlow : 1 < v) (hhigh : v < 2)
    (hr : Rounds (v - 1) r) (hp : Rounds (billionth * v) p) (h : |r| ≤ p) :
    |v - 1| ≤ v / 10 ^ 9 := by
  obtain ⟨k, hk, hexact⟩ := hv.exists_units_sub_one (n := 52) (by omega) (by norm_num; linarith)
    hhigh
  rw [hr.eq_of_representable hexact, abs_of_pos (by linarith)] at h
  rw [abs_of_pos (by linarith)]
  -- the bound first shows how near to one the number is, and then what the bound is
  have hdouble : Representable (2 * billionth) :=
    ⟨4835703278458517, -81, by norm_num, by norm_num, by norm_num [billionth]⟩
  have hcoarse := hp.le _ hdouble (by rw [billionth]; linarith)
  have hfine := hp.le (1152921574 / 2 ^ 60)
    ⟨1152921574, -60, by norm_num, by norm_num, by norm_num⟩
    (by rw [billionth] at hcoarse ⊢; linarith)
  have hcount : k ≤ 4503599 := by
    have hlt : (k : Rat) < 4503600 := by linarith
    have hlt : k < 4503600 := by exact_mod_cast hlt
    omega
  have hcount : (k : Rat) ≤ 4503599 := by exact_mod_cast hcount
  linarith

/-- **Closeness to one is not changed by rounding:** a difference from one that is not above the
bound after both are rounded is not above a billionth of the larger magnitude. -/
theorem abs_sub_one_le (hv : Representable v) (hr : Rounds (v - 1) r)
    (hp : Rounds (billionth * max |v| 1) p) (h : |r| ≤ p) :
    |v - 1| ≤ max |v| 1 / 10 ^ 9 := by
  have hone : Representable 1 := by simpa using Representable.two_pow 0
  by_cases hfar : v ≤ 1 / 2 ∨ 2 ≤ v
  · have hlarge := hv.half_le_abs hr hfar
    have hsmall := (hv.abs.max hone).mul_billionth_lt (le_max_right _ _) hp
    linarith
  rw [not_or, not_le, not_le] at hfar
  obtain ⟨hlow, hhigh⟩ := hfar
  rw [abs_of_pos (by linarith : 0 < v)] at hp ⊢
  rcases le_or_gt v 1 with hle | hgt
  · rw [max_eq_right hle] at hp ⊢
    rw [mul_one] at hp
    exact hv.abs_sub_one_le_below hlow hle hr
      (h.trans_eq (hp.eq_of_representable representable_billionth))
  · rw [max_eq_left hgt.le] at hp ⊢
    exact hv.abs_sub_one_le_above hgt hhigh hr hp h

/-- A difference from one of at most a billionth of the larger magnitude is exact. -/
theorem sub_one (hv : Representable v) (h : |v - 1| ≤ max |v| 1 / 10 ^ 9) :
    |v - 1| ≤ 1 ∧ Representable (v - 1) := by
  have habs : |v| ≤ |v - 1| + 1 := by simpa using abs_add_le (v - 1) 1
  have hmax : max |v| 1 ≤ |v - 1| + 1 := max_le habs (by linarith [abs_nonneg (v - 1)])
  have hnear : |v - 1| ≤ 1 / 4 := by linarith
  obtain ⟨hlow, hhigh⟩ := abs_le.mp hnear
  obtain ⟨k, -, hexact⟩ := hv.exists_units_sub_one (n := 53) le_rfl (by norm_num; linarith)
    (by linarith)
  exact ⟨by linarith, hexact⟩

end Representable

/-! ### Differences that may be too large -/

theorem Unpacked.abs_value_lt_of_isFinite {u : UnpackedFloat} (hu : Canonical u)
    (h : (UnpackedFloat.unpack .binary64 (UnpackedFloat.pack .binary64 u)).isFinite = true) :
    |value u| < 2 ^ 1024 := by
  rcases hu.cases with ⟨s, rfl⟩ | ⟨s, m, e, hm, rfl⟩
  · simp [value]
  · rw [abs_value_lt_iff hm hu]
    by_contra he
    have hfields := fields_packComponents s (-1#11) 0#52
    rw [pack_finite, if_pos (by omega), (unpack_of_fields hfields).1 (by decide)] at h
    contradiction

namespace Binary64

variable {x y : Float} {a b : Rat}

/-- A difference that is finite is rounded from the exact one. -/
theorem Exactly.sub_rounded_of_isFinite (hx : Exactly a x) (hy : Exactly b y)
    (h : (x - y).isFinite = true) : RoundedFrom (a - b) (x - y) := by
  obtain ⟨hneg, hvalue⟩ := Unpacked.neg_spec (canonical hy.isFinite)
  obtain ⟨hcanonical, hrounds⟩ := Unpacked.add_spec (canonical hx.isFinite) hneg
  rw [← Unpacked.sub_eq_add_neg] at hcanonical hrounds
  rw [hvalue, hx.unpacked, hy.unpacked, ← sub_eq_add_neg] at hrounds
  obtain ⟨-, heq⟩ := ofModel_pack hcanonical (Unpacked.abs_value_lt_of_isFinite hcanonical h)
  exact ⟨h, (congrArg (Rounds (a - b)) heq).mpr hrounds⟩

/-- What is not above a finite double in magnitude is finite. -/
theorem isFinite_of_abs_le (hy : y.isFinite = true) (h : x.abs ≤ y) : x.isFinite = true := by
  cases hx : x.isNaN with
  | true => exact absurd h (not_le_of_isNaN (Or.inl ((isNaN_abs x).trans hx)))
  | false =>
    have habs : x.abs = ⟨Float.Model.pack (UnpackedFloat.abs x.toModel.unpack)⟩ := rfl
    have htop : extended ⟨Float.Model.pack (.infinity .positive)⟩ = ⊤ := rfl
    rw [le_iff_extended_le ((isNaN_abs x).trans hx) (isNaN_of_isFinite hy),
      extended_of_isFinite hy] at h
    rcases isFinite_or_infinity hx with hfinite | hinfinity
    · exact hfinite
    · have hunpack : UnpackedFloat.abs x.toModel.unpack = .infinity .positive := by
        rcases hinfinity with ⟨hunpack, -⟩ | ⟨hunpack, -⟩ <;> rw [hunpack] <;> rfl
      rw [habs, hunpack, htop] at h
      exact absurd h (by simp)

/-! ### Closeness -/

theorem exactly_billionth : Exactly billionth (Scalar.ofDecimal 1 (-9)) := by
  have hsigned : (ofFloat (Scalar.ofDecimal 1 (-9))).signed = 4835703278458517 := by
    decide +kernel
  have hexponent : (ofFloat (Scalar.ofDecimal 1 (-9))).exponent = -82 := by decide +kernel
  refine ⟨by decide +kernel, ?_⟩
  rw [value, hsigned, hexponent, billionth]
  norm_num

theorem isDouble_one : IsDouble 1 := by simpa using IsDouble.two_pow (k := 0) (by norm_num)

/-- The bound on the difference from one or from minus one. -/
theorem roundedFrom_bound (hx : x.isFinite = true) (hy : Exactly 1 y.abs) :
    RoundedFrom (billionth * max |value x| 1)
      (Scalar.ofDecimal 1 (-9) * Scalar.greatest x.abs y.abs) := by
  have habs : Exactly |value x| x.abs := ⟨(value_abs hx).1, (value_abs hx).2⟩
  have hdouble : IsDouble (max |value x| 1) := by
    rcases max_choice |value x| 1 with h | h <;> rw [h]
    · exact isDouble_abs_value hx
    · exact isDouble_one
  refine exactly_billionth.mul_rounded (habs.greatest hy) hdouble ?_
  have hmax : 1 ≤ max |value x| 1 := le_max_right _ _
  rw [abs_of_nonneg (mul_nonneg (by norm_num [billionth]) (by linarith)), billionth]
  linarith

/-- What is compared for the closeness to one or to minus one. -/
theorem exists_rounds_of_isClose (hx : x.isFinite = true) (hy : Exactly b y)
    (hone : Exactly 1 y.abs) (h : Scalar.isClose x y = true) :
    ∃ r p, Rounds (value x - b) r ∧ Rounds (billionth * max |value x| 1) p ∧ |r| ≤ p := by
  have hbound := roundedFrom_bound hx hone
  have hle : (x - y).abs ≤ Scalar.ofDecimal 1 (-9) * Scalar.greatest x.abs y.abs :=
    of_decide_eq_true h
  have hfinite := isFinite_of_abs_le hbound.isFinite hle
  obtain ⟨hfinite', habs⟩ := value_abs hfinite
  have hdifference := Exactly.sub_rounded_of_isFinite ⟨hx, rfl⟩ hy hfinite
  rw [le_iff_value_le hfinite' hbound.isFinite, habs] at hle
  exact ⟨_, _, hdifference.rounds, hbound.rounds, hle⟩

theorem exactly_neg_one : Exactly (-1) (-1.0) := exactly_one.neg

theorem exactly_abs (hy : Exactly b y) : Exactly |b| y.abs := by
  obtain ⟨hfinite, habs⟩ := value_abs hy.isFinite
  exact ⟨hfinite, by rw [habs, hy.value_eq]⟩

/-- An exact difference within the bound is found to be, since the bound is rounded up. -/
theorem isClose_of_abs_sub_le (hx : x.isFinite = true) (hy : Exactly b y) (hone : Exactly 1 y.abs)
    (hexact : |value x - b| ≤ 1 ∧ Representable (value x - b))
    (h : |value x - b| ≤ max |value x| 1 / 10 ^ 9) : Scalar.isClose x y = true := by
  have hbound := roundedFrom_bound hx hone
  have hdifference := exactly_abs (((Exactly.sub_rounded ⟨hx, rfl⟩ hy isDouble_one
    hexact.1)).exactly hexact.2)
  have hmax : 1 ≤ max |value x| 1 := le_max_right _ _
  have hle : |value x - b| ≤ billionth * max |value x| 1 := by
    rw [billionth]
    linarith
  have hcompare : (x - y).abs ≤ Scalar.ofDecimal 1 (-9) * Scalar.greatest x.abs y.abs := by
    rw [le_iff_value_le hdifference.isFinite hbound.isFinite, hdifference.value_eq]
    exact hbound.rounds.ge _ hexact.2.abs hle
  exact decide_eq_true hcompare

/-- **Closeness to one**: a double is found to be close to one exactly when it differs from it by at
most a billionth of the larger magnitude. -/
theorem isClose_one_iff_abs_sub_le (hx : x.isFinite = true) :
    Scalar.isClose x 1.0 = true ↔ |value x - 1| ≤ max |value x| 1 / 10 ^ 9 := by
  have hone : Exactly 1 (1.0 : Float).abs := by simpa using exactly_abs exactly_one
  have hrepresentable : Representable (value x) := Exactly.representable ⟨hx, rfl⟩
  constructor
  · intro h
    obtain ⟨r, p, hr, hp, hle⟩ := exists_rounds_of_isClose hx exactly_one hone h
    exact hrepresentable.abs_sub_one_le hr hp hle
  · intro h
    exact isClose_of_abs_sub_le hx exactly_one hone (hrepresentable.sub_one h) h

/-- **Closeness to minus one.** -/
theorem isClose_neg_one_iff_abs_add_le (hx : x.isFinite = true) :
    Scalar.isClose x (-1.0) = true ↔ |value x + 1| ≤ max |value x| 1 / 10 ^ 9 := by
  have hone : Exactly 1 (-1.0 : Float).abs := by simpa using exactly_abs exactly_neg_one
  have hrepresentable : Representable (-value x) := (Exactly.representable ⟨hx, rfl⟩).neg
  have habs : |-value x - 1| = |value x + 1| := by rw [← neg_add', abs_neg]
  constructor
  · intro h
    obtain ⟨r, p, hr, hp, hle⟩ := exists_rounds_of_isClose hx exactly_neg_one hone h
    have hneg : Rounds (-value x - 1) (-r) := by
      simpa [add_comm, sub_eq_add_neg] using hr.neg
    rw [← habs, ← abs_neg (value x)]
    exact hrepresentable.abs_sub_one_le hneg (by rwa [abs_neg]) (by rwa [abs_neg])
  · intro h
    have hexact := hrepresentable.sub_one (by rwa [habs, abs_neg])
    rw [habs] at hexact
    have hsum : value x - -1 = -(-value x - 1) := by ring
    refine isClose_of_abs_sub_le hx exactly_neg_one hone ⟨?_, ?_⟩ (by rwa [sub_neg_eq_add])
    · rw [sub_neg_eq_add]
      exact hexact.1
    · rw [hsum]
      exact hexact.2.neg

/-! ### Legible coefficients -/

/-- A coefficient that is one or minus one, or differs from both by more than a billionth of the
larger magnitude. -/
def IsLegible (x : Float) : Prop :=
  value x = 1 ∨ value x = -1 ∨
    max |value x| 1 / 10 ^ 9 < |value x - 1| ∧ max |value x| 1 / 10 ^ 9 < |value x + 1|

instance (x : Float) : Decidable (IsLegible x) := inferInstanceAs (Decidable (_ ∨ _ ∨ _))

namespace IsLegible

theorem abs_sub_le_iff (h : IsLegible x) :
    |value x - 1| ≤ max |value x| 1 / 10 ^ 9 ↔ value x = 1 := by
  constructor
  · intro hle
    rcases h with hvalue | hvalue | hfar
    · exact hvalue
    · rw [hvalue] at hle
      norm_num at hle
    · exact absurd hfar.1 (not_lt.mpr hle)
  · intro hvalue
    rw [hvalue]
    norm_num

theorem abs_add_le_iff (h : IsLegible x) :
    |value x + 1| ≤ max |value x| 1 / 10 ^ 9 ↔ value x = -1 := by
  constructor
  · intro hle
    rcases h with hvalue | hvalue | hfar
    · rw [hvalue] at hle
      norm_num at hle
    · exact hvalue
    · exact absurd hfar.2 (not_lt.mpr hle)
  · intro hvalue
    rw [hvalue]
    norm_num

theorem isClose_one_iff (h : IsLegible x) (hx : x.isFinite = true) :
    Scalar.isClose x 1.0 = true ↔ value x = 1 :=
  (isClose_one_iff_abs_sub_le hx).trans h.abs_sub_le_iff

theorem isClose_neg_one_iff (h : IsLegible x) (hx : x.isFinite = true) :
    Scalar.isClose x (-1.0) = true ↔ value x = -1 :=
  (isClose_neg_one_iff_abs_add_le hx).trans h.abs_add_le_iff

/-- **The size of a legible coefficient** is close to one when it is one. -/
theorem isClose_abs_iff (h : IsLegible x) (hx : x.isFinite = true) :
    Scalar.isClose x.abs 1.0 = true ↔ |value x| = 1 := by
  obtain ⟨hfinite, hvalue⟩ := value_abs hx
  rw [isClose_one_iff_abs_sub_le hfinite, hvalue, abs_abs]
  rcases le_total 0 (value x) with hsign | hsign
  · have hle := h.abs_sub_le_iff
    rwa [abs_of_nonneg hsign] at hle ⊢
  · have hle := h.abs_add_le_iff
    rw [abs_of_nonpos hsign] at hle ⊢
    rwa [← neg_add', abs_neg, neg_eq_iff_eq_neg]

end IsLegible

end Binary64

end QuboReduction

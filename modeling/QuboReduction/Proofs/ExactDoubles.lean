import Mathlib
import QuboReduction.Proofs.IntegralDoubles

/-!
# Exact operations on doubles

An operation on doubles is exact when its result is representable: then rounding changes nothing.
Integers of magnitude up to `2 ^ 53` are representable, so sums, products and quotients of integers
that stay within this limit are exact. Beyond it only even integers are representable.

## Main definitions

* `QuboReduction.Binary64.RoundedFrom` — a double that a number is rounded to.
* `QuboReduction.Binary64.Exactly` — a double that stands for a number.
* `QuboReduction.Binary64.ExactWithin` — a double that stands for an integer of a given magnitude.

## Main results

* `QuboReduction.Representable.of_isInteger`, `QuboReduction.Representable.even_of_lt_abs` — the
  integers that are representable.
* `QuboReduction.Binary64.Exactly.foldl_add` — sums of integers within the limit.
-/

namespace QuboReduction

/-! ### Representable integers -/

namespace Representable

theorem of_isInteger {a : Rat} (ha : IsInteger a) (h : |a| ≤ 2 ^ 53) : Representable a := by
  obtain ⟨n, rfl⟩ := ha
  exact ⟨n, 0, by exact_mod_cast h, by omega, by simp⟩

/-- The first integer beyond the limit that is representable. -/
theorem limit_add_two : Representable (2 ^ 53 + 2) := by
  have hmultiple := natCast_mul_two_pow (n := 2 ^ 52 + 1) (by norm_num) 1
  norm_num at hmultiple ⊢
  exact hmultiple

/-- Beyond the limit every second integer is missing. -/
theorem even_of_lt_abs {n : Int} (h : Representable n) (hn : 2 ^ 53 < |n|) : Even n := by
  wlog hpos : 0 ≤ n generalizing n
  · have hneg : Representable (-n : Int) := by exact_mod_cast h.neg
    exact even_neg.mp (this hneg (by rwa [abs_neg]) (by omega))
  rw [abs_of_nonneg hpos] at hn
  rcases h.multiple_or_le 1 with ⟨m, hm⟩ | ⟨-, hle⟩
  · have hm : n = m * 2 := by exact_mod_cast hm
    exact ⟨m, by omega⟩
  · have hle : n ≤ 2 ^ 53 := by exact_mod_cast hle
    omega

end Representable

namespace Binary64

variable {x y : Float} {a b d q : Rat}

/-! ### Rounded results -/

/-- A finite double that a number is rounded to. -/
structure RoundedFrom (q : Rat) (x : Float) : Prop where
  /-- The double is a finite number. -/
  isFinite : x.isFinite = true
  /-- It is the number itself or one of its neighbours. -/
  rounds : Rounds q (value x)

/-- A finite double that stands for a number. -/
structure Exactly (a : Rat) (x : Float) : Prop where
  /-- The double is a finite number. -/
  isFinite : x.isFinite = true
  /-- It stands for the number. -/
  value_eq : value x = a

theorem RoundedFrom.pack {u : Float.Model.UnpackedFloat} (hu : Unpacked.Canonical u)
    (hr : Rounds q (Unpacked.value u)) (hd : IsDouble d) (hq : |q| ≤ d) :
    RoundedFrom q ⟨Float.Model.pack u⟩ := by
  have habs := hr.abs_le_of_representable hd.representable hq
  obtain ⟨hfinite, hvalue⟩ := ofModel_pack hu (habs.trans_lt hd.lt)
  exact ⟨hfinite, by rwa [hvalue]⟩

/-- A number that is representable is not changed by rounding. -/
theorem RoundedFrom.exactly (h : RoundedFrom q x) (hq : Representable q) : Exactly q x :=
  ⟨h.isFinite, h.rounds.eq_of_representable hq⟩

/-- The result of rounding an integer within the limit. -/
theorem RoundedFrom.exactly_of_isInteger (h : RoundedFrom q x) (hq : IsInteger q)
    (hle : |q| ≤ 2 ^ 53) : Exactly q x :=
  h.exactly (.of_isInteger hq hle)

theorem roundedFrom_ofInt {n : Int} (hd : IsDouble d) (hn : |(n : Rat)| ≤ d) :
    RoundedFrom n (Float.ofInt n) := by
  cases n with
  | ofNat n =>
    obtain ⟨u, heq, hcanonical, hrounds⟩ := ofNat_eq n
    change RoundedFrom n (Float.ofNat n)
    exact heq ▸ .pack hcanonical hrounds hd (by simpa using hn)
  | negSucc n =>
    obtain ⟨u, heq, hcanonical, hrounds⟩ := ofNat_eq (n + 1)
    rw [Int.cast_negSucc, abs_neg] at hn
    have hround : RoundedFrom (n + 1 : Nat) (Float.ofNat (n + 1)) :=
      heq ▸ .pack hcanonical hrounds hd hn
    obtain ⟨hfinite, hvalue⟩ := value_neg hround.isFinite
    refine ⟨hfinite, ?_⟩
    rw [Int.cast_negSucc]
    exact hvalue.symm ▸ hround.rounds.neg

theorem exactly_ofInt {n : Int} (hn : |n| ≤ 2 ^ 53) : Exactly n (Float.ofInt n) :=
  ⟨(ofInt_spec hn).1, (ofInt_spec hn).2⟩

theorem exactly_natCast {n : Nat} (hn : n ≤ 2 ^ 53) : Exactly n (Scalar.ofInt (n : Int)) := by
  have hexact := exactly_ofInt (n := n) (by rw [Nat.abs_cast]; exact_mod_cast hn)
  rwa [Int.cast_natCast] at hexact

theorem exactly_zero : Exactly 0 0.0 := ⟨isFinite_zero, value_zero⟩

theorem exactly_one : Exactly 1 1.0 := ⟨isFinite_one, value_one⟩

namespace Exactly

/-- The number is that of the unpacked double. -/
theorem unpacked (hx : Exactly a x) : Unpacked.value x.toModel.unpack = a :=
  (Binary64.value_eq hx.isFinite).symm.trans hx.value_eq

theorem representable (hx : Exactly a x) : Representable a :=
  hx.unpacked ▸ representable_of_canonical (canonical hx.isFinite)

theorem neg (hx : Exactly a x) : Exactly (-a) (-x) := by
  obtain ⟨hfinite, hvalue⟩ := value_neg hx.isFinite
  exact ⟨hfinite, hx.value_eq ▸ hvalue⟩

theorem eq {c : Rat} (hx : Exactly a x) (hx' : Exactly c x) : a = c :=
  hx.value_eq.symm.trans hx'.value_eq

/-! ### Operations -/

theorem add_rounded (hx : Exactly a x) (hy : Exactly b y) (hd : IsDouble d) (h : |a + b| ≤ d) :
    RoundedFrom (a + b) (x + y) := by
  obtain ⟨hcanonical, hrounds⟩ :=
    Unpacked.add_spec (canonical hx.isFinite) (canonical hy.isFinite)
  rw [hx.unpacked, hy.unpacked] at hrounds
  exact .pack hcanonical hrounds hd h

theorem mul_rounded (hx : Exactly a x) (hy : Exactly b y) (hd : IsDouble d) (h : |a * b| ≤ d) :
    RoundedFrom (a * b) (x * y) := by
  obtain ⟨hcanonical, hrounds⟩ :=
    Unpacked.mul_spec (canonical hx.isFinite) (canonical hy.isFinite)
  rw [hx.unpacked, hy.unpacked] at hrounds
  exact .pack hcanonical hrounds hd h

theorem div_rounded (hx : Exactly a x) (hy : Exactly b y) (hb : b ≠ 0) (hd : IsDouble d)
    (h : |a / b| ≤ d) : RoundedFrom (a / b) (x / y) := by
  obtain ⟨hcanonical, hrounds⟩ :=
    Unpacked.div_spec (canonical hx.isFinite) (canonical hy.isFinite) (hy.unpacked ▸ hb)
  rw [hx.unpacked, hy.unpacked] at hrounds
  exact .pack hcanonical hrounds hd h

theorem sub_rounded (hx : Exactly a x) (hy : Exactly b y) (hd : IsDouble d) (h : |a - b| ≤ d) :
    RoundedFrom (a - b) (x - y) := by
  rw [AtMost.sub_eq_add_neg ⟨hy.isFinite, le_rfl⟩, sub_eq_add_neg]
  exact hx.add_rounded hy.neg hd (sub_eq_add_neg a b ▸ h)

theorem least (hx : Exactly a x) (hy : Exactly b y) :
    Exactly (min a b) (Scalar.least x y) := by
  have hlt : x < y ↔ a < b := by
    rw [lt_iff_value_lt hx.isFinite hy.isFinite, hx.value_eq, hy.value_eq]
  rw [Scalar.least]
  split
  · rename_i h
    rwa [min_eq_left (hlt.mp h).le]
  · rename_i h
    rw [if_pos ((beq_iff_value_eq hy.isFinite hy.isFinite).mpr rfl),
      min_eq_right (not_lt.mp (hlt.not.mp h))]
    exact hy

theorem greatest (hx : Exactly a x) (hy : Exactly b y) :
    Exactly (max a b) (Scalar.greatest x y) := by
  have hlt : y < x ↔ b < a := by
    rw [lt_iff_value_lt hy.isFinite hx.isFinite, hx.value_eq, hy.value_eq]
  rw [Scalar.greatest]
  split
  · rename_i h
    rwa [max_eq_left (hlt.mp h).le]
  · rename_i h
    rw [if_pos ((beq_iff_value_eq hy.isFinite hy.isFinite).mpr rfl),
      max_eq_right (not_lt.mp (hlt.not.mp h))]
    exact hy

/-! ### Operations on integers -/

private theorem isDouble_limit : IsDouble (2 ^ 53) := .two_pow (by omega)

theorem add (hx : Exactly a x) (hy : Exactly b y) (ha : IsInteger a) (hb : IsInteger b)
    (h : |a + b| ≤ 2 ^ 53) : Exactly (a + b) (x + y) :=
  (hx.add_rounded hy isDouble_limit h).exactly_of_isInteger (ha.add hb) h

theorem mul (hx : Exactly a x) (hy : Exactly b y) (ha : IsInteger a) (hb : IsInteger b)
    (h : |a * b| ≤ 2 ^ 53) : Exactly (a * b) (x * y) :=
  (hx.mul_rounded hy isDouble_limit h).exactly_of_isInteger (ha.mul hb) h

theorem div (hx : Exactly a x) (hy : Exactly b y) (hb : b ≠ 0) (hdiv : IsInteger (a / b))
    (h : |a / b| ≤ 2 ^ 53) : Exactly (a / b) (x / y) :=
  (hx.div_rounded hy hb isDouble_limit h).exactly_of_isInteger hdiv h

/-- **Sums of integers** are exact when the magnitudes together stay within the limit. -/
theorem foldl_add {as : List Rat} {xs : List Float} (h : List.Forall₂ Exactly as xs)
    (hx : Exactly a x) (ha : IsInteger a) (hintegers : ∀ b ∈ as, IsInteger b)
    (hle : |a| + (as.map fun b => |b|).sum ≤ 2 ^ 53) :
    Exactly (a + as.sum) (xs.foldl (fun total x => total + x) x) := by
  induction h generalizing a x with
  | nil => simpa using hx
  | @cons b y as xs hy h ih =>
    obtain ⟨hb, hintegers⟩ := List.forall_mem_cons.mp hintegers
    rw [List.map_cons, List.sum_cons, ← add_assoc] at hle
    have hrest : 0 ≤ (as.map fun b => |b|).sum := List.sum_nonneg (by simp)
    have hsum : |a + b| ≤ |a| + |b| := abs_add_le a b
    rw [List.foldl_cons, List.sum_cons, ← add_assoc]
    exact ih (hx.add hy ha hb (by linarith)) (ha.add hb) hintegers (by linarith)

theorem sum {as : List Rat} {xs : List Float} (h : List.Forall₂ Exactly as xs)
    (hintegers : ∀ b ∈ as, IsInteger b) (hle : (as.map fun b => |b|).sum ≤ 2 ^ 53) :
    Exactly as.sum (Scalar.sum xs) := by
  have hstart : Exactly 0 (-0.0) := by simpa using exactly_zero.neg
  rw [← zero_add as.sum]
  exact foldl_add h hstart .zero hintegers (by simpa using hle)

end Exactly

/-! ### Integers of a given magnitude -/

/-- A finite double that stands for an integer of magnitude at most `b`. -/
structure ExactWithin (b a : Rat) (x : Float) : Prop extends Exactly a x where
  /-- The number is an integer. -/
  isInteger : IsInteger a
  /-- Its magnitude is not above the bound. -/
  abs_le : |a| ≤ b

namespace ExactWithin

variable {c e : Rat}

theorem zero : ExactWithin 0 0 0 := ⟨exactly_zero, .zero, by simp⟩

theorem ofInt {n : Int} (hn : |(n : Rat)| ≤ b) (hb : b ≤ 2 ^ 53) :
    ExactWithin b n (Float.ofInt n) :=
  ⟨exactly_ofInt (by exact_mod_cast hn.trans hb), .intCast n, hn⟩

theorem nonneg (hx : ExactWithin b a x) : 0 ≤ b := (abs_nonneg a).trans hx.abs_le

theorem add (hx : ExactWithin b a x) (hy : ExactWithin c e y) (h : b + c ≤ 2 ^ 53) :
    ExactWithin (b + c) (a + e) (x + y) := by
  have habs : |a + e| ≤ b + c := (abs_add_le a e).trans (add_le_add hx.abs_le hy.abs_le)
  exact ⟨hx.toExactly.add hy.toExactly hx.isInteger hy.isInteger (habs.trans h),
    hx.isInteger.add hy.isInteger, habs⟩

theorem mul (hx : ExactWithin b a x) (hy : ExactWithin c e y) (h : b * c ≤ 2 ^ 53) :
    ExactWithin (b * c) (a * e) (x * y) := by
  have habs : |a * e| ≤ b * c := by
    rw [abs_mul]
    exact mul_le_mul hx.abs_le hy.abs_le (abs_nonneg e) hx.nonneg
  exact ⟨hx.toExactly.mul hy.toExactly hx.isInteger hy.isInteger (habs.trans h),
    hx.isInteger.mul hy.isInteger, habs⟩

theorem least (hx : ExactWithin b a x) (hy : ExactWithin b c y) :
    ExactWithin b (min a c) (Scalar.least x y) := by
  have hexact := hx.toExactly.least hy.toExactly
  rcases min_choice a c with h | h <;> rw [h] at hexact ⊢
  · exact ⟨hexact, hx.isInteger, hx.abs_le⟩
  · exact ⟨hexact, hy.isInteger, hy.abs_le⟩

theorem greatest (hx : ExactWithin b a x) (hy : ExactWithin b c y) :
    ExactWithin b (max a c) (Scalar.greatest x y) := by
  have hexact := hx.toExactly.greatest hy.toExactly
  rcases max_choice a c with h | h <;> rw [h] at hexact ⊢
  · exact ⟨hexact, hx.isInteger, hx.abs_le⟩
  · exact ⟨hexact, hy.isInteger, hy.abs_le⟩

end ExactWithin

/-! ### Beyond the limit -/

/-- The first integer that is not a double is rounded to one of its neighbours. -/
theorem RoundedFrom.exactly_neighbour (h : RoundedFrom (2 ^ 53 + 1) x) :
    Exactly (2 ^ 53) x ∨ Exactly (2 ^ 53 + 2) x := by
  have hlow : Representable (2 ^ 53) := .two_pow 53
  have hge : 2 ^ 53 ≤ value x := h.rounds.ge _ hlow (by norm_num)
  have hle : value x ≤ 2 ^ 53 + 2 := h.rounds.le _ .limit_add_two (by norm_num)
  rcases Exactly.representable ⟨h.isFinite, rfl⟩ |>.multiple_or_le 1 with ⟨n, hn⟩ | ⟨-, hsmall⟩
  · rw [hn, zpow_one] at hge hle
    have hge : 2 ^ 53 ≤ n * 2 := by exact_mod_cast hge
    have hle : n * 2 ≤ 2 ^ 53 + 2 := by exact_mod_cast hle
    rcases (by omega : n = 2 ^ 52 ∨ n = 2 ^ 52 + 1) with rfl | rfl
    · exact .inl ⟨h.isFinite, by rw [hn]; norm_num⟩
    · exact .inr ⟨h.isFinite, by rw [hn]; norm_num⟩
  · exact .inl ⟨h.isFinite, le_antisymm (by simpa using hsmall) hge⟩

end Binary64

end QuboReduction

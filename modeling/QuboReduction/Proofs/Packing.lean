import QuboReduction.Proofs.UnpackedArithmetic
import QuboReduction.Scalar.Double

/-!
# Packing doubles

The bits of a double are its sign, an exponent field and a fraction. An unpacked double in normal
form is packed into these fields and read back from them as it was, unless its exponent is too
large. So an operation gives a finite double if the rounded result is below `2 ^ 1024` in magnitude.

## Main definitions

* `QuboReduction.Unpacked.Fields` — the fields that the bits of a double consist of.
* `QuboReduction.Binary64.value` — the number that a finite double stands for.

## Main results

* `QuboReduction.Unpacked.unpack_pack` — packing and unpacking.
* `QuboReduction.Unpacked.canonical_unpack` — finite doubles are unpacked in normal form.
* `QuboReduction.Binary64.value_eq` — the number is that of the unpacked double.
-/

open Float.Model Float.Model.UnpackedFloat

namespace QuboReduction

namespace Unpacked

variable {u : UnpackedFloat} {m n k : Nat} {e f t : Int} {s : Sign}

/-! ### Fields -/

theorem toNat_unpackMantissa (b : BitVec 64) :
    (@unpackMantissa .binary64 b).toNat = b.toNat % 2 ^ 52 := by
  simp [unpackMantissa]

theorem toNat_unpackExponent (b : BitVec 64) :
    (@unpackExponent .binary64 b).toNat = b.toNat >>> 52 % 2 ^ 11 := by
  simp [unpackExponent]

theorem toNat_unpackSign (b : BitVec 64) :
    (@unpackSign .binary64 b).toNat = b.toNat >>> 63 % 2 := by
  simp [unpackSign]

/-- The sign, exponent field and fraction that the bits of a double consist of. -/
structure Fields (b : BitVec 64) (s : Sign) (field fraction : Nat) : Prop where
  /-- The first bit. -/
  sign : Sign.ofBitVec (@unpackSign .binary64 b) = s
  /-- The bits of the exponent. -/
  field : b.toNat >>> 52 % 2 ^ 11 = field
  /-- The bits of the fraction. -/
  fraction : b.toNat % 2 ^ 52 = fraction

variable {b : BitVec 64} {field fraction : Nat}

/-- What is read from the fields: no finite number at the last exponent field, and a fraction
without or with its leading bit at the first one and between. -/
theorem unpack_of_fields (h : Fields b s field fraction) :
    (field = 2047 → (UnpackedFloat.unpack .binary64 b).isFinite = false) ∧
    (field = 0 → fraction = 0 → UnpackedFloat.unpack .binary64 b = .zero s) ∧
    (∀ hpos : 0 < fraction, field = 0 →
      UnpackedFloat.unpack .binary64 b = .finite s fraction (-1074) hpos) ∧
    ∀ hpos : 0 < 2 ^ 52 + fraction, 0 < field → field < 2047 →
      UnpackedFloat.unpack .binary64 b = .finite s (2 ^ 52 + fraction) (field - 1075) hpos := by
  have hfield : (@unpackExponent .binary64 b).toNat = field := by
    rw [toNat_unpackExponent, h.field]
  have hfraction : (@unpackMantissa .binary64 b).toNat = fraction := by
    rw [toNat_unpackMantissa, h.fraction]
  have hlast : @unpackExponent .binary64 b = -1#11 ↔ field = 2047 := by
    rw [← BitVec.toNat_inj, hfield]
    rfl
  have hfirst : @unpackExponent .binary64 b = 0#11 ↔ field = 0 := by
    rw [← BitVec.toNat_inj, hfield]
    rfl
  have hzero : @unpackMantissa .binary64 b = 0#52 ↔ fraction = 0 := by
    rw [← BitVec.toNat_inj, hfraction]
    rfl
  refine ⟨fun h₁ => ?_, fun h₁ h₂ => ?_, fun hpos h₁ => ?_, fun hpos h₁ h₂ => ?_⟩
  · simp only [UnpackedFloat.unpack, hlast.mpr h₁, if_true]
    split <;> rfl
  · simp only [UnpackedFloat.unpack, hlast, hfirst, hzero, h₁, h₂, h.sign]
    simp
  · simp only [UnpackedFloat.unpack, hlast, hfirst, hzero, h₁, h.sign, hfraction, hpos.ne']
    simp [hfield, h₁, Format.exponentBias]
  · have hmantissa : (1#1 ++ @unpackMantissa .binary64 b).toNat = 2 ^ 52 + fraction := by
      rw [BitVec.toNat_append, ← Nat.shiftLeft_add_eq_or_of_lt (BitVec.isLt _), hfraction]
      rfl
    simp only [UnpackedFloat.unpack, hlast, hfirst, h₁.ne', h₂.ne, h.sign, if_false, hmantissa]
    simp [hfield, Format.exponentBias]

theorem fields_packComponents (s : Sign) (e : BitVec 11) (m : BitVec 52) :
    Fields (packComponents .binary64 s e m) s e.toNat m.toNat where
  sign := by rw [unpackSign_packComponents, Sign.ofBitVec_toBitVec]
  field := by rw [← toNat_unpackExponent, unpackExponent_packComponents]
  fraction := by rw [← toNat_unpackMantissa, unpackMantissa_packComponents]

/-! ### Packing and unpacking -/

theorem pack_finite (hm : 0 < m) :
    UnpackedFloat.pack .binary64 (.finite s m e hm) =
      if 2 ^ 11 ≤ (e + 1075).toNat + 1 then packComponents .binary64 s (-1#11) 0#52
      else if m.log2 = 52 then
        packComponents .binary64 s (.ofNat 11 (e + 1075).toNat) (.ofNat 52 m)
      else packComponents .binary64 s 0#11 (.ofNat 52 m) := by
  have hbias : e + ((Format.binary64.exponentBias : Nat) : Int) +
      ((Format.binary64.mantissaBitsWithoutImplicit : Nat) : Int) = e + 1075 := by
    simp only [Format.exponentBias]
    omega
  have hlog : m.log2 + 1 = Format.binary64.mantissaBits ↔ m.log2 = 52 := by
    simp only [Format.mantissaBits]
    omega
  simp only [UnpackedFloat.pack, hbias, hlog]
  rfl

/-- A double in normal form whose exponent is not too large is unpacked as it was packed. -/
theorem unpack_pack_finite (hm : 0 < m) (hu : Canonical (.finite s m e hm)) (he : e ≤ 971) :
    UnpackedFloat.unpack .binary64 (UnpackedFloat.pack .binary64 (.finite s m e hm)) =
      .finite s m e hm := by
  obtain ⟨hhigh, hlow, hnormal⟩ := hu
  rw [pack_finite, if_neg (by omega)]
  by_cases hbits : 2 ^ 52 ≤ m
  · rw [if_pos ((Nat.log2_eq_iff hm.ne').mpr ⟨hbits, hhigh⟩)]
    have hfields := fields_packComponents s (.ofNat 11 (e + 1075).toNat) (.ofNat 52 m)
    rw [BitVec.toNat_ofNat, BitVec.toNat_ofNat,
      Nat.mod_eq_of_lt (b := 2 ^ 11) (by omega)] at hfields
    have hfraction : 2 ^ 52 + m % 2 ^ 52 = m := by omega
    rw [(unpack_of_fields hfields).2.2.2 (by omega) (by omega) (by omega)]
    congr 1
    omega
  · have hlog : m.log2 ≠ 52 := by
      have := (Nat.log2_lt hm.ne').mpr (not_le.mp hbits)
      omega
    rw [if_neg hlog]
    have hfields := fields_packComponents s 0#11 (.ofNat 52 m)
    rw [BitVec.toNat_ofNat (w := 52), Nat.mod_eq_of_lt (not_le.mp hbits)] at hfields
    rw [(unpack_of_fields hfields).2.2.1 hm rfl]
    congr 1
    omega

theorem unpack_pack_zero (s : Sign) :
    UnpackedFloat.unpack .binary64 (UnpackedFloat.pack .binary64 (.zero s)) = .zero s :=
  (unpack_of_fields (fields_packComponents s 0#11 0#52)).2.1 rfl rfl

theorem abs_value_finite (hm : 0 < m) : |value (.finite s m e hm)| = m * 2 ^ e := by
  have hpos : (0 : Rat) ≤ m * 2 ^ e := by positivity
  cases s <;> simp [value, Sign.apply, abs_of_nonneg hpos]

/-- The exponent of a double in normal form is not too large exactly when the number is not. -/
theorem abs_value_lt_iff (hm : 0 < m) (hu : Canonical (.finite s m e hm)) :
    |value (.finite s m e hm)| < 2 ^ 1024 ↔ e ≤ 971 := by
  obtain ⟨hhigh, hlow, hnormal⟩ := hu
  rw [abs_value_finite]
  constructor
  · intro h
    by_contra he
    have hm : ((2 ^ 52 : Nat) : Rat) ≤ m := by exact_mod_cast hnormal.resolve_right (by omega)
    have hle : (2 : Rat) ^ 1024 ≤ m * 2 ^ e := by
      calc (2 : Rat) ^ 1024 = 2 ^ (52 : Int) * 2 ^ (972 : Int) := by
            rw [← zpow_add₀ two_ne_zero]
            norm_num
        _ ≤ 2 ^ (52 : Int) * 2 ^ e := by
            gcongr
            · exact one_le_two
            · omega
        _ ≤ m * 2 ^ e := by
            gcongr
            exact_mod_cast hm
    exact absurd h (not_lt.mpr hle)
  · intro he
    have hm : (m : Rat) < 2 ^ (53 : Int) := by exact_mod_cast hhigh
    calc (m : Rat) * 2 ^ e < 2 ^ (53 : Int) * 2 ^ e := by gcongr
      _ ≤ 2 ^ (53 : Int) * 2 ^ (971 : Int) := by
          gcongr
          exact one_le_two
      _ = 2 ^ 1024 := by
          rw [← zpow_add₀ two_ne_zero]
          norm_num

/-- **Packing.** A double in normal form is unpacked as it was packed if its number is not too
large. -/
theorem unpack_pack (hu : Canonical u) (h : |value u| < 2 ^ 1024) :
    UnpackedFloat.unpack .binary64 (UnpackedFloat.pack .binary64 u) = u := by
  rcases hu.cases with ⟨s, rfl⟩ | ⟨s, m, e, hm, rfl⟩
  · exact unpack_pack_zero s
  · exact unpack_pack_finite hm hu ((abs_value_lt_iff hm hu).mp h)

/-- The fields that the bits of a double consist of. -/
theorem fields_of_bits (b : BitVec 64) :
    Fields b (if b.toNat >>> 63 == 1 then .negative else .positive) (b.toNat >>> 52 % 2 ^ 11)
      (b.toNat % 2 ^ 52) := by
  refine ⟨?_, rfl, rfl⟩
  have hbit : (@unpackSign .binary64 b).toNat = b.toNat >>> 63 := by
    have hb := b.isLt
    rw [toNat_unpackSign, Nat.shiftRight_eq_div_pow]
    omega
  have hzero : @unpackSign .binary64 b = 0#1 ↔ ¬b.toNat >>> 63 = 1 := by
    have hlt := (@unpackSign .binary64 b).isLt
    rw [← BitVec.toNat_inj, BitVec.toNat_ofNat, ← hbit]
    omega
  by_cases h : b.toNat >>> 63 = 1 <;> simp [Sign.ofBitVec, hzero, h]

/-- What is unpacked is in normal form if it is finite, and its number is not too large. -/
theorem canonical_unpack {b : BitVec 64} (h : (UnpackedFloat.unpack .binary64 b).isFinite = true) :
    Canonical (UnpackedFloat.unpack .binary64 b) ∧
      |value (UnpackedFloat.unpack .binary64 b)| < 2 ^ 1024 := by
  obtain ⟨hlast, hzero, hleast, hnormal⟩ := unpack_of_fields (fields_of_bits b)
  have hfraction : b.toNat % 2 ^ 52 < 2 ^ 52 := Nat.mod_lt _ (Nat.two_pow_pos 52)
  have hfield : b.toNat >>> 52 % 2 ^ 11 < 2 ^ 11 := Nat.mod_lt _ (Nat.two_pow_pos 11)
  have hrange {s : Sign} {m : Nat} {e : Int} {hm : 0 < m} (hu : Canonical (.finite s m e hm))
      (he : e ≤ 971) (heq : UnpackedFloat.unpack .binary64 b = .finite s m e hm) :
      Canonical (UnpackedFloat.unpack .binary64 b) ∧
        |value (UnpackedFloat.unpack .binary64 b)| < 2 ^ 1024 := by
    rw [heq]
    exact ⟨hu, (abs_value_lt_iff hm hu).mpr he⟩
  generalize b.toNat >>> 52 % 2 ^ 11 = field at *
  generalize b.toNat % 2 ^ 52 = fraction at *
  rcases Nat.eq_zero_or_pos field with rfl | hpos
  · rcases Nat.eq_zero_or_pos fraction with rfl | hpos
    · rw [hzero rfl rfl]
      exact ⟨trivial, by simp [value]⟩
    · exact hrange ⟨by omega, le_rfl, Or.inr rfl⟩ (by omega) (hleast hpos rfl)
  · have hne : field ≠ 2047 := fun heq => by simp [hlast heq] at h
    exact hrange ⟨by omega, by omega, Or.inl (by omega)⟩ (by omega)
      (hnormal (by omega) hpos (by omega))

end Unpacked

namespace Binary64

/-- The number that a finite double stands for. -/
def value (x : Float) : Rat := (ofFloat x).signed * 2 ^ (ofFloat x).exponent

theorem ofFloat_eq (x : Float) :
    ofFloat x =
      let b := x.toModel.toBits.toBitVec.toNat
      if b >>> 52 % 2 ^ 11 = 0 then ⟨b >>> 63 == 1, b % 2 ^ 52, -1074, false⟩
      else ⟨b >>> 63 == 1, 2 ^ 52 + b % 2 ^ 52, (b >>> 52 % 2 ^ 11 : Nat) - 1075,
        b % 2 ^ 52 == 0 && 1 < b >>> 52 % 2 ^ 11⟩ := rfl

/-- **The number of a double** is that of the unpacked double. -/
theorem value_eq {x : Float} (h : x.isFinite = true) :
    value x = Unpacked.value x.toModel.unpack := by
  obtain ⟨hlast, hzero, hleast, hnormal⟩ :=
    Unpacked.unpack_of_fields (Unpacked.fields_of_bits x.toModel.toBits.toBitVec)
  have hfield : x.toModel.toBits.toBitVec.toNat >>> 52 % 2 ^ 11 < 2 ^ 11 :=
    Nat.mod_lt _ (Nat.two_pow_pos 11)
  change (UnpackedFloat.unpack .binary64 x.toModel.toBits.toBitVec).isFinite = true at h
  change _ = Unpacked.value (UnpackedFloat.unpack .binary64 x.toModel.toBits.toBitVec)
  rw [value, ofFloat_eq]
  dsimp only
  generalize x.toModel.toBits.toBitVec.toNat >>> 52 % 2 ^ 11 = field at *
  generalize x.toModel.toBits.toBitVec.toNat % 2 ^ 52 = fraction at *
  generalize (x.toModel.toBits.toBitVec.toNat >>> 63 == 1) = negative at *
  have hsigned : ∀ m : Nat, (if negative = true then -(m : Int) else m) =
      (if negative = true then Sign.negative else .positive).apply m := by
    cases negative <;> exact fun _ => rfl
  split
  · rename_i hfirst
    rcases Nat.eq_zero_or_pos fraction with rfl | hpos
    · rw [hzero hfirst rfl]
      simp [signed, Unpacked.value]
    · rw [hleast hpos hfirst, signed, hsigned]
      rfl
  · rename_i hfirst
    have hne : field ≠ 2047 := fun heq => by simp [hlast heq] at h
    rw [hnormal (by omega) (by omega) (by omega), signed, hsigned]
    rfl

end Binary64

end QuboReduction

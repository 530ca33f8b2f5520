import QuboReduction.Proofs.Accounting
import QuboReduction.Proofs.Binarization
import QuboReduction.Proofs.BitMagnitudes
import QuboReduction.Proofs.ExactDoubles

/-!
# Integers decoded from bits in floating point

The record of the stage for bits recovers an integer variable as its lower bound plus the sum of the
weights whose bits are one, and in floating point the bound, the weights and the sums are rounded.
As long as both bounds and the size of the range are at most `2 ^ 53` in magnitude, everything is
exact at every vector of zeros and ones. No other range is decoded exactly, apart from those of a
single value that is a double: an integer beyond a bound of `2 ^ 53` may not be a double at all, and
a range of more than `2 ^ 53` has bits that add up to `2 ^ 53 + 1`, which is rounded before the
lower bound is added.

## Main definitions

* `QuboReduction.Problem.BitsOf` — the variables that are the bits of a variable.
* `QuboReduction.decodeBits`, `QuboReduction.selected` — the double that is recovered from bits, and
  the integer that the bits select.

## Main results

* `QuboReduction.Problem.binarize_mapping` — the mapping of an integer variable.
* `QuboReduction.exactly_decodeBits`, `QuboReduction.decodesExactly_iff` — bits that are decoded
  exactly.
* `QuboReduction.Problem.binarize_recovers_iff` — the ranges that are decoded exactly.
* `QuboReduction.spanning_misread` — a range of 54 bits, with an integer that is decoded wrongly.
-/

namespace QuboReduction

/-! ### The mapping of an integer variable -/

namespace Problem

section Mappings

variable {α : Type} [Scalar α] {p q q' : Problem α} {r : Record α} {v : Variable}
  {lower upper : Int} {start i : Nat}

/-- The variables from an index on are the bits of a variable, in their order. -/
def BitsOf (q : Problem α) (v : Variable) (start count : Nat) : Prop :=
  ∀ k < count, ∃ w, q.variableAt? (start + k) = some w ∧ w.name = bitName v k ∧ w.isBinary = true

theorem BitsOf.mono {count : Nat} {extra : List Variable} (h : q.BitsOf v start count)
    (hvars : q'.vars = q.vars ++ extra) : q'.BitsOf v start count := by
  intro k hk
  obtain ⟨w, hw, hbit⟩ := h k hk
  have hlt : start + k < q.vars.length := variableAt?_lt hw
  exact ⟨w, by rw [variableAt?, hvars, List.getElem?_append_left hlt]; exact hw, hbit⟩

/-- A mapping recovers a variable from its bits, if it is an integer variable. -/
def RecoveredBy (q : Problem α) (v : Variable) (m : Mapping α) : Prop :=
  ∀ lower upper, v.domain = .integer lower upper → ∃ start,
    start + (bitWeights (upper - lower).toNat).length ≤ q.size ∧
    q.BitsOf v start (bitWeights (upper - lower).toNat).length ∧
    m = .affine (Scalar.ofInt lower) (((bitWeights (upper - lower).toNat).zipIdx start).map
      fun e => (e.2, Scalar.ofInt (e.1 : Int)))

theorem RecoveredBy.mono {m : Mapping α} {extra : List Variable} (h : q.RecoveredBy v m)
    (hvars : q'.vars = q.vars ++ extra) : q'.RecoveredBy v m := by
  intro lower upper hdomain
  obtain ⟨start, hle, hbits, hm⟩ := h lower upper hdomain
  have hsize : q.size ≤ q'.size := by simp [size, hvars]
  exact ⟨start, hle.trans hsize, hbits.mono hvars, hm⟩

/-- One more variable is recovered from its bits, and the others are as before. -/
theorem addBinarized_recovered {s s' : Substitution α} {done : List Variable}
    (hq : q.WellFormed) (hs : List.Forall₂ q.RecoveredBy done s)
    (h : addBinarized (q, s) v = .ok (q', s')) :
    q'.WellFormed ∧ List.Forall₂ q'.RecoveredBy (done ++ [v]) s' := by
  simp only [addBinarized] at h
  cases hdomain : v.domain with
  | binary =>
    rw [hdomain] at h
    obtain ⟨⟨q₁, index⟩, hadd, h⟩ := bind_eq_ok.mp h
    rw [pure_eq_ok, Prod.mk.injEq] at h
    obtain ⟨rfl, rfl⟩ := h
    have hadd := ofBuilding_eq_ok.mp hadd
    have hwellFormed := hq.of_addVariable hadd
    obtain ⟨-, -, rfl, rfl⟩ := addVariable_eq_ok_iff.mp hadd
    have hv : (q.declare v.name .binary).RecoveredBy v (.identity q.size) :=
      fun lower upper hinteger => by simp [hdomain] at hinteger
    exact ⟨hwellFormed, List.rel_append (hs.imp fun _ _ h => h.mono rfl) (.cons hv .nil)⟩
  | integer lower upper =>
    rw [hdomain] at h
    obtain ⟨⟨q₁, terms⟩, hadd, h⟩ := bind_eq_ok.mp h
    rw [pure_eq_ok, Prod.mk.injEq] at h
    obtain ⟨rfl, rfl⟩ := h
    obtain ⟨hwellFormed, rfl, extra, rfl, hbinary, hnames⟩ := addBits_ok hq hadd
    have hlength : extra.length = (bitWeights (upper - lower).toNat).length := by
      simpa using congrArg List.length hnames
    refine ⟨hwellFormed, List.rel_append (hs.imp fun _ _ h => h.mono rfl) (.cons ?_ .nil)⟩
    intro lower' upper' hinteger
    obtain ⟨rfl, rfl⟩ := Domain.integer.inj (hdomain.symm.trans hinteger)
    refine ⟨q.size, by simp [size, hlength], fun k hk => ?_, rfl⟩
    have hk : k < extra.length := hlength ▸ hk
    refine ⟨extra[k], ?_, ?_, hbinary _ (List.getElem_mem hk)⟩
    · simp [variableAt?, size, hk]
    · have hname : (extra.map Variable.name)[k]? = some (bitName v k) := by
        rw [hnames, List.getElem?_map, List.getElem?_range' (hlength ▸ hk)]
        simp
      simpa [hk] using hname

/-- **The mapping of an integer variable** is its lower bound plus its bits times their weights. -/
theorem binarize_mapping (h : p.binarize = .ok (q, r)) (hv : p.vars[i]? = some v)
    (hdomain : v.domain = .integer lower upper) :
    ∃ start, start + (bitWeights (upper - lower).toNat).length ≤ q.size ∧
      q.BitsOf v start (bitWeights (upper - lower).toNat).length ∧
      r.mappings[i]? = some (.affine (Scalar.ofInt lower)
        (((bitWeights (upper - lower).toNat).zipIdx start).map
          fun e => (e.2, Scalar.ofInt (e.1 : Int)))) := by
  obtain ⟨q₁, s, q₂, hrun, hobjective, hconstraints, rfl⟩ := binarize_steps h
  obtain ⟨-, hall⟩ := foldlM_ok_of_step
    (motive := fun done state => state.1.WellFormed ∧ List.Forall₂ state.1.RecoveredBy done state.2)
    ⟨wellFormed_empty p.name, .nil⟩
    (fun _ _ _ _ _ _ hstate hstep => addBinarized_recovered hstate.1 hstate.2 hstep) hrun
  obtain ⟨-, rfl⟩ := setObjective_eq_ok_iff.mp hobjective
  have hvars : q.vars = q₁.vars ++ [] := by
    rw [List.append_nil]
    exact (vars_of_addConstraints hconstraints).1
  obtain ⟨hi, hvi⟩ := List.getElem?_eq_some_iff.mp hv
  have hi' : i < s.length := hall.length_eq ▸ hi
  have hrecovered : q₁.RecoveredBy v s[i] := hvi ▸ hall.get hi hi'
  obtain ⟨start, hle, hbits, hm⟩ := (hrecovered.mono hvars) lower upper hdomain
  exact ⟨start, hle, hbits, by rw [List.getElem?_eq_getElem hi', hm]⟩

end Mappings

end Problem

/-! ### Bits in floating point -/

open Binary64 (Exactly RoundedFrom value)

/-- A double that is zero or one. -/
def Binary64.IsBit (x : Float) : Prop := Exactly 0 x ∨ Exactly 1 x

open Binary64 (IsBit)

/-- The double that is recovered from bits with the given weights. -/
def decodeBits (lower : Int) (ws : List Nat) (bits : List Float) : Float :=
  Scalar.ofInt lower +
    Scalar.sum (List.zipWith (fun (w : Nat) b => Scalar.ofInt (w : Int) * b) ws bits)

/-- The integer that bits with the given weights select. -/
def selected (lower : Int) (ws : List Nat) (bits : List Float) : Rat :=
  lower + weigh ws (bits.map value)

variable {lower upper : Int} {ws : List Nat} {bits t : List Float} {start i : Nat}

/-- A mapping reads its bits from the place where they stand in a vector. -/
theorem apply_affine_eq (h : start + ws.length ≤ t.length) :
    (Mapping.affine (Scalar.ofInt lower)
      ((ws.zipIdx start).map fun e => (e.2, Scalar.ofInt (e.1 : Int)))).apply (valueAt t) =
        decodeBits lower ws ((t.drop start).take ws.length) := by
  rw [Mapping.apply, decodeBits]
  congr 2
  induction ws generalizing start with
  | nil => rfl
  | cons w ws ih =>
    rw [List.length_cons] at h
    have hstart : start < t.length := by omega
    rw [List.drop_eq_getElem_cons hstart, List.length_cons, List.take_succ_cons,
      List.zipWith_cons_cons, List.zipIdx_cons, List.map_cons, List.map_cons,
      ih (by omega), valueAt_of_lt hstart]

/-- What bits select is an integer of the range. -/
theorem selected_mem (hle : lower ≤ upper)
    (hlen : bits.length = (bitWeights (upper - lower).toNat).length)
    (hbits : ∀ x ∈ bits, IsBit x) :
    ∃ n : Int, selected lower (bitWeights (upper - lower).toNat) bits = n ∧ lower ≤ n ∧
      n ≤ upper := by
  have hvalues : IsBits (bits.map value) := List.forall_mem_map.mpr fun x hx =>
    (hbits x hx).imp Exactly.value_eq Exactly.value_eq
  obtain ⟨m, hm, hmle⟩ := weigh_le (by simpa using hlen) hvalues
  rw [sum_bitWeights] at hmle
  exact ⟨lower + m, by rw [selected, hm]; push_cast; rfl, by omega, by omega⟩

/-! ### Exact sums of weights -/

/-- The terms of a sum of weights are exact. -/
private theorem exactly_products (hws : ∀ w ∈ ws, w ≤ 2 ^ 53) (hbits : ∀ x ∈ bits, IsBit x) :
    List.Forall₂ Exactly (List.zipWith (fun (w : Nat) b => (w : Rat) * b) ws (bits.map value))
      (List.zipWith (fun (w : Nat) b => Scalar.ofInt (w : Int) * b) ws bits) := by
  induction ws generalizing bits with
  | nil => exact .nil
  | cons w ws ih =>
    cases bits with
    | nil => exact .nil
    | cons x bits =>
      obtain ⟨hw, hws⟩ := List.forall_mem_cons.mp hws
      obtain ⟨hx, hbits⟩ := List.forall_mem_cons.mp hbits
      have hweight := Binary64.exactly_natCast hw
      have hw : (w : Rat) ≤ 2 ^ 53 := by exact_mod_cast hw
      refine .cons ?_ (ih hws hbits)
      rcases hx with hx | hx
      · rw [hx.value_eq]
        exact hweight.mul hx ⟨w, by simp⟩ .zero (by simp)
      · rw [hx.value_eq]
        exact hweight.mul hx ⟨w, by simp⟩ ⟨1, by simp⟩ (by simpa using hw)

/-- **Sums of weights** up to the limit are exact. -/
theorem exactly_sum_weights (hws : ∀ w ∈ ws, w ≤ 2 ^ 53) (hbits : ∀ x ∈ bits, IsBit x)
    (hsum : weigh ws (bits.map value) ≤ 2 ^ 53) :
    Exactly (weigh ws (bits.map value))
      (Scalar.sum (List.zipWith (fun (w : Nat) b => Scalar.ofInt (w : Int) * b) ws bits)) := by
  have hterm : ∀ a ∈ List.zipWith (fun (w : Nat) b => (w : Rat) * b) ws (bits.map value),
      IsInteger a ∧ 0 ≤ a := by
    intro a ha
    rw [← List.map_uncurry_zip_eq_zipWith] at ha
    obtain ⟨⟨w, b⟩, hmem, rfl⟩ := List.mem_map.mp ha
    obtain ⟨x, hx, rfl⟩ := List.mem_map.mp (List.of_mem_zip hmem).2
    rcases hbits x hx with hx | hx
    · simp [Function.uncurry, hx.value_eq]
    · simpa [Function.uncurry, hx.value_eq] using ⟨(w : Int), by simp⟩
  refine Exactly.sum (exactly_products hws hbits) (fun a ha => (hterm a ha).1) ?_
  rw [List.map_congr_left fun a ha => abs_of_nonneg (hterm a ha).2, List.map_id']
  exact hsum

/-- Ranges within the limit have weights within the limit. -/
private theorem le_of_mem_weights (hrange : upper - lower ≤ 2 ^ 53) :
    ∀ w ∈ bitWeights (upper - lower).toNat, w ≤ 2 ^ 53 := fun w hw =>
  (le_of_mem_bitWeights hw).trans (by omega)

/-- **Bits that are decoded exactly.** Both bounds and the size of the range are within the
limit. -/
theorem exactly_decodeBits (hle : lower ≤ upper) (hlower : -2 ^ 53 ≤ lower)
    (hupper : upper ≤ 2 ^ 53) (hrange : upper - lower ≤ 2 ^ 53)
    (hlen : bits.length = (bitWeights (upper - lower).toNat).length)
    (hbits : ∀ x ∈ bits, IsBit x) :
    Exactly (selected lower (bitWeights (upper - lower).toNat) bits)
      (decodeBits lower (bitWeights (upper - lower).toNat) bits) := by
  obtain ⟨n, hn, hlow, hup⟩ := selected_mem hle hlen hbits
  have hweigh : weigh (bitWeights (upper - lower).toNat) (bits.map value) = (n - lower : Int) := by
    rw [selected] at hn
    push_cast
    linarith
  have hsum := exactly_sum_weights (le_of_mem_weights hrange) hbits
    (by rw [hweigh]; exact_mod_cast (by omega : n - lower ≤ 2 ^ 53))
  have hbound : Exactly lower (Float.ofInt lower) :=
    Binary64.exactly_ofInt (abs_le.mpr ⟨by omega, by omega⟩)
  refine hbound.add hsum (.intCast _) (hweigh ▸ .intCast _) ?_
  have habs : |n| ≤ 2 ^ 53 := abs_le.mpr ⟨by omega, by omega⟩
  rw [selected] at hn
  rw [hn]
  exact_mod_cast habs

/-! ### Ranges that are not decoded exactly -/

/-- The doubles for given zeros and ones. -/
def floatBits (bs : List Rat) : List Float := bs.map fun b => if b = 1 then 1.0 else 0.0

theorem isBit_of_mem_floatBits {bs : List Rat} {x : Float} (hx : x ∈ floatBits bs) : IsBit x := by
  obtain ⟨b, -, rfl⟩ := List.mem_map.mp hx
  split
  · exact .inr Binary64.exactly_one
  · exact .inl Binary64.exactly_zero

theorem map_value_floatBits {bs : List Rat} (hbs : IsBits bs) :
    (floatBits bs).map value = bs := by
  rw [floatBits, List.map_map]
  refine (List.map_congr_left fun b hb => ?_).trans (List.map_id bs)
  rcases hbs b hb with rfl | rfl
  · simp
  · simp [Binary64.value_one]

/-- All zeros and ones are decoded exactly with the given weights. -/
def DecodesExactly (lower : Int) (ws : List Nat) : Prop :=
  ∀ bits : List Float, bits.length = ws.length → (∀ x ∈ bits, IsBit x) →
    Exactly (selected lower ws bits) (decodeBits lower ws bits)

namespace DecodesExactly

/-- All integers of a range that is decoded exactly are doubles. -/
theorem representable (h : DecodesExactly lower (bitWeights (upper - lower).toNat)) {n : Int}
    (hlow : lower ≤ n) (hup : n ≤ upper) : Representable n := by
  obtain ⟨bs, hlen, hbs, hsum⟩ := reaches_bitWeights (upper - lower).toNat (n - lower).toNat
    (by rw [sum_bitWeights]; omega)
  have hexact := h (floatBits bs) (by simpa [floatBits] using hlen)
    fun _ => isBit_of_mem_floatBits
  have hselected : selected lower (bitWeights (upper - lower).toNat) (floatBits bs) = n := by
    have hcast : (((n - lower).toNat : Int) : Rat) = ((n - lower : Int) : Rat) := by
      rw [Int.toNat_of_nonneg (by omega)]
    rw [selected, map_value_floatBits hbs, hsum, ← Int.cast_natCast, hcast]
    push_cast
    ring
  exact hselected ▸ hexact.representable

/-- The bounds of such a range are within the limit, unless the range has a single value: the next
integer after the limit is not a double. -/
theorem bounds (h : DecodesExactly lower (bitWeights (upper - lower).toNat)) (hlt : lower < upper) :
    -2 ^ 53 ≤ lower ∧ upper ≤ 2 ^ 53 := by
  have heven (n : Int) (hlow : lower ≤ n) (hup : n ≤ upper) (hn : 2 ^ 53 < |n|) : n % 2 = 0 :=
    Int.even_iff.mp ((h.representable hlow hup).even_of_lt_abs hn)
  constructor
  · by_contra hlower
    have hodd : lower ≠ -2 ^ 53 - 1 := fun heq => by
      have hfirst := heven lower le_rfl hlt.le (lt_abs.mpr (.inr (by omega)))
      omega
    have hfirst := heven lower le_rfl hlt.le (lt_abs.mpr (.inr (by omega)))
    have hnext := heven (lower + 1) (by omega) (by omega) (lt_abs.mpr (.inr (by omega)))
    omega
  · by_contra hupper
    have hodd : upper ≠ 2 ^ 53 + 1 := fun heq => by
      have hlast := heven upper hlt.le le_rfl (lt_abs.mpr (.inl (by omega)))
      omega
    have hlast := heven upper hlt.le le_rfl (lt_abs.mpr (.inl (by omega)))
    have hprevious := heven (upper - 1) (by omega) (by omega) (lt_abs.mpr (.inl (by omega)))
    omega

end DecodesExactly

theorem sum_append_singleton (xs : List Float) (x : Float) :
    Scalar.sum (xs ++ [x]) = Scalar.sum xs + x := by
  simp [Scalar.sum]

/-- The weights for a range of more than `2 ^ 53` are powers of two and a last weight, with which
the powers can be completed to `2 ^ 53 + 1`. -/
private theorem exists_last_weight {range : Nat} (hlow : 2 ^ 53 < range) (hhigh : range ≤ 2 ^ 54) :
    ∃ n last, n ≤ 54 ∧ 0 < last ∧ last ≤ 2 ^ 53 ∧ 2 ^ 53 + 1 - last ≤ 2 ^ n - 1 ∧
      bitWeights range = (List.range n).map (Nat.pow 2) ++ [last] := by
  have hself : 2 ^ range.log2 ≤ range := Nat.log2_self_le (by omega)
  have hlt : range < 2 ^ (range.log2 + 1) := Nat.lt_log2_self
  have hmin : 53 ≤ range.log2 := (Nat.le_log2 (by omega)).mpr hlow.le
  have hmax : range.log2 < 55 := (Nat.log2_lt (by omega)).mpr (by omega)
  refine ⟨range.log2, _, by omega, ?_, ?_, ?_, if_neg (by omega)⟩ <;>
    rcases (by omega : range.log2 = 53 ∨ range.log2 = 54) with heq | heq <;>
    rw [heq] at hself hlt ⊢ <;> simp only [Nat.pow_eq] <;> omega

/-- In a range of more than `2 ^ 53` some bits select the integer `2 ^ 53 + 1` above the lower
bound. Their sum is exact before the last weight and rounded with it. -/
private theorem exists_rounded_sum {range : Nat} (hlow : 2 ^ 53 < range)
    (hhigh : range ≤ 2 ^ 54) :
    ∃ bits : List Float, bits.length = (bitWeights range).length ∧ (∀ x ∈ bits, IsBit x) ∧
      weigh (bitWeights range) (bits.map value) = 2 ^ 53 + 1 ∧
      RoundedFrom (2 ^ 53 + 1) (Scalar.sum (List.zipWith
        (fun (w : Nat) b => Scalar.ofInt (w : Int) * b) (bitWeights range) bits)) := by
  obtain ⟨n, last, hn, hpos, hle, hrest, hweights⟩ := exists_last_weight hlow hhigh
  have hpowers : ∀ w ∈ (List.range n).map (Nat.pow 2), w ≤ 2 ^ 53 := by
    intro w hw
    obtain ⟨k, hk, rfl⟩ := List.mem_map.mp hw
    have hk := List.mem_range.mp hk
    exact Nat.pow_le_pow_right two_pos (by omega)
  obtain ⟨bs, hlen, hbs, hsum⟩ := reaches_powers n (2 ^ 53 + 1 - last) (by rwa [sum_powers])
  have hvalues := map_value_floatBits hbs
  have hcast : ((2 ^ 53 + 1 - last : Nat) : Rat) = 2 ^ 53 + 1 - last := by
    rw [Nat.cast_sub (by omega)]
    norm_num
  have hlast : (1 : Rat) ≤ last := by exact_mod_cast hpos
  have hbits : ∀ x ∈ floatBits bs, IsBit x := fun _ => isBit_of_mem_floatBits
  have hfirst := exactly_sum_weights hpowers hbits (by
    rw [hvalues, hsum, hcast]
    linarith)
  rw [hvalues, hsum, hcast] at hfirst
  have hweight : Exactly (last * 1) (Scalar.ofInt (last : Int) * 1.0) :=
    (Binary64.exactly_natCast hle).mul Binary64.exactly_one ⟨last, by simp⟩ ⟨1, by simp⟩
      (by rw [mul_one, Nat.abs_cast]; exact_mod_cast hle)
  rw [mul_one] at hweight
  refine ⟨floatBits bs ++ [1.0], ?_, ?_, ?_, ?_⟩
  · simp [hweights, floatBits, hlen]
  · exact List.forall_mem_append.mpr
      ⟨hbits, by simpa using .inr Binary64.exactly_one⟩
  · rw [hweights, List.map_append, hvalues, List.map_singleton, Binary64.value_one,
      weigh_append_singleton (by simpa using hlen), hsum, hcast]
    ring
  · rw [hweights, List.zipWith_append (by simpa [floatBits] using hlen.symm),
      List.zipWith_cons_cons, List.zipWith_nil_left, sum_append_singleton]
    have htotal : (2 ^ 53 + 1 - last + last : Rat) = 2 ^ 53 + 1 := by ring
    have hround := hfirst.add_rounded hweight (d := 2 ^ 54) (.two_pow (by omega))
      (by rw [htotal]; norm_num)
    rwa [htotal] at hround

namespace DecodesExactly

/-- A range within the bounds `-2 ^ 53` and `2 ^ 53` that is decoded exactly has a size of at most
`2 ^ 53`. -/
theorem range_le (h : DecodesExactly lower (bitWeights (upper - lower).toNat))
    (hlower : -2 ^ 53 ≤ lower) (hupper : upper ≤ 2 ^ 53) : upper - lower ≤ 2 ^ 53 := by
  by_contra hwide
  rcases (by omega : lower = -1 ∨ lower ≤ -2) with rfl | hlow
  -- Here it matters that a tie goes to the even neighbour: the upper bound is decoded as the
  -- integer below it.
  · obtain rfl : upper = 2 ^ 53 := by omega
    have hexact := h (List.replicate 54 1.0) (by decide +kernel) fun x hx =>
      (List.eq_of_mem_replicate hx) ▸ .inr Binary64.exactly_one
    have hdecoded : value (decodeBits (-1) (bitWeights ((2 : Int) ^ 53 - -1).toNat)
        (List.replicate 54 1.0)) = 2 ^ 53 - 1 := by decide +kernel
    have hselected : selected (-1) (bitWeights ((2 : Int) ^ 53 - -1).toNat)
        (List.replicate 54 1.0) = 2 ^ 53 := by decide +kernel
    rw [hexact.value_eq, hselected] at hdecoded
    norm_num at hdecoded
  · obtain ⟨bits, hlen, hbits, hweigh, hround⟩ :=
      exists_rounded_sum (by omega : 2 ^ 53 < (upper - lower).toNat) (by omega)
    have hbound : Exactly lower (Float.ofInt lower) :=
      Binary64.exactly_ofInt (abs_le.mpr ⟨hlower, by omega⟩)
    have hexact := h bits hlen hbits
    rw [selected, hweigh] at hexact
    have hlower : (-2 ^ 53 : Rat) ≤ lower := by exact_mod_cast hlower
    have hlow : (lower : Rat) ≤ -2 := by exact_mod_cast hlow
    rcases hround.exactly_neighbour with hsum | hsum
    · have hdecoded := hbound.add hsum (.intCast _) ⟨2 ^ 53, by norm_num⟩
        (abs_le.mpr ⟨by linarith, by linarith⟩)
      linarith [hexact.eq hdecoded]
    · have hdecoded := hbound.add hsum (.intCast _) ⟨2 ^ 53 + 2, by norm_num⟩
        (abs_le.mpr ⟨by linarith, by linarith⟩)
      linarith [hexact.eq hdecoded]

end DecodesExactly

/-- The ranges whose bits are all decoded exactly. -/
theorem decodesExactly_iff (hle : lower ≤ upper) (hwords : (Domain.integer lower upper).InWords) :
    DecodesExactly lower (bitWeights (upper - lower).toNat) ↔
      (lower = upper ∧ Representable lower) ∨
        (-2 ^ 53 ≤ lower ∧ upper ≤ 2 ^ 53 ∧ upper - lower ≤ 2 ^ 53) := by
  constructor
  · intro h
    rcases hle.eq_or_lt with heq | hlt
    · exact .inl ⟨heq, h.representable le_rfl hle⟩
    · obtain ⟨hlower, hupper⟩ := h.bounds hlt
      exact .inr ⟨hlower, hupper, h.range_le hlower hupper⟩
  · rintro (⟨rfl, hrepresentable⟩ | ⟨hlower, hupper, hrange⟩) bits hlen hbits
    · have hmagnitude : |(lower : Rat)| ≤ 2 ^ 63 := by
        have hword := isWord_iff.mp hwords.1
        exact_mod_cast abs_le.mpr ⟨hword.1, hword.2.le⟩
      have hdouble : IsDouble (2 ^ 63) := .two_pow (by omega)
      have hbound := (Binary64.roundedFrom_ofInt hdouble hmagnitude).exactly hrepresentable
      have hweights : bitWeights (lower - lower).toNat = [] := by simp [bitWeights]
      rw [hweights] at hlen ⊢
      obtain rfl := List.length_eq_zero_iff.mp hlen
      have hsum : Exactly 0 (Scalar.sum []) := Exactly.sum .nil (by simp) (by simp)
      have hround := hbound.add_rounded hsum hdouble (by rwa [add_zero])
      have hselected : selected lower [] [] = lower + 0 := by simp [selected]
      rw [hselected]
      exact hround.exactly (by rwa [add_zero])
    · exact exactly_decodeBits hle hlower hupper hrange hlen hbits

/-! ### The stage -/

/-- At every vector of zeros and ones of length `size` the record gives the variable `i` the integer
that its bits select, which stand from `start` on. -/
def Record.RecoversExactly (r : Record Float) (size i start : Nat) (lower : Int)
    (ws : List Nat) : Prop :=
  ∀ t : List Float, t.length = size → (∀ x ∈ t, IsBit x) →
    ∃ s x, (∀ position, r.interpret position t = .ok s) ∧ s[i]? = some x ∧
      Exactly (selected lower ws ((t.drop start).take ws.length)) x

/-- Vectors of zeros and ones are recovered exactly if and only if all bits of the variable are
decoded exactly. -/
theorem Record.recoversExactly_iff {r : Record Float} {size : Nat} (hshaped : r.WellShaped)
    (htarget : r.targetSize = size) (hbound : start + ws.length ≤ size)
    (hm : r.mappings[i]? = some (.affine (Scalar.ofInt lower)
      ((ws.zipIdx start).map fun e => (e.2, Scalar.ofInt (e.1 : Int))))) :
    r.RecoversExactly size i start lower ws ↔ DecodesExactly lower ws := by
  have hback : ∀ t : List Float, t.length = size → (∀ position, r.interpret position t =
      .ok (r.back t)) ∧ (r.back t)[i]? =
        some (decodeBits lower ws ((t.drop start).take ws.length)) := fun t ht =>
    ⟨hshaped.interpret_eq (ht.trans htarget.symm),
      by rw [back, List.getElem?_map, hm, Option.map_some, apply_affine_eq (ht ▸ hbound)]⟩
  constructor
  · intro h bits hlen hbits
    -- the bits of the other variables do not matter
    let t := List.replicate start 0.0 ++ (bits ++ List.replicate (size - start - ws.length) 0.0)
    have ht : t.length = size := by
      simp only [t, List.length_append, List.length_replicate]
      omega
    have hzero : ∀ n, ∀ x ∈ List.replicate n (0.0 : Float), IsBit x := fun n x hx =>
      List.eq_of_mem_replicate hx ▸ .inl Binary64.exactly_zero
    have hread : (t.drop start).take ws.length = bits := by
      simp [t, List.drop_left', List.take_left', hlen]
    obtain ⟨s, x, hs, hx, hexact⟩ := h t ht (List.forall_mem_append.mpr
      ⟨hzero _, List.forall_mem_append.mpr ⟨hbits, hzero _⟩⟩)
    obtain ⟨hok, hvalue⟩ := hback t ht
    obtain rfl := Except.ok.inj ((hs 0).symm.trans (hok 0))
    obtain rfl := Option.some.inj (hx.symm.trans hvalue)
    rwa [hread] at hexact
  · intro h t ht hbits
    obtain ⟨hok, hvalue⟩ := hback t ht
    refine ⟨_, _, hok, hvalue, h _ ?_ fun x hx => hbits x ?_⟩
    · rw [List.length_take, List.length_drop]
      omega
    · exact List.mem_of_mem_drop (List.mem_of_mem_take hx)

namespace Problem

variable {p q : Problem Float} {r : Record Float} {v : Variable}

/-- **The ranges that are decoded exactly.** The bits of an integer variable with bounds of 64 bits
select an integer of its range at every vector of zeros and ones. The record gives the variable this
integer at all of them if and only if the bounds and the size of the range are at most `2 ^ 53` in
magnitude, or the range has a single value that is a double. -/
theorem binarize_recovers_iff (hp : p.Built) (h : Stage.integerToBinary.apply p = .ok (q, r))
    (hv : p.vars[i]? = some v) (hdomain : v.domain = .integer lower upper)
    (hwords : v.domain.InWords) :
    ∃ start, q.BitsOf v start (bitWeights (upper - lower).toNat).length ∧
      (∀ t : List Float, t.length = q.size → (∀ x ∈ t, IsBit x) →
        ∃ n : Int, lower ≤ n ∧ n ≤ upper ∧ selected lower (bitWeights (upper - lower).toNat)
          ((t.drop start).take (bitWeights (upper - lower).toNat).length) = n) ∧
      (r.RecoversExactly q.size i start lower (bitWeights (upper - lower).toNat) ↔
        (lower = upper ∧ Representable lower) ∨
          (-2 ^ 53 ≤ lower ∧ upper ≤ 2 ^ 53 ∧ upper - lower ≤ 2 ^ 53)) := by
  have hle : lower ≤ upper := by
    have hrange := hp.wellFormed.lower_le_upper v (List.mem_of_getElem? hv)
    rwa [hdomain] at hrange
  obtain ⟨-, htarget, hshaped, -⟩ := Stage.accounts_of_apply h
  obtain ⟨start, hbound, hbits, hm⟩ := binarize_mapping h hv hdomain
  refine ⟨start, hbits, fun t ht hzeros => ?_, ?_⟩
  · have hlen := List.length_take_of_le (l := t.drop start)
      (i := (bitWeights (upper - lower).toNat).length) (by rw [List.length_drop]; omega)
    obtain ⟨n, hn, hlow, hup⟩ := selected_mem hle hlen
      fun x hx => hzeros x (List.mem_of_mem_drop (List.mem_of_mem_take hx))
    exact ⟨n, hlow, hup, hn⟩
  · rw [Record.recoversExactly_iff hshaped htarget hbound hm,
      decodesExactly_iff hle (hdomain ▸ hwords)]

end Problem

/-- A binary variable, and integers from -5 to 10 and from `2 ^ 60` to `2 ^ 60 + 3`. -/
def gauging : Problem Float where
  name := "gauging"
  vars := [⟨"x", .binary, 0⟩, ⟨"n", .integer (-5) 10, 1⟩, ⟨"m", .integer (2 ^ 60) (2 ^ 60 + 3), 2⟩]
  objective := Objective.zero
  constraints := []

theorem gauging_built : gauging.Built := Problem.built_iff_assemble_eq.mpr rfl

/-- The integer from -5 to 10 is recovered exactly, and the one above `2 ^ 60` is not. -/
theorem gauging_recovers :
    ∃ q r, Stage.integerToBinary.apply gauging = .ok (q, r) ∧
      (∃ start, r.RecoversExactly q.size 1 start (-5) (bitWeights 15)) ∧
      ∃ start, ¬r.RecoversExactly q.size 2 start (2 ^ 60) (bitWeights 3) := by
  have hok : (Stage.integerToBinary.apply gauging).isOk = true := by decide +kernel
  obtain ⟨⟨q, r⟩, h⟩ := isOk_iff.mp hok
  obtain ⟨start, -, -, hexact⟩ := Problem.binarize_recovers_iff gauging_built h (i := 1) rfl rfl
    ⟨isWord_iff.mpr (by decide), isWord_iff.mpr (by decide)⟩
  obtain ⟨start', -, -, hrounded⟩ := Problem.binarize_recovers_iff gauging_built h (i := 2) rfl rfl
    ⟨isWord_iff.mpr (by decide), isWord_iff.mpr (by decide)⟩
  refine ⟨q, r, h, ⟨start, hexact.mpr (.inr ⟨by decide, by decide, by decide⟩)⟩, start', ?_⟩
  intro hrecovers
  rcases hrounded.mp hrecovers with ⟨heq, -⟩ | ⟨-, hupper, -⟩ <;> omega

/-- An integer from `-2 ^ 53` to `2 ^ 53 - 1`, which has 54 bits. -/
def spanning : Problem Float where
  name := "spanning"
  vars := [⟨"n", .integer (-2 ^ 53) (2 ^ 53 - 1), 0⟩]
  objective := Objective.zero
  constraints := []

/-- The first and the last of 54 bits are one. -/
def outerBits : List Float := 1.0 :: List.replicate 52 0.0 ++ [1.0]

/-- **An integer that is decoded wrongly.** The first and the last bit select the integer one, and
the record recovers zero. -/
theorem spanning_misread :
    spanning.Built ∧ (∀ v ∈ spanning.vars, v.domain.InWords) ∧
      selected (-2 ^ 53) (bitWeights (2 ^ 54 - 1)) outerBits = 1 ∧
      ∃ q r s, Stage.integerToBinary.apply spanning = .ok (q, r) ∧
        q.vars.map Variable.name = (List.range 54).map (fun k => "n@" ++ toString k) ∧
        r.interpret 0 outerBits = .ok s ∧ s.map value = [0] := by
  have hrun : ((Stage.integerToBinary.apply spanning).bind fun e =>
      (e.2.interpret 0 outerBits).map fun s => (e.1.vars.map Variable.name, s.map value)).toOption =
        some ((List.range 54).map (fun k => "n@" ++ toString k), [0]) := by decide +kernel
  have hwords : ∀ v ∈ spanning.vars, v.domain.InWords := by
    simp [spanning, Domain.InWords, isWord_iff, Domain.lower, Domain.upper]
  refine ⟨Problem.built_iff_assemble_eq.mpr rfl, hwords, by decide +kernel, ?_⟩
  cases h : Stage.integerToBinary.apply spanning with
  | error e => simp [h, Except.bind, Except.toOption] at hrun
  | ok state =>
    rw [h] at hrun
    cases hs : state.2.interpret 0 outerBits with
    | error e => simp [Except.bind, hs, Except.map, Except.toOption] at hrun
    | ok s =>
      obtain ⟨hnames, hvalues⟩ : _ ∧ _ := by
        simpa only [Except.bind, hs, Except.map, Except.toOption, Option.some.injEq,
          Prod.mk.injEq] using hrun
      exact ⟨state.1, state.2, s, rfl, hnames, hs, hvalues⟩

end QuboReduction

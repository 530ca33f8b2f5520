import Mathlib.Algebra.Order.BigOperators.Group.List
import Mathlib.Data.Nat.Log
import Mathlib.Order.Interval.Set.Defs
import QuboReduction.Proofs.Weights

/-!
# Weights in words

A program computes the weights for a range in words of 64 bits, in which a difference must not be
negative and a shift must stay below the width of a word. For no range is such a limit met, the
widest one included: the powers below the range are words, and the last of them is subtracted from
what it does not exceed. So the words are the weights, and their sums over parts of the list, in
which a weight may occur several times, are all numbers up to the range and no others.

## Main definitions

* `QuboReduction.Word.sub?`, `QuboReduction.Word.shiftLeft?`, `QuboReduction.Word.log2?` —
  operations on words that are refused beyond their limits.
* `QuboReduction.Word.bitWeights?` — the weights for a range, computed in words.

## Main results

* `QuboReduction.sublist_sum_bitWeights_iff` — the sums of parts of the weights.
* `QuboReduction.Word.exists_bitWeights` — the computation in words is never refused.
* `QuboReduction.Word.bitWeights_reach_range` — what the weights in words are.
-/

namespace QuboReduction

/-! ### The weights as natural numbers -/

/-- There is one weight for each binary digit of the range. -/
theorem length_bitWeights {range : Nat} (h : range ≠ 0) :
    (bitWeights range).length = range.log2 + 1 := by
  simp [bitWeights, h]

theorem one_le_of_mem_bitWeights {range w : Nat} (hw : w ∈ bitWeights range) : 1 ≤ w := by
  rw [bitWeights] at hw
  split at hw
  · contradiction
  · rename_i h
    have hle : 2 ^ range.log2 ≤ range := Nat.log2_self_le h
    have hpos := Nat.two_pow_pos range.log2
    rcases List.mem_append.mp hw with hw | hw
    · obtain ⟨k, -, rfl⟩ := List.mem_map.mp hw
      exact Nat.two_pow_pos k
    · rw [List.mem_singleton.mp hw, Nat.pow_eq]
      omega

/-- The weights whose bits are one are a part of the list of weights. -/
theorem exists_sublist_of_isBits {ws : List Nat} {bs : List Rat} (hlen : bs.length = ws.length)
    (hbs : IsBits bs) : ∃ s : List Nat, s.Sublist ws ∧ (s.sum : Rat) = weigh ws bs := by
  induction ws generalizing bs with
  | nil => exact ⟨[], List.Sublist.slnil, by simp⟩
  | cons w ws ih =>
    obtain ⟨b, bs, rfl⟩ := List.exists_cons_of_length_eq_add_one hlen
    obtain ⟨hb, hbs⟩ := List.forall_mem_cons.mp hbs
    obtain ⟨s, hs, hsum⟩ := ih (by simpa using hlen) hbs
    rcases hb with rfl | rfl
    · exact ⟨s, hs.cons w, by simp [hsum]⟩
    · exact ⟨w :: s, hs.cons_cons w, by simp [hsum]⟩

/-- **The sums of parts of the weights** for a range are the numbers up to the range. -/
theorem sublist_sum_bitWeights_iff {range n : Nat} :
    (∃ s : List Nat, s.Sublist (bitWeights range) ∧ s.sum = n) ↔ n ≤ range := by
  constructor
  · rintro ⟨s, hs, rfl⟩
    calc s.sum ≤ (bitWeights range).sum := hs.sum_le_sum fun _ _ => Nat.zero_le _
      _ = range := sum_bitWeights range
  · intro hn
    obtain ⟨bs, hlen, hbs, hweigh⟩ := reaches_bitWeights range n (by rwa [sum_bitWeights])
    obtain ⟨s, hs, hsum⟩ := exists_sublist_of_isBits hlen hbs
    exact ⟨s, hs, by exact_mod_cast hsum.trans hweigh⟩

/-! ### Words -/

namespace Word

/-- The difference of two words, refused when it is negative. -/
def sub? (a b : UInt64) : Option UInt64 := if b ≤ a then some (a - b) else none

/-- A word shifted to the left, refused when the shift is not below the width of a word. -/
def shiftLeft? (a : UInt64) (k : Nat) : Option UInt64 :=
  if k < 64 then some (a <<< k.toUInt64) else none

/-- The largest exponent of a power of two that is not above a word, refused for zero. -/
def log2? (a : UInt64) : Option Nat := if a = 0 then none else some a.log2.toNat

/-- The weights for a range. -/
def bitWeights? (range : UInt64) : Option (List UInt64) :=
  if range = 0 then some []
  else do
    let power ← log2? range
    let powers ← (List.range power).mapM fun k => shiftLeft? 1 k
    let below ← sub? (← shiftLeft? 1 power) 1
    let last ← sub? range below
    pure (powers ++ [last])

variable {a b range : UInt64} {k : Nat}

theorem exists_sub (h : b ≤ a) : ∃ c, sub? a b = some c ∧ c.toNat = a.toNat - b.toNat :=
  ⟨a - b, if_pos h, UInt64.toNat_sub_of_le _ _ h⟩

/-- A one is shifted to a power of two. -/
theorem exists_shiftLeft (h : k < 64) : ∃ c, shiftLeft? 1 k = some c ∧ c.toNat = 2 ^ k := by
  refine ⟨_, if_pos h, ?_⟩
  have hpow : 2 ^ k < 2 ^ 64 := Nat.pow_lt_pow_right (by decide) h
  have hk : k.toUInt64.toNat = k := UInt64.toNat_ofNat_of_lt' (h.trans (by decide))
  rw [UInt64.toNat_shiftLeft, hk, Nat.mod_eq_of_lt h, UInt64.toNat_one, Nat.shiftLeft_eq, one_mul,
    Nat.mod_eq_of_lt hpow]

/-- Ones are shifted to all powers of two below a limit. -/
theorem exists_powers (h : k ≤ 64) :
    ∃ ws, (List.range k).mapM (fun i => shiftLeft? 1 i) = some ws ∧
      ws.map UInt64.toNat = (List.range k).map (Nat.pow 2) := by
  induction k with
  | zero => exact ⟨[], rfl, rfl⟩
  | succ k ih =>
    obtain ⟨ws, hws, hmap⟩ := ih (by omega)
    obtain ⟨w, hw, hval⟩ := exists_shiftLeft (k := k) (by omega)
    refine ⟨ws ++ [w], ?_, ?_⟩
    · simp [List.range_succ, List.mapM_append, hws, hw]
    · rw [List.range_succ, List.map_append, List.map_append, hmap, List.map_singleton,
        List.map_singleton, hval, Nat.pow_eq]

/-- **No limit is met.** The computation in words gives the weights for every range. -/
theorem exists_bitWeights (range : UInt64) :
    ∃ ws, bitWeights? range = some ws ∧ ws.map UInt64.toNat = bitWeights range.toNat := by
  rw [bitWeights?]
  split
  · rename_i h
    exact ⟨[], rfl, by simp [h, bitWeights]⟩
  · rename_i h
    have hne : range.toNat ≠ 0 := fun hzero => h (UInt64.toNat_inj.mp hzero)
    have hle : 2 ^ range.toNat.log2 ≤ range.toNat := Nat.log2_self_le hne
    have hlt : range.toNat.log2 < 64 := (Nat.log2_lt hne).mpr range.toNat_lt
    have hpos := Nat.two_pow_pos range.toNat.log2
    obtain ⟨powers, hpowers, hmap⟩ := exists_powers hlt.le
    obtain ⟨top, htop, htopval⟩ := exists_shiftLeft hlt
    obtain ⟨below, hbelow, hbelowval⟩ := exists_sub (a := top) (b := 1)
      (by rw [UInt64.le_iff_toNat_le, htopval, UInt64.toNat_one]; omega)
    rw [htopval, UInt64.toNat_one] at hbelowval
    obtain ⟨last, hlast, hlastval⟩ := exists_sub (a := range) (b := below)
      (by rw [UInt64.le_iff_toNat_le, hbelowval]; omega)
    refine ⟨powers ++ [last], ?_, ?_⟩
    · have hlog : log2? range = some range.toNat.log2 := if_neg h
      simp [hlog, hpowers, htop, hbelow, hlast]
    · rw [bitWeights, if_neg hne, List.map_append, hmap, List.map_singleton, hlastval, hbelowval,
        Nat.pow_eq]

/-- **The weights for a range of words.** They are computed without a negative difference and
without a shift by the width of a word or more. There is one for each binary digit of the range,
each is at least one, their total is the range, and the sums of parts of the list are the numbers
from zero to the range. -/
theorem bitWeights_reach_range (range : UInt64) :
    ∃ ws : List UInt64, bitWeights? range = some ws ∧
      ws.map UInt64.toNat = bitWeights range.toNat ∧
      ws.length = (if range = 0 then 0 else Nat.log 2 range.toNat + 1) ∧
      (∀ w ∈ ws, 1 ≤ w.toNat) ∧
      (ws.map UInt64.toNat).sum = range.toNat ∧
      {n | ∃ s : List UInt64, s.Sublist ws ∧ (s.map UInt64.toNat).sum = n} =
        Set.Iic range.toNat := by
  obtain ⟨ws, hws, hmap⟩ := exists_bitWeights range
  refine ⟨ws, hws, hmap, ?_, fun w hw => ?_, ?_, ?_⟩
  · rw [← List.length_map UInt64.toNat, hmap]
    split
    · rename_i h
      simp [h, bitWeights]
    · rename_i h
      have hne : range.toNat ≠ 0 := fun hzero => h (UInt64.toNat_inj.mp hzero)
      rw [length_bitWeights hne, Nat.log2_eq_log_two]
  · exact one_le_of_mem_bitWeights (hmap ▸ List.mem_map_of_mem hw)
  · rw [hmap, sum_bitWeights]
  · ext n
    rw [Set.mem_Iic, Set.mem_ofPred_eq, ← sublist_sum_bitWeights_iff, ← hmap]
    -- a part of the words is a part of their values, and the other way around
    constructor
    · rintro ⟨s, hs, hsum⟩
      exact ⟨s.map UInt64.toNat, hs.map _, hsum⟩
    · rintro ⟨_, hvalues, hsum⟩
      obtain ⟨s, hs, rfl⟩ := List.sublist_map_iff.mp hvalues
      exact ⟨s, hs, hsum⟩

example : (bitWeights? 18446744073709551615).map List.length = some 64 := by decide +kernel

end Word

end QuboReduction

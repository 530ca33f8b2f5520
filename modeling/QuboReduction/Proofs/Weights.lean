import Mathlib.Algebra.Order.Field.Rat
import QuboReduction.Proofs.Assignment
import QuboReduction.Stage.Binarization

/-!
# Sums of weighted bits

The weights for a range reach every integer of the range and no other one. Weights that reach
everything up to their sum keep doing so when one more weight is added that leaves no hole; powers
of two never leave a hole, and the last weight is at most the next power.

## Main definitions

* `QuboReduction.weigh` — the sum of the weights whose bits are one.
* `QuboReduction.Reaches` — weights whose sums are all numbers up to their total.

## Main results

* `QuboReduction.weigh_le` — sums of weights are numbers up to the total.
* `QuboReduction.sum_bitWeights`, `QuboReduction.reaches_bitWeights` — the weights for a range.
-/

namespace QuboReduction

variable {ws : List Nat} {bs : List Rat}

/-- The sum of the weights, each times its bit. -/
def weigh (ws : List Nat) (bs : List Rat) : Rat :=
  (List.zipWith (fun (w : Nat) b => (w : Rat) * b) ws bs).sum

/-- Every number up to the total of the weights is a sum of some of them. -/
def Reaches (ws : List Nat) : Prop :=
  ∀ m ≤ ws.sum, ∃ bs, bs.length = ws.length ∧ IsBits bs ∧ weigh ws bs = m

/-! ### Sums -/

@[simp] theorem weigh_nil : weigh [] bs = 0 := by simp [weigh]

@[simp] theorem weigh_cons (w : Nat) (b : Rat) :
    weigh (w :: ws) (b :: bs) = w * b + weigh ws bs := by
  simp [weigh]

theorem weigh_append_singleton (h : bs.length = ws.length) (w : Nat) (b : Rat) :
    weigh (ws ++ [w]) (bs ++ [b]) = weigh ws bs + w * b := by
  rw [weigh, List.zipWith_append h.symm, List.sum_append]
  simp [weigh]

/-- A sum of some of the weights is a number up to their total. -/
theorem weigh_le (hlen : bs.length = ws.length) (hbs : IsBits bs) :
    ∃ m : Nat, weigh ws bs = m ∧ m ≤ ws.sum := by
  induction ws generalizing bs with
  | nil => exact ⟨0, by simp⟩
  | cons w ws ih =>
    obtain ⟨b, bs, rfl⟩ := List.exists_cons_of_length_eq_add_one hlen
    obtain ⟨hb, hbs⟩ := List.forall_mem_cons.mp hbs
    obtain ⟨m, hm, hle⟩ := ih (by simpa using hlen) hbs
    rw [weigh_cons, hm, List.sum_cons]
    rcases hb with rfl | rfl
    · exact ⟨m, by simp, by omega⟩
    · exact ⟨w + m, by push_cast; ring, by omega⟩

/-! ### Weights without holes -/

theorem reaches_nil : Reaches [] := by
  intro m hm
  exact ⟨[], rfl, by simp [IsBits], by simp [Nat.le_zero.mp hm]⟩

/-- One more weight leaves no hole if it is at most one more than the total. -/
theorem Reaches.append_singleton (h : Reaches ws) {w : Nat} (hw : w ≤ ws.sum + 1) :
    Reaches (ws ++ [w]) := by
  intro m hm
  rw [List.sum_append, List.sum_singleton] at hm
  rcases Nat.lt_or_ge ws.sum m with hlt | hle
  · obtain ⟨bs, hlen, hbs, hsum⟩ := h (m - w) (by omega)
    refine ⟨bs ++ [1], by simp [hlen], List.forall_mem_append.mpr ⟨hbs, by simp⟩, ?_⟩
    rw [weigh_append_singleton hlen, hsum, Nat.cast_sub (by omega)]
    ring
  · obtain ⟨bs, hlen, hbs, hsum⟩ := h m hle
    refine ⟨bs ++ [0], by simp [hlen], List.forall_mem_append.mpr ⟨hbs, by simp⟩, ?_⟩
    rw [weigh_append_singleton hlen, hsum, mul_zero, add_zero]

theorem sum_powers (n : Nat) : ((List.range n).map (Nat.pow 2)).sum = 2 ^ n - 1 := by
  induction n with
  | zero => rfl
  | succ n ih =>
    rw [List.range_succ, List.map_append, List.sum_append, ih, Nat.pow_succ]
    have := Nat.two_pow_pos n
    simp only [List.map_singleton, List.sum_singleton, Nat.pow_eq]
    omega

theorem reaches_powers (n : Nat) : Reaches ((List.range n).map (Nat.pow 2)) := by
  induction n with
  | zero => exact reaches_nil
  | succ n ih =>
    rw [List.range_succ, List.map_append]
    refine ih.append_singleton ?_
    rw [sum_powers, Nat.pow_eq]
    omega

/-! ### The weights for a range -/

/-- The total of the weights for a range is the range. -/
theorem sum_bitWeights (range : Nat) : (bitWeights range).sum = range := by
  rw [bitWeights]
  split
  · simp [*]
  · rename_i h
    have hle : 2 ^ range.log2 ≤ range := Nat.log2_self_le h
    have hpos := Nat.two_pow_pos range.log2
    rw [List.sum_append, sum_powers, List.sum_singleton, Nat.pow_eq]
    omega

/-- **No holes.** The weights for a range reach every number of the range. -/
theorem reaches_bitWeights (range : Nat) : Reaches (bitWeights range) := by
  rw [bitWeights]
  split
  · exact reaches_nil
  · have hlt : range < 2 ^ (range.log2 + 1) := Nat.lt_log2_self
    rw [Nat.pow_succ] at hlt
    refine (reaches_powers _).append_singleton ?_
    rw [sum_powers, Nat.pow_eq]
    omega

end QuboReduction

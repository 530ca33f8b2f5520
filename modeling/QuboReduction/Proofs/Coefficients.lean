import Mathlib.Algebra.BigOperators.Ring.List
import Mathlib.Data.List.Sort
import QuboReduction.Proofs.Polynomial

/-!
# Sums are determined by their values

Collected terms are in ascending order and none is zero, so over the rational numbers two sums are
the same as soon as they have the same coefficients, and they have the same coefficients as soon as
they have the same values. Whatever is collected, cancelled and collected again in whatever order,
equal values mean equal sums.

## Main results

* `QuboReduction.Terms.mem_toList_iff` — the terms of a sum are its coefficients that are not zero.
* `QuboReduction.Terms.value_indicator` — coefficients are values.
* `QuboReduction.Terms.ext_of_value` — a sum is determined by its values.
* `QuboReduction.Terms.toList_scale` — a multiple has the same keys.
* `QuboReduction.Terms.scale_addTerms`, `QuboReduction.Terms.scale_ofList`,
  `QuboReduction.Polynomial.negate_addMultiple` — multiples of collected terms.
-/

namespace QuboReduction

namespace Terms

variable {κ : Type} [Ord κ] {e f : Terms κ Rat} {terms : List (κ × Rat)} {k : κ} {c : Rat}

/-! ### Coefficients -/

section Lists

variable [Std.LawfulEqOrd κ]

private theorem coefficientIn_of_mem (hsorted : terms.Pairwise fun s t => compare s.1 t.1 = .lt)
    (h : (k, c) ∈ terms) : coefficientIn k terms = c := by
  induction terms with
  | nil => simp at h
  | cons t rest ih =>
    obtain ⟨hfirst, hrest⟩ := List.pairwise_cons.mp hsorted
    rw [coefficientIn]
    rcases List.mem_cons.mp h with rfl | hmem
    · simp
    · rw [if_neg, ih hrest hmem]
      intro heq
      have hlt := hfirst _ hmem
      rw [Std.LawfulEqOrd.eq_of_compare heq] at hlt
      simp at hlt

private theorem mem_of_coefficientIn (hc : c ≠ 0) (h : coefficientIn k terms = c) :
    (k, c) ∈ terms := by
  induction terms with
  | nil => exact absurd h.symm hc
  | cons t rest ih =>
    rw [coefficientIn] at h
    split at h
    · rename_i heq
      rw [Std.LawfulEqOrd.eq_of_compare heq, ← h]
      exact List.mem_cons_self
    · exact List.mem_cons_of_mem _ (ih h)

omit [Std.LawfulEqOrd κ] in
/-- No key before the others occurs among them. -/
private theorem sum_indicator_eq_zero (h : ∀ t ∈ terms, compare k t.1 ≠ .eq) :
    (terms.map fun t => t.2 * if compare k t.1 = .eq then 1 else 0).sum = 0 :=
  List.sum_eq_zero fun a ha => by
    obtain ⟨t, ht, rfl⟩ := List.mem_map.mp ha
    rw [if_neg (h t ht), mul_zero]

private theorem sum_indicator (hsorted : terms.Pairwise fun s t => compare s.1 t.1 = .lt) :
    (terms.map fun t => t.2 * if compare k t.1 = .eq then 1 else 0).sum =
      coefficientIn k terms := by
  induction terms with
  | nil => rfl
  | cons t rest ih =>
    obtain ⟨hfirst, hrest⟩ := List.pairwise_cons.mp hsorted
    rw [List.map_cons, List.sum_cons, coefficientIn]
    split
    · rename_i heq
      have hk : k = t.1 := Std.LawfulEqOrd.eq_of_compare heq
      rw [mul_one, sum_indicator_eq_zero, add_zero]
      intro s hs
      rw [hk, hfirst s hs]
      decide
    · rw [mul_zero, zero_add, ih hrest]

end Lists

variable [Std.LawfulEqOrd κ]

/-- The terms of a sum are its coefficients that are not zero. -/
theorem mem_toList_iff : (k, c) ∈ e.toList ↔ c ≠ 0 ∧ e.coefficient k = c := by
  constructor
  · intro h
    exact ⟨by simpa using e.nonzero _ h, coefficientIn_of_mem e.ascending h⟩
  · rintro ⟨hc, h⟩
    exact mem_of_coefficientIn hc h

/-- **Coefficients are values**: the coefficient at a key is the value when its monomial is one and
all others are zero. -/
theorem value_indicator (e : Terms κ Rat) (k : κ) :
    e.value (fun j => if compare k j = .eq then 1 else 0) = e.coefficient k :=
  sum_indicator e.ascending

section Order

variable [Std.TransOrd κ]

theorem ext_of_coefficient (h : ∀ k, e.coefficient k = f.coefficient k) : e = f := by
  have hirrefl : Std.Irrefl fun s t : κ × Rat => compare s.1 t.1 = .lt :=
    ⟨fun t ht => by simp at ht⟩
  have hantisymm : Std.Antisymm fun s t : κ × Rat => compare s.1 t.1 = .lt :=
    ⟨fun s t hst hts => by
      rw [Std.OrientedCmp.gt_iff_lt.mpr hst] at hts
      contradiction⟩
  -- lists in strictly ascending order are equal when they have the same members
  have hlist : e.toList = f.toList := e.ascending.eq_of_mem_iff f.ascending fun t => by
    rw [mem_toList_iff, mem_toList_iff, h]
  cases e
  cases f
  simpa using hlist

/-- **A sum is determined by its values.** -/
theorem ext_of_value (h : ∀ m, e.value m = f.value m) : e = f :=
  ext_of_coefficient fun k => by rw [← value_indicator, h, value_indicator]

end Order

/-! ### Multiples -/

omit [Std.LawfulEqOrd κ] in
/-- A multiple has the same keys, since no coefficient becomes zero. -/
theorem toList_scale {factor : Rat} (h : factor ≠ 0) :
    (e.scale factor).toList = e.toList.map fun t => (t.1, t.2 * factor) := by
  refine List.filter_eq_self.mpr fun t ht => ?_
  obtain ⟨s, hs, rfl⟩ := List.mem_map.mp ht
  have hs : s.2 ≠ 0 := by simpa using e.nonzero s hs
  simpa using ⟨hs, h⟩

omit [Std.LawfulEqOrd κ] in
theorem keys_scale {factor : Rat} (h : factor ≠ 0) : (e.scale factor).keys = e.keys := by
  rw [keys, toList_scale h, List.map_map]
  rfl

variable [Std.TransOrd κ]

theorem scale_addTerms (e : Terms κ Rat) (terms : List (κ × Rat)) (factor : Rat) :
    (e.scale factor).addTerms (terms.map fun t => (t.1, t.2 * factor)) =
      (e.addTerms terms).scale factor :=
  ext_of_value fun m => by
    rw [value_addTerms, value_scale, value_scale, value_addTerms, mul_add, List.map_map,
      ← List.sum_map_mul_left]
    congr 2
    refine List.map_congr_left fun t _ => ?_
    rw [Function.comp_apply]
    ring

theorem scale_ofList (terms : List (κ × Rat)) (factor : Rat) :
    ofList (terms.map fun t => (t.1, t.2 * factor)) = (ofList terms).scale factor :=
  scale_addTerms empty terms factor

end Terms

theorem Quadratic.scale_ofProducts (terms : List (Nat × Nat × Rat)) (factor : Rat) :
    ofProducts (terms.map fun t => (t.1, t.2.1, t.2.2 * factor)) =
      (ofProducts terms).scale factor := by
  rw [ofProducts, ofProducts, ← Terms.scale_ofList, List.map_map, List.map_map]
  rfl

namespace Polynomial

/-- Adding a multiple of a polynomial and negating is negating and subtracting the multiple. -/
theorem negate_addMultiple (f g : Polynomial Rat) (factor : Rat) :
    f.negate.addMultiple (-factor) g = (f.addMultiple factor g).negate := by
  rw [addMultiple, negate, addMultiple, negate, mk.injEq]
  refine ⟨by ring, Terms.ext_of_value fun m => ?_, Terms.ext_of_value fun m => ?_⟩
  · simp only [Terms.value_add, Terms.value_scale]
    ring
  · simp only [Terms.value_add, Terms.value_scale]
    ring

end Polynomial

end QuboReduction

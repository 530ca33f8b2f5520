import QuboReduction.Proofs.Exact
import QuboReduction.Terms

/-!
# Values of sparse sums

When the monomials of a sparse sum are given values, the sum has a value, and collecting terms does
not change it: whatever cancels or is created again on the way, adding a term adds its value. The
keys that occur in a sum come from the terms it was collected from.

## Main definitions

* `QuboReduction.Terms.value` — the value of a sum of terms over the rational numbers.
* `QuboReduction.Terms.Within` — all keys have a property.

## Main results

* `QuboReduction.Terms.value_addTerm`, `QuboReduction.Terms.value_ofList`,
  `QuboReduction.Terms.value_add`, `QuboReduction.Terms.value_scale` — values of collected terms.
* `QuboReduction.Terms.Within.addTerm`, `QuboReduction.Terms.Within.scale` — keys of collected
  terms.
* `QuboReduction.Terms.ofList_toList` — collecting the terms of a sum again.
-/

namespace QuboReduction

namespace Terms

variable {κ : Type} [Ord κ]

/-! ### Keys -/

section Keys

variable {α : Type} [Scalar α] {S T : κ → Prop} {e f : Terms κ α}

/-- Every key of a sum has a property. -/
def Within (e : Terms κ α) (S : κ → Prop) : Prop := ∀ t ∈ e.toList, S t.1

theorem Within.mono (he : e.Within S) (h : ∀ k, S k → T k) : e.Within T :=
  fun t ht => h _ (he t ht)

@[simp] theorem within_empty : (empty : Terms κ α).Within S := by simp [Within, empty]

theorem within_iff_keys : e.Within S ↔ ∀ k ∈ e.keys, S k := by
  simp only [Within, keys, List.mem_map]
  constructor
  · rintro h _ ⟨t, ht, rfl⟩
    exact h t ht
  · exact fun h t ht => h _ ⟨t, ht, rfl⟩

theorem Within.scale (he : e.Within S) (factor : α) : (e.scale factor).Within S := by
  intro t ht
  obtain ⟨s, hs, rfl⟩ := List.mem_map.mp (List.mem_filter.mp ht).1
  exact he s hs

variable [Std.TransOrd κ]

theorem Within.addTerm (he : e.Within S) {key : κ} (hk : S key) (coef : α) :
    (e.addTerm key coef).Within S := by
  intro t ht
  rcases (mem_insertTerm ht).1 with h | ⟨s, hs, h⟩
  · rwa [h]
  · rw [← h]
    exact he s hs

theorem Within.addTerms (he : e.Within S) {terms : List (κ × α)} (h : ∀ t ∈ terms, S t.1) :
    (e.addTerms terms).Within S := by
  induction terms generalizing e with
  | nil => exact he
  | cons t terms ih =>
    exact ih (he.addTerm (h t List.mem_cons_self) t.2) fun s hs => h s (List.mem_cons_of_mem _ hs)

theorem Within.ofList {terms : List (κ × α)} (h : ∀ t ∈ terms, S t.1) :
    (Terms.ofList terms).Within S :=
  within_empty.addTerms h

theorem Within.add (he : e.Within S) (hf : f.Within S) : (e.add f).Within S := he.addTerms hf

end Keys

/-! ### Collecting collected terms -/

section Again

variable {α : Type} [Scalar α] {terms : List (κ × α)}

theorem ext_toList {e f : Terms κ α} (h : e.toList = f.toList) : e = f := by
  cases e
  cases f
  simpa using h

variable [Std.TransOrd κ]

/-- A term whose key comes after all others is added at the end. -/
theorem insertTerm_of_last {key : κ} {coef : α} (hcoef : (coef == 0) = false)
    (h : ∀ t ∈ terms, compare t.1 key = .lt) :
    insertTerm key coef terms = terms ++ [(key, coef)] := by
  induction terms with
  | nil => simp [insertTerm, consNonzero, hcoef]
  | cons t terms ih =>
    obtain ⟨hfirst, hrest⟩ := List.forall_mem_cons.mp h
    have hkey : compare key t.1 = .gt := Std.OrientedCmp.gt_iff_lt.mpr hfirst
    rw [insertTerm, hkey]
    simp only [ih hrest, List.cons_append]

private theorem toList_addTerms_of_ascending {e : Terms κ α}
    (hsorted : (e.toList ++ terms).Pairwise fun s t => compare s.1 t.1 = .lt)
    (hcoef : ∀ t ∈ terms, (t.2 == 0) = false) :
    (e.addTerms terms).toList = e.toList ++ terms := by
  induction terms generalizing e with
  | nil => simp [addTerms]
  | cons t terms ih =>
    obtain ⟨hfirst, hrest⟩ := List.forall_mem_cons.mp hcoef
    have hstep : (e.addTerm t.1 t.2).toList = e.toList ++ [t] :=
      insertTerm_of_last hfirst fun s hs =>
        (List.pairwise_append.mp hsorted).2.2 s hs t List.mem_cons_self
    have hsplit : e.toList ++ t :: terms = (e.addTerm t.1 t.2).toList ++ terms := by simp [hstep]
    rw [hsplit]
    exact ih (hsplit ▸ hsorted) hrest

/-- Collecting the terms of a sum gives the sum again. -/
theorem ofList_toList (e : Terms κ α) : ofList e.toList = e :=
  ext_toList (toList_addTerms_of_ascending (e := empty) e.ascending e.nonzero)

end Again

/-! ### Values -/

variable {e f : Terms κ Rat} {m m' : κ → Rat}

/-- The value of a sum when each monomial has a value. -/
def value (e : Terms κ Rat) (m : κ → Rat) : Rat := (e.toList.map fun t => t.2 * m t.1).sum

theorem total_eq_value (e : Terms κ Rat) (m : κ → Rat) :
    (e.total fun k c => c * m k) = e.value m := by
  simp [total, value]

@[simp] theorem value_empty : (empty : Terms κ Rat).value m = 0 := rfl

/-- A sum whose coefficients are multiples of a divisor is a multiple of it when its monomials have
integer values. -/
theorem isInteger_value_div {d : Rat} (hc : ∀ t ∈ e.toList, IsInteger (t.2 / d))
    (hm : ∀ t ∈ e.toList, IsInteger (m t.1)) : IsInteger (e.value m / d) := by
  have hsum : e.value m / d = (e.toList.map fun t => t.2 / d * m t.1).sum := by
    rw [value]
    induction e.toList with
    | nil => simp
    | cons t rest ih =>
      rw [List.map_cons, List.sum_cons, add_div, ih, List.map_cons, List.sum_cons]
      ring
  rw [hsum]
  refine IsInteger.sum fun a ha => ?_
  obtain ⟨t, ht, rfl⟩ := List.mem_map.mp ha
  exact (hc t ht).mul (hm t ht)

/-- A sum whose monomials have integer values has an integer value if its coefficients are
integers. -/
theorem isInteger_value (hc : ∀ t ∈ e.toList, IsInteger t.2)
    (hm : ∀ t ∈ e.toList, IsInteger (m t.1)) : IsInteger (e.value m) := by
  rw [← div_one (e.value m)]
  exact isInteger_value_div (fun t ht => by rw [div_one]; exact hc t ht) hm

@[simp] theorem value_scale (e : Terms κ Rat) (factor : Rat) :
    (e.scale factor).value m = factor * e.value m := by
  simp only [value, scale]
  induction e.toList with
  | nil => simp
  | cons t rest ih =>
    simp only [List.map_cons, List.filter_cons, List.sum_cons]
    split
    · rw [List.map_cons, List.sum_cons, ih]
      ring
    · rename_i h
      have hz : t.2 * factor = 0 := by
        simpa only [Bool.not_eq_true, Bool.not_eq_false', beq_iff_eq] using h
      rw [ih, mul_add, ← mul_assoc, mul_comm factor t.2, hz]
      ring

omit [Ord κ] in
private theorem sum_consNonzero (key : κ) (coef : Rat) (terms : List (κ × Rat)) :
    ((consNonzero key coef terms).map fun t => t.2 * m t.1).sum =
      coef * m key + (terms.map fun t => t.2 * m t.1).sum := by
  rw [consNonzero]
  split
  · rename_i h
    have hz : coef = 0 := by simpa using h
    simp [hz]
  · simp

private theorem sum_insertTerm [Std.LawfulEqOrd κ] (key : κ) (coef : Rat)
    (terms : List (κ × Rat)) :
    ((insertTerm key coef terms).map fun t => t.2 * m t.1).sum =
      coef * m key + (terms.map fun t => t.2 * m t.1).sum := by
  induction terms with
  | nil => exact sum_consNonzero key coef []
  | cons t rest ih =>
    obtain ⟨k, c⟩ := t
    rw [insertTerm]
    split
    · exact sum_consNonzero key coef _
    · rename_i h
      have hk : key = k := Std.LawfulEqOrd.eq_of_compare h
      rw [sum_consNonzero, List.map_cons, List.sum_cons, hk]
      ring
    · rw [List.map_cons, List.sum_cons, ih, List.map_cons, List.sum_cons]
      ring

variable [Std.TransOrd κ] [Std.LawfulEqOrd κ]

@[simp] theorem value_addTerm (e : Terms κ Rat) (key : κ) (coef : Rat) :
    (e.addTerm key coef).value m = e.value m + coef * m key := by
  rw [value, addTerm, sum_insertTerm, add_comm]
  rfl

@[simp] theorem value_addTerms (e : Terms κ Rat) (terms : List (κ × Rat)) :
    (e.addTerms terms).value m = e.value m + (terms.map fun t => t.2 * m t.1).sum := by
  induction terms generalizing e with
  | nil => simp [addTerms]
  | cons t terms ih =>
    change ((e.addTerm t.1 t.2).addTerms terms).value m = _
    rw [ih, value_addTerm, List.map_cons, List.sum_cons]
    ring

/-- Collecting a list of terms, in which keys may repeat and cancel, keeps its sum. -/
@[simp] theorem value_ofList (terms : List (κ × Rat)) :
    (ofList terms).value m = (terms.map fun t => t.2 * m t.1).sum := by
  rw [ofList, value_addTerms, value_empty, zero_add]

@[simp] theorem value_add (e f : Terms κ Rat) : (e.add f).value m = e.value m + f.value m :=
  value_addTerms e f.toList

end Terms

end QuboReduction

import QuboReduction.Proofs.Coefficients

/-!
# Collecting terms

A list of terms is collected one term after another: a coefficient may reach zero, vanish and be
created again. The sum that results depends only on what the terms add up to at each key, and so
not on their order or on how they are split into parts. In fact two lists have the same sum exactly
when one can be regrouped into the other. Sums and multiples of sums act on coefficients, and so on
values.

## Main definitions

* `QuboReduction.Terms.collected` — what the terms of a list add up to at a key.
* `QuboReduction.Terms.Regrouped` — lists that differ in the order and the splitting of terms.
* `QuboReduction.Terms.Collects` — what collecting terms of some kind does.

## Main results

* `QuboReduction.Terms.coefficient_ofList` — the coefficients of a collected list.
* `QuboReduction.Terms.ofList_eq_iff_regrouped` — lists with the same sum.
* `QuboReduction.Terms.equal_iff_coefficient` — sums with the same coefficients.
* `QuboReduction.Terms.linear_and_quadratic_collect` — linear and quadratic expressions.
-/

namespace QuboReduction

namespace Terms

variable {κ : Type}

/-! ### Regrouping -/

/-- Lists of terms that differ in the order of the terms and in how they are split into parts; a
term without a coefficient may come and go. -/
inductive Regrouped : List (κ × Rat) → List (κ × Rat) → Prop
  /-- The terms are put in another order. -/
  | perm {s t : List (κ × Rat)} (h : s.Perm t) : Regrouped s t
  /-- A term is split into two parts. -/
  | split (key : κ) (a b : Rat) (rest : List (κ × Rat)) :
    Regrouped ((key, a + b) :: rest) ((key, a) :: (key, b) :: rest)
  /-- A term without a coefficient is left out. -/
  | drop (key : κ) (rest : List (κ × Rat)) : Regrouped ((key, 0) :: rest) rest
  /-- What is split may be merged. -/
  | symm {s t : List (κ × Rat)} (h : Regrouped s t) : Regrouped t s
  /-- One regrouping after another. -/
  | trans {s t u : List (κ × Rat)} (hst : Regrouped s t) (htu : Regrouped t u) : Regrouped s u

namespace Regrouped

variable {s t : List (κ × Rat)}

theorem refl (s : List (κ × Rat)) : Regrouped s s := perm (.refl s)

theorem cons (u : κ × Rat) (h : Regrouped s t) : Regrouped (u :: s) (u :: t) := by
  induction h with
  | perm h => exact perm (h.cons u)
  | split key a b rest =>
    have hbefore : (u :: (key, a + b) :: rest).Perm ((key, a + b) :: u :: rest) := .swap _ _ _
    have hafter : ([(key, a), (key, b)] ++ u :: rest).Perm (u :: [(key, a), (key, b)] ++ rest) :=
      List.perm_middle
    exact (perm hbefore).trans ((split key a b (u :: rest)).trans (perm hafter))
  | drop key rest => exact (perm (.swap _ _ _)).trans (drop key (u :: rest))
  | symm _ ih => exact ih.symm
  | trans _ _ ihst ihtu => exact ihst.trans ihtu

theorem append_left (u : List (κ × Rat)) (h : Regrouped s t) : Regrouped (u ++ s) (u ++ t) := by
  induction u with
  | nil => exact h
  | cons v u ih => exact ih.cons v

/-- What is regrouped has the same value, whatever the values of the monomials are. -/
theorem sum_eq (h : Regrouped s t) (m : κ → Rat) :
    (s.map fun u => u.2 * m u.1).sum = (t.map fun u => u.2 * m u.1).sum := by
  induction h with
  | perm h => exact (h.map _).sum_eq
  | split key a b rest =>
    simp only [List.map_cons, List.sum_cons]
    ring
  | drop key rest => simp
  | symm _ ih => exact ih.symm
  | trans _ _ ihst ihtu => exact ihst.trans ihtu

end Regrouped

variable [Ord κ]

omit [Ord κ] in
private theorem regrouped_consNonzero (key : κ) (coef : Rat) (terms : List (κ × Rat)) :
    Regrouped ((key, coef) :: terms) (consNonzero key coef terms) := by
  rw [consNonzero]
  split
  · rename_i h
    obtain rfl : coef = 0 := by simpa using h
    exact .drop key terms
  · exact .refl _

/-- Adding a term to a sum merges it with the term that is there. -/
theorem regrouped_insertTerm [Std.LawfulEqOrd κ] (key : κ) (coef : Rat)
    (terms : List (κ × Rat)) : Regrouped ((key, coef) :: terms) (insertTerm key coef terms) := by
  induction terms with
  | nil => exact regrouped_consNonzero key coef []
  | cons t rest ih =>
    obtain ⟨k, c⟩ := t
    rw [insertTerm]
    split
    · exact regrouped_consNonzero key coef _
    · rename_i h
      obtain rfl : key = k := Std.LawfulEqOrd.eq_of_compare h
      have hmerge := (Regrouped.split key c coef rest).symm
      exact ((Regrouped.perm (.swap _ _ _)).trans hmerge).trans (regrouped_consNonzero _ _ _)
    · exact (Regrouped.perm (.swap _ _ _)).trans (ih.cons (k, c))

variable [Std.TransOrd κ] [Std.LawfulEqOrd κ]

/-- Collecting terms regroups them, together with the terms that are there. -/
theorem regrouped_addTerms (e : Terms κ Rat) (terms : List (κ × Rat)) :
    Regrouped (terms ++ e.toList) (e.addTerms terms).toList := by
  induction terms generalizing e with
  | nil => exact .refl _
  | cons t terms ih =>
    have hfirst : Regrouped (t :: (terms ++ e.toList)) (terms ++ t :: e.toList) :=
      .perm List.perm_middle.symm
    exact hfirst.trans
      (((regrouped_insertTerm t.1 t.2 e.toList).append_left terms).trans (ih (e.addTerm t.1 t.2)))

theorem regrouped_ofList (terms : List (κ × Rat)) : Regrouped terms (ofList terms).toList := by
  have h := regrouped_addTerms empty terms
  rwa [show (empty : Terms κ Rat).toList = [] from rfl, List.append_nil] at h

/-- **Lists with the same sum** are the regroupings of one another. -/
theorem ofList_eq_iff_regrouped {s t : List (κ × Rat)} : ofList s = ofList t ↔ Regrouped s t := by
  constructor
  · intro h
    exact (regrouped_ofList s).trans (h ▸ (regrouped_ofList t).symm)
  · intro h
    exact ext_of_value fun m => by rw [value_ofList, value_ofList, h.sum_eq m]

/-! ### Coefficients of collected terms -/

section Collected

variable [DecidableEq κ]

/-- What the terms of a list add up to at a key. -/
def collected (key : κ) (terms : List (κ × Rat)) : Rat :=
  ((terms.filter fun t => t.1 = key).map fun t => t.2).sum

/-- **The coefficient at a key** is the sum of the terms of this key. -/
theorem coefficient_ofList (terms : List (κ × Rat)) (key : κ) :
    (ofList terms).coefficient key = collected key terms := by
  rw [← value_indicator, value_ofList, collected]
  induction terms with
  | nil => rfl
  | cons t terms ih =>
    rw [List.map_cons, List.sum_cons, ih, List.filter_cons]
    by_cases h : t.1 = key
    · simp [h]
    · have hcompare : compare key t.1 ≠ .eq := fun heq =>
        h (Std.LawfulEqOrd.eq_of_compare heq).symm
      simp [h, hcompare]

end Collected

theorem coefficient_add (e f : Terms κ Rat) (key : κ) :
    (e.add f).coefficient key = e.coefficient key + f.coefficient key := by
  rw [← value_indicator, value_add, value_indicator, value_indicator]

omit [Std.TransOrd κ] in
theorem coefficient_scale (e : Terms κ Rat) (factor : Rat) (key : κ) :
    (e.scale factor).coefficient key = factor * e.coefficient key := by
  rw [← value_indicator, value_scale, value_indicator]

/-! ### Equal sums -/

theorem eq_iff_coefficient {e f : Terms κ Rat} :
    e = f ↔ ∀ key, e.coefficient key = f.coefficient key :=
  ⟨fun h _ => h ▸ rfl, ext_of_coefficient⟩

omit [Std.TransOrd κ] in
private theorem all_zip_iff {s t : List (κ × Rat)} :
    s.length = t.length ∧
      ((s.zip t).all fun p => compare p.1.1 p.2.1 == .eq && p.1.2 == p.2.2) = true ↔ s = t := by
  induction s generalizing t with
  | nil => cases t <;> simp
  | cons u s ih =>
    cases t with
    | nil => simp
    | cons v t =>
      rw [List.cons.injEq, ← ih, Prod.ext_iff]
      simp only [List.length_cons, Nat.add_right_cancel_iff, List.zip_cons_cons, List.all_cons,
        Bool.and_eq_true, beq_iff_eq, Std.LawfulEqOrd.compare_eq_iff_eq]
      tauto

/-- **Sums are compared** term by term, and found equal when all coefficients agree. -/
theorem equal_iff_coefficient {e f : Terms κ Rat} :
    e.equal f = true ↔ ∀ key, e.coefficient key = f.coefficient key := by
  rw [← eq_iff_coefficient, equal, Bool.and_eq_true, beq_iff_eq, size, size, all_zip_iff]
  exact ⟨ext_toList, fun h => h ▸ rfl⟩

/-! ### Expressions -/

/-- What collecting terms into sums does, for terms of some kind that each have a key and a
coefficient, and sums that have a value under an assignment. -/
structure Collects {τ : Type} [DecidableEq κ] (term : τ → κ × Rat) (build : List τ → Terms κ Rat)
    (evaluate : Terms κ Rat → (Nat → Rat) → Rat) : Prop where
  /-- The coefficient at a key is the sum of the terms of this key. -/
  coefficient_build : ∀ l key, (build l).coefficient key = collected key (l.map term)
  /-- No coefficient that is stored is zero. -/
  nonzero : ∀ l, ∀ t ∈ (build l).toList, t.2 ≠ 0
  /-- Terms may be reordered, split and merged without a change, and nothing else may be done. -/
  build_eq_iff : ∀ s t, build s = build t ↔ Regrouped (s.map term) (t.map term)
  /-- Two sums are found equal exactly when all their coefficients agree. -/
  equal_iff : ∀ e f : Terms κ Rat,
    e.equal f = true ↔ ∀ key, e.coefficient key = f.coefficient key
  /-- Two sums that are found equal are one sum. -/
  eq_iff : ∀ e f : Terms κ Rat, e = f ↔ e.equal f = true
  /-- Coefficients are added. -/
  coefficient_add : ∀ (e f : Terms κ Rat) key,
    (e.add f).coefficient key = e.coefficient key + f.coefficient key
  /-- Coefficients are multiplied. -/
  coefficient_scale : ∀ (e : Terms κ Rat) factor key,
    (e.scale factor).coefficient key = factor * e.coefficient key
  /-- Values are added, at every vector. -/
  evaluate_add : ∀ (e f : Terms κ Rat) (values : List Rat),
    evaluate (e.add f) (valueAt values) =
      evaluate e (valueAt values) + evaluate f (valueAt values)
  /-- Values are multiplied, at every vector. -/
  evaluate_scale : ∀ (e : Terms κ Rat) factor (values : List Rat),
    evaluate (e.scale factor) (valueAt values) = factor * evaluate e (valueAt values)

/-- Terms of any kind are collected so if they are collected by their keys and sums are evaluated by
the values of the monomials. -/
theorem collects {τ : Type} [DecidableEq κ] (term : τ → κ × Rat)
    {evaluate : Terms κ Rat → (Nat → Rat) → Rat} {monomial : (Nat → Rat) → κ → Rat}
    (hevaluate : ∀ e x, evaluate e x = e.value (monomial x)) :
    Collects term (fun l => ofList (l.map term)) evaluate where
  coefficient_build l key := coefficient_ofList (l.map term) key
  nonzero l t ht := by simpa using (ofList (l.map term)).nonzero t ht
  build_eq_iff _ _ := ofList_eq_iff_regrouped
  equal_iff _ _ := equal_iff_coefficient
  eq_iff _ _ := eq_iff_coefficient.trans equal_iff_coefficient.symm
  coefficient_add := coefficient_add
  coefficient_scale := coefficient_scale
  evaluate_add e f values := by rw [hevaluate, hevaluate, hevaluate, value_add]
  evaluate_scale e factor values := by rw [hevaluate, hevaluate, value_scale]

/-- **Linear and quadratic expressions** collect terms so, a pair of indices and the reversed pair
being one key, and no other pairs. -/
theorem linear_and_quadratic_collect :
    Collects (fun t : Nat × Rat => t) ofList Linear.evaluate ∧
      Collects (fun t : Nat × Nat × Rat => (Pair.of t.1 t.2.1, t.2.2)) Quadratic.ofProducts
        Quadratic.evaluate ∧
      ∀ i j k l, Pair.of i j = Pair.of k l ↔ i = k ∧ j = l ∨ i = l ∧ j = k := by
  refine ⟨?_, ?_, fun i j k l => ?_⟩
  · have hlinear := collects (fun t : Nat × Rat => t) fun e x => Linear.evaluate_eq (x := x) e
    simpa using hlinear
  · exact collects _ fun e x => Quadratic.evaluate_eq (x := x) e
  · rw [Pair.of, Pair.of, Pair.mk.injEq]
    omega

end Terms

end QuboReduction

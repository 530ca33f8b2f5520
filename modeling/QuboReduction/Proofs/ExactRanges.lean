import Mathlib
import QuboReduction.PenaltyFactor
import QuboReduction.Proofs.ExactDoubles
import QuboReduction.Proofs.Gap
import QuboReduction.Proofs.Normalization

/-!
# Ranges that are computed exactly

The numbers that the doubles of a problem stand for make a problem over the rational numbers, which
has ranges of its own. The range of a left-hand side that is computed in double precision is this
one as soon as the magnitudes of all terms together stay within `2 ^ 53`: then the bounds of the
variables, the products with the coefficients and the running sums are integers within the limit,
and none of them is rounded.

## Main definitions

* `QuboReduction.Problem.toRat` — the problem over the numbers that doubles stand for.
* `QuboReduction.Problem.reach` — the magnitudes of all terms of a left-hand side together.
* `QuboReduction.Interval.ExactWithin` — an interval of doubles that stands for one of integers.

## Main results

* `QuboReduction.Constraint.divisor_toRat` — the common divisor of the coefficients.
* `QuboReduction.Problem.rangeOf_exactWithin` — the range of a left-hand side.
-/

namespace QuboReduction

open Binary64 (ExactWithin IsExactInteger value)

/-! ### The numbers that doubles stand for -/

/-- The sum of the terms with the numbers that their coefficients stand for. -/
def Terms.toRat {κ : Type} [Ord κ] [Std.TransOrd κ] (e : Terms κ Float) : Terms κ Rat :=
  .ofList (e.toList.map fun t => (t.1, Binary64.value t.2))

/-- The polynomial with the numbers that its coefficients stand for. -/
def Polynomial.toRat (f : Polynomial Float) : Polynomial Rat :=
  ⟨value f.constant, f.linear.toRat, f.quadratic.toRat⟩

/-- The constraint with the numbers that its coefficients and its right-hand side stand for. -/
def Constraint.toRat (c : Constraint Float) : Constraint Rat :=
  ⟨c.name, c.linear.toRat, c.quadratic.toRat, c.relation, value c.rhs⟩

/-- The problem with the numbers that its coefficients and right-hand sides stand for. -/
def Problem.toRat (p : Problem Float) : Problem Rat :=
  ⟨p.name, p.vars, ⟨p.objective.sense, p.objective.polynomial.toRat⟩,
    p.constraints.map Constraint.toRat⟩

/-- No term goes away, since a finite coefficient that is not zero stands for a number that is
not. -/
theorem Terms.toList_toRat {κ : Type} [Ord κ] [Std.TransOrd κ] {e : Terms κ Float}
    (he : ∀ a ∈ e.coefficients, a.isFinite = true) :
    e.toRat.toList = e.toList.map fun t => (t.1, Binary64.value t.2) := by
  let terms : Terms κ Rat :=
    { toList := e.toList.map fun t => (t.1, Binary64.value t.2)
      ascending := List.pairwise_map.mpr e.ascending
      nonzero := fun t ht => by
        obtain ⟨u, hu, rfl⟩ := List.mem_map.mp ht
        simpa using Binary64.value_ne_zero_of_beq (he u.2 (List.mem_map_of_mem hu))
          (e.nonzero u hu) }
  exact congrArg Terms.toList (ofList_toList terms)

theorem Terms.Within.toRat {κ : Type} [Ord κ] [Std.TransOrd κ] {e : Terms κ Float}
    {S : κ → Prop} (h : e.Within S) : e.toRat.Within S :=
  .ofList fun t ht => by
    obtain ⟨u, hu, rfl⟩ := List.mem_map.mp ht
    exact h u hu

/-- An accepted coefficient stands for an integer that is not zero. -/
theorem Terms.exactWithin_of_mem {κ : Type} [Ord κ] {e : Terms κ Float} {t : κ × Float}
    (he : ∀ a ∈ e.coefficients, IsExactInteger a) (ht : t ∈ e.toList) :
    ExactWithin |Binary64.value t.2| (Binary64.value t.2) t.2 ∧ 1 ≤ |Binary64.value t.2| := by
  have hexact := he t.2 (List.mem_map_of_mem ht)
  have hne := Binary64.value_ne_zero_of_beq hexact.isFinite (e.nonzero t ht)
  refine ⟨⟨⟨hexact.isFinite, rfl⟩, hexact.isInteger, le_rfl⟩, IsInteger.one_le ?_ (abs_pos.mpr hne)⟩
  obtain ⟨n, hn⟩ := hexact.isInteger
  exact ⟨|n|, by rw [hn, Int.cast_abs]⟩

/-- The names, bounds and indices stay as they are. -/
theorem Problem.WellFormed.toRat {p : Problem Float} (hp : p.WellFormed) : p.toRat.WellFormed where
  index_eq := hp.index_eq
  variableNames_nodup := hp.variableNames_nodup
  lower_le_upper := hp.lower_le_upper
  objective_below := ⟨hp.objective_below.1.toRat, hp.objective_below.2.toRat⟩
  constraint_below := List.forall_mem_map.mpr fun c hc =>
    ⟨(hp.constraint_below c hc).1.toRat, (hp.constraint_below c hc).2.toRat⟩
  constraint_named := List.forall_mem_map.mpr hp.constraint_named
  constraintNames_nodup := by
    have hnames : (p.constraints.map Constraint.toRat).map Constraint.name =
        p.constraints.map Constraint.name := List.map_map
    exact hnames ▸ hp.constraintNames_nodup

namespace Constraint

variable {c : Constraint Float}

theorem coefficients_toRat (hc : ∀ a ∈ c.coefficients, a.isFinite = true) :
    c.toRat.coefficients = c.coefficients.map value := by
  obtain ⟨hlinear, hquadratic⟩ := List.forall_mem_append.mp hc
  rw [coefficients, coefficients, List.map_append, Terms.coefficients, Terms.coefficients,
    Terms.coefficients, Terms.coefficients, toRat, Terms.toList_toRat hlinear,
    Terms.toList_toRat hquadratic]
  simp [Function.comp_def]

theorem isLinear_toRat (hc : c.isLinear = true) : c.toRat.isLinear = true := by
  simp [isLinear, toRat, Terms.toRat, toList_quadratic hc, Terms.ofList, Terms.addTerms,
    Terms.empty, Terms.isEmpty]

/-- Accepted coefficients stand for integers. -/
theorem isRegular_toRat (hc : ∀ a ∈ c.coefficients, IsExactInteger a) : c.toRat.IsRegular := by
  rw [IsRegular, coefficients_toRat fun a ha => (hc a ha).isFinite]
  exact List.forall_mem_map.mpr fun a ha => (hc a ha).isInteger

/-- **The common divisor** is that of the integers that the coefficients stand for. -/
theorem divisor_toRat (hc : ∀ a ∈ c.coefficients, IsExactInteger a) :
    c.toRat.divisor = c.divisor := by
  rw [divisor, divisor, coefficients_toRat fun a ha => (hc a ha).isFinite, List.foldl_map]
  congr 1
  refine List.foldl_ext _ _ _ fun g a ha => ?_
  rw [(hc a ha).value_eq, truncate_abs_intCast, (hc a ha).truncate_abs]

end Constraint

namespace Problem

variable {p : Problem Rat} {c : Constraint Rat}

/-- The largest magnitude of a variable, and at least one. -/
def span (p : Problem Rat) (i : Nat) : Rat := max 1 (p.magnitudeAt i)

/-- The largest magnitude of a term of degree one. -/
def termReach (p : Problem Rat) (t : Nat × Rat) : Rat := |t.2| * p.span t.1

/-- The largest magnitude of a term of degree two. -/
def pairReach (p : Problem Rat) (t : Pair × Rat) : Rat :=
  |t.2| * (p.span t.1.low * p.span t.1.high)

/-- The magnitudes of all terms of a left-hand side together. -/
def reach (p : Problem Rat) (c : Constraint Rat) : Rat :=
  (c.linear.toList.map p.termReach).sum + (c.quadratic.toList.map p.pairReach).sum

theorem one_le_span (p : Problem Rat) (i : Nat) : 1 ≤ p.span i := le_max_left _ _

theorem termReach_nonneg (p : Problem Rat) (t : Nat × Rat) : 0 ≤ p.termReach t :=
  mul_nonneg (abs_nonneg _) (zero_le_one.trans (p.one_le_span t.1))

theorem pairReach_nonneg (p : Problem Rat) (t : Pair × Rat) : 0 ≤ p.pairReach t :=
  mul_nonneg (abs_nonneg _) (mul_nonneg (zero_le_one.trans (p.one_le_span t.1.low))
    (zero_le_one.trans (p.one_le_span t.1.high)))

/-- No term has a larger magnitude than all of them together. -/
theorem le_reach (p : Problem Rat) (c : Constraint Rat) :
    (∀ t ∈ c.linear.toList, p.termReach t ≤ p.reach c) ∧
      ∀ t ∈ c.quadratic.toList, p.pairReach t ≤ p.reach c := by
  have hlinear : ∀ a ∈ c.linear.toList.map p.termReach, 0 ≤ a :=
    List.forall_mem_map.mpr fun t _ => p.termReach_nonneg t
  have hquadratic : ∀ a ∈ c.quadratic.toList.map p.pairReach, 0 ≤ a :=
    List.forall_mem_map.mpr fun t _ => p.pairReach_nonneg t
  have hsumLinear := List.sum_nonneg hlinear
  have hsumQuadratic := List.sum_nonneg hquadratic
  rw [reach]
  refine ⟨fun t ht => ?_, fun t ht => ?_⟩
  · linarith [List.single_le_sum hlinear _ (List.mem_map_of_mem ht)]
  · linarith [List.single_le_sum hquadratic _ (List.mem_map_of_mem ht)]

end Problem

/-! ### Intervals -/

/-- An interval of doubles that stands for one of integers of magnitude at most `b`. -/
structure Interval.ExactWithin (b : Rat) (i : Interval Float) (j : Interval Rat) : Prop where
  /-- The lower end. -/
  lower : Binary64.ExactWithin b j.lower i.lower
  /-- The upper end. -/
  upper : Binary64.ExactWithin b j.upper i.upper

namespace Interval.ExactWithin

variable {b b' a a' : Rat} {x x' : Float} {i i' : Interval Float} {j j' : Interval Rat}

theorem nonneg (h : i.ExactWithin b j) : 0 ≤ b := h.lower.nonneg

theorem add (h : i.ExactWithin b j) (h' : i'.ExactWithin b' j') (hle : b + b' ≤ 2 ^ 53) :
    (i.add i').ExactWithin (b + b') (j.add j') :=
  ⟨h.lower.add h'.lower hle, h.upper.add h'.upper hle⟩

theorem hull (hx : Binary64.ExactWithin b a x) (hx' : Binary64.ExactWithin b a' x') :
    (Interval.hull x x').ExactWithin b (Interval.hull a a') := by
  rw [hull_eq]
  exact ⟨hx.least hx', hx.greatest hx'⟩

theorem union (h : i.ExactWithin b j) (h' : i'.ExactWithin b j') :
    (i.union i').ExactWithin b (j.union j') := by
  simp only [Interval.union, Scalar.least_rat, Scalar.greatest_rat]
  exact ⟨h.lower.least h'.lower, h.upper.greatest h'.upper⟩

theorem scale (hx : Binary64.ExactWithin b a x) (h : i.ExactWithin b' j) (hle : b * b' ≤ 2 ^ 53) :
    (i.scale x).ExactWithin (b * b') (j.scale a) :=
  hull (hx.mul h.lower hle) (hx.mul h.upper hle)

theorem scaleProduct {b'' : Rat} (hx : Binary64.ExactWithin b a x) (h : i.ExactWithin b' j)
    (h' : i'.ExactWithin b'' j') (hone : 1 ≤ b) (hle : b * (b' * b'') ≤ 2 ^ 53) :
    (i.scaleProduct x i').ExactWithin (b * (b' * b'')) (j.scaleProduct a j') := by
  have hproduct : b' * b'' ≤ 2 ^ 53 :=
    (le_mul_of_one_le_left (mul_nonneg h.nonneg h'.nonneg) hone).trans hle
  exact union
    (hull (hx.mul (h.lower.mul h'.lower hproduct) hle) (hx.mul (h.lower.mul h'.upper hproduct) hle))
    (hull (hx.mul (h.upper.mul h'.lower hproduct) hle) (hx.mul (h.upper.mul h'.upper hproduct) hle))

theorem square (h : i.ExactWithin b j) (hle : b * b ≤ 2 ^ 53) :
    i.square.ExactWithin (b * b) j.square := by
  have hends := hull (h.lower.mul h.lower hle) (h.upper.mul h.upper hle)
  have hspans : i.lower ≤ 0 ∧ 0 ≤ i.upper ↔ j.lower ≤ 0 ∧ 0 ≤ j.upper := by
    have hzero := Binary64.ExactWithin.zero
    rw [Binary64.le_iff_value_le h.lower.isFinite hzero.isFinite,
      Binary64.le_iff_value_le hzero.isFinite h.upper.isFinite, h.lower.value_eq,
      h.upper.value_eq, hzero.value_eq]
  refine ⟨?_, hends.upper⟩
  by_cases h : j.lower ≤ 0 ∧ 0 ≤ j.upper
  · have hx : i.square.lower = 0 := if_pos (hspans.mpr h)
    have ha : j.square.lower = 0 := if_pos h
    rw [hx, ha]
    exact ⟨Binary64.exactly_zero, .zero, by simpa using hends.nonneg⟩
  · have hx : i.square.lower = (Interval.hull (i.lower * i.lower) (i.upper * i.upper)).lower :=
      if_neg (hspans.not.mpr h)
    have ha : j.square.lower = (Interval.hull (j.lower * j.lower) (j.upper * j.upper)).lower :=
      if_neg h
    rw [hx, ha]
    exact hends.lower

/-- Running sums stay within the limit when all magnitudes together do. -/
theorem foldl {β : Type} {f : β → Interval Float} {g : β → Interval Rat} {w : β → Rat}
    {l : List β} (hstart : i.ExactWithin b j) (h : ∀ t ∈ l, (f t).ExactWithin (w t) (g t))
    (hle : b + (l.map w).sum ≤ 2 ^ 53) :
    ((l.map f).foldl Interval.add i).ExactWithin (b + (l.map w).sum)
      ((l.map g).foldl Interval.add j) := by
  induction l generalizing i j b with
  | nil => simpa using hstart
  | cons t l ih =>
    obtain ⟨ht, h⟩ := List.forall_mem_cons.mp h
    rw [List.map_cons, List.sum_cons, ← add_assoc] at hle ⊢
    have hrest : 0 ≤ (l.map w).sum :=
      List.sum_nonneg (List.forall_mem_map.mpr fun u hu => (h u hu).nonneg)
    exact ih (hstart.add ht (by linarith)) h hle

/-- Running sums over the terms of a sum of accepted coefficients. -/
theorem foldl_terms {κ : Type} [Ord κ] [Std.TransOrd κ] {e : Terms κ Float}
    {f : κ → Float → Interval Float} {g : κ → Rat → Interval Rat} {w : κ × Rat → Rat}
    (he : ∀ a ∈ e.coefficients, IsExactInteger a) (hstart : i.ExactWithin b j)
    (h : ∀ t ∈ e.toRat.toList, ∀ x, Binary64.ExactWithin |t.2| t.2 x → 1 ≤ |t.2| →
      (f t.1 x).ExactWithin (w t) (g t.1 t.2))
    (hle : b + (e.toRat.toList.map w).sum ≤ 2 ^ 53) :
    ((e.toList.map fun t => f t.1 t.2).foldl Interval.add i).ExactWithin
      (b + (e.toRat.toList.map w).sum)
      ((e.toRat.toList.map fun t => g t.1 t.2).foldl Interval.add j) := by
  have hterms := Terms.toList_toRat fun a ha => (he a ha).isFinite
  rw [hterms, List.forall_mem_map] at h
  rw [hterms, List.map_map] at hle ⊢
  rw [List.map_map]
  refine foldl hstart (fun t ht => ?_) hle
  obtain ⟨hexact, hone⟩ := Terms.exactWithin_of_mem he ht
  exact h t ht t.2 hexact hone

end Interval.ExactWithin

/-! ### Left-hand sides -/

namespace Problem

variable {p : Problem Float} {c : Constraint Float} {i : Nat}

/-- The bounds of a variable are exact within the limit. -/
theorem boundsAt_exactWithin (hspan : p.toRat.span i ≤ 2 ^ 53) :
    (p.boundsAt i).ExactWithin (p.toRat.span i) (p.toRat.boundsAt i) := by
  have hvariable : p.toRat.variableAt? i = p.variableAt? i := rfl
  rw [boundsAt, boundsAt, hvariable]
  cases hv : p.variableAt? i with
  | none =>
    have hzero : Binary64.ExactWithin (p.toRat.span i) 0 0 :=
      ⟨Binary64.exactly_zero, .zero, by simpa using zero_le_one.trans (p.toRat.one_le_span i)⟩
    exact ⟨hzero, hzero⟩
  | some v =>
    have hmagnitude : (v.domain.magnitude : Rat) ≤ p.toRat.span i := by
      rw [span, magnitudeAt, hvariable, hv]
      exact le_max_right _ _
    have hlower : |(v.domain.lower : Rat)| ≤ v.domain.magnitude := by
      rw [← Int.cast_abs, Int.abs_eq_natAbs]
      exact_mod_cast Nat.le_max_left _ _
    have hupper : |(v.domain.upper : Rat)| ≤ v.domain.magnitude := by
      rw [← Int.cast_abs, Int.abs_eq_natAbs]
      exact_mod_cast Nat.le_max_right _ _
    exact ⟨.ofInt (hlower.trans hmagnitude) hspan, .ofInt (hupper.trans hmagnitude) hspan⟩

/-- The range of a term of degree one is exact within the limit. -/
theorem scale_exactWithin {t : Nat × Rat} {x : Float} (hx : Binary64.ExactWithin |t.2| t.2 x)
    (hone : 1 ≤ |t.2|) (hle : p.toRat.termReach t ≤ 2 ^ 53) :
    ((p.boundsAt t.1).scale x).ExactWithin (p.toRat.termReach t)
      ((p.toRat.boundsAt t.1).scale t.2) :=
  .scale hx (boundsAt_exactWithin ((le_mul_of_one_le_left
    (zero_le_one.trans (p.toRat.one_le_span t.1)) hone).trans hle)) hle

/-- The range of a term of degree two is exact within the limit. -/
theorem pairRange_exactWithin {t : Pair × Rat} {x : Float}
    (hx : Binary64.ExactWithin |t.2| t.2 x) (hone : 1 ≤ |t.2|)
    (hle : p.toRat.pairReach t ≤ 2 ^ 53) :
    (p.pairRange t.1 x).ExactWithin (p.toRat.pairReach t) (p.toRat.pairRange t.1 t.2) := by
  rw [pairReach] at hle ⊢
  have hlow := p.toRat.one_le_span t.1.low
  have hhigh := p.toRat.one_le_span t.1.high
  have hproduct : p.toRat.span t.1.low * p.toRat.span t.1.high ≤ 2 ^ 53 :=
    (le_mul_of_one_le_left (by positivity) hone).trans hle
  have hbounds := boundsAt_exactWithin (p := p)
    ((le_mul_of_one_le_right (by positivity) hhigh).trans hproduct)
  rw [pairRange, pairRange]
  split
  · rename_i hsquare
    have hsquare : t.1.low = t.1.high := by simpa [Pair.isSquare] using hsquare
    rw [← hsquare] at hproduct hle ⊢
    exact .scale hx (hbounds.square hproduct) hle
  · exact .scaleProduct hx hbounds (boundsAt_exactWithin
      ((le_mul_of_one_le_left (by positivity) hlow).trans hproduct)) hone hle

/-- **The range of a left-hand side** is exact when the magnitudes of all terms together stay within
the limit. -/
theorem rangeOf_exactWithin (hc : ∀ a ∈ c.coefficients, IsExactInteger a)
    (hreach : p.toRat.reach c.toRat ≤ 2 ^ 53) :
    (p.rangeOf c).ExactWithin (p.toRat.reach c.toRat) (p.toRat.rangeOf c.toRat) := by
  obtain ⟨hlinear, hquadratic⟩ := List.forall_mem_append.mp hc
  obtain ⟨hlinearLe, hquadraticLe⟩ := p.toRat.le_reach c.toRat
  have hsum : (c.linear.toRat.toList.map p.toRat.termReach).sum +
      (c.quadratic.toRat.toList.map p.toRat.pairReach).sum ≤ 2 ^ 53 := hreach
  have hrest : 0 ≤ (c.quadratic.toRat.toList.map p.toRat.pairReach).sum :=
    List.sum_nonneg (List.forall_mem_map.mpr fun t _ => p.toRat.pairReach_nonneg t)
  have hzero : (⟨0, 0⟩ : Interval Float).ExactWithin 0 ⟨0, 0⟩ := ⟨.zero, .zero⟩
  have hfirst := hzero.foldl_terms (f := fun index x => (p.boundsAt index).scale x)
    (g := fun index x => (p.toRat.boundsAt index).scale x) hlinear
    (fun t ht x hx hone => scale_exactWithin hx hone ((hlinearLe t ht).trans hreach)) (by linarith)
  have hboth := hfirst.foldl_terms (f := p.pairRange) (g := p.toRat.pairRange) hquadratic
    (fun t ht x hx hone => pairRange_exactWithin hx hone ((hquadraticLe t ht).trans hreach))
    (by linarith)
  rw [zero_add] at hboth
  rw [rangeOf, rangeOf, List.foldl_append, List.foldl_append]
  exact hboth

end Problem

end QuboReduction

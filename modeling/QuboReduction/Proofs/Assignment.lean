import Mathlib.Data.List.Forall2
import Mathlib.Data.List.GetD
import QuboReduction.Proofs.WellFormed
import QuboReduction.Violation

/-!
# Assignments of exact values

A vector of rational numbers is an assignment of a problem when each entry is an integer of the
range of its variable. It is feasible when it satisfies every constraint, which is what the report
of violations with tolerance zero finds, and optimal when no feasible assignment is better.

## Main definitions

* `QuboReduction.Domain.Admits`, `QuboReduction.Problem.Admissible` — values within the ranges.
* `QuboReduction.Constraint.Holds`, `QuboReduction.Problem.Feasible` — satisfied constraints.
* `QuboReduction.Problem.value`, `QuboReduction.Problem.Optimal` — what is to be optimized.
* `QuboReduction.IsBits`, `QuboReduction.Problem.Minimizes` — vectors of zeros and ones, and those
  of the smallest objective.
* `QuboReduction.Problem.BitsAt` — assignments of zeros and ones to the binary variables.

## Main results

* `QuboReduction.Problem.admissible_iff` — admissible vectors, entry by entry.
* `QuboReduction.Problem.isFeasible_zero_iff` — feasible vectors are those without violations.
* `QuboReduction.Problem.optimal_iff` — optimality in terms of costs.
-/

namespace QuboReduction

/-! ### Vectors as assignments -/

section Vectors

variable {α : Type} [Scalar α] {s t : List α} {i : Nat}

theorem valueAt_of_lt (h : i < s.length) : valueAt s i = s[i] := List.getD_eq_getElem s 0 h

theorem valueAt_of_ge (h : s.length ≤ i) : valueAt s i = 0 := List.getD_eq_default s 0 h

theorem valueAt_append_left (h : i < s.length) : valueAt (s ++ t) i = valueAt s i :=
  List.getD_append s t 0 i h

theorem valueAt_append_right (h : s.length ≤ i) :
    valueAt (s ++ t) i = valueAt t (i - s.length) :=
  List.getD_append_right s t 0 i h

theorem valueAt_take {n : Nat} (h : i < n) : valueAt (s.take n) i = valueAt s i := by
  simp [valueAt, List.getD_eq_getElem?_getD, List.getElem?_take_of_lt h]

end Vectors

theorem forall₂_append_iff {β γ : Type} {R : β → γ → Prop} {l₁ l₂ : List β} {t : List γ} :
    List.Forall₂ R (l₁ ++ l₂) t ↔
      ∃ t₁ t₂, t = t₁ ++ t₂ ∧ List.Forall₂ R l₁ t₁ ∧ List.Forall₂ R l₂ t₂ := by
  constructor
  · induction l₁ generalizing t with
    | nil => exact fun h => ⟨[], t, rfl, .nil, h⟩
    | cons b l₁ ih =>
      intro h
      obtain ⟨c, t, hb, ht, rfl⟩ := List.forall₂_cons_left_iff.mp h
      obtain ⟨t₁, t₂, rfl, h₁, h₂⟩ := ih ht
      exact ⟨c :: t₁, t₂, rfl, .cons hb h₁, h₂⟩
  · rintro ⟨t₁, t₂, rfl, h₁, h₂⟩
    exact List.rel_append h₁ h₂

/-! ### Ranges -/

/-- A value that a variable may take: an integer between the bounds. -/
def Domain.Admits (d : Domain) (a : Rat) : Prop := ∃ n : Int, a = n ∧ d.lower ≤ n ∧ n ≤ d.upper

namespace Domain.Admits

variable {d : Domain} {a : Rat}

theorem isInteger (h : d.Admits a) : IsInteger a := by
  obtain ⟨n, rfl, -⟩ := h
  exact .intCast n

theorem lower_le (h : d.Admits a) : (d.lower : Rat) ≤ a := by
  obtain ⟨n, rfl, hn, -⟩ := h
  exact_mod_cast hn

theorem le_upper (h : d.Admits a) : a ≤ (d.upper : Rat) := by
  obtain ⟨n, rfl, -, hn⟩ := h
  exact_mod_cast hn

end Domain.Admits

theorem Domain.admits_binary_iff {d : Domain} (hd : d.isBinary = true) {a : Rat} :
    d.Admits a ↔ a = 0 ∨ a = 1 := by
  cases d with
  | integer _ _ => simp [isBinary] at hd
  | binary =>
    constructor
    · rintro ⟨n, rfl, hlower, hupper⟩
      simp only [lower, upper] at hlower hupper
      rcases (by omega : n = 0 ∨ n = 1) with rfl | rfl
      · exact Or.inl (by simp)
      · exact Or.inr (by simp)
    · rintro (rfl | rfl)
      · exact ⟨0, by simp, by simp [lower], by simp [upper]⟩
      · exact ⟨1, by simp, by simp [lower], by simp [upper]⟩

private theorem nearest_intCast (n : Int) : Rational.nearest n = n := by
  have hfloor : ∀ m : Int, ((m : Rat) + 1 / 2).floor = m := fun m => by
    change ⌊(m : Rat) + 1 / 2⌋ = m
    rw [Int.floor_intCast_add]
    norm_num
  rw [Rational.nearest]
  split
  · rw [← Int.cast_neg, hfloor, neg_neg]
  · exact hfloor n

/-- Without a tolerance a range contains exactly its integers. -/
theorem Domain.contains_zero_iff {d : Domain} {a : Rat} :
    d.contains a (0 : Rat) = true ↔ d.Admits a := by
  have hround : (Scalar.round a : Rat) = (Rational.nearest a : Int) := rfl
  simp only [contains, Bool.and_eq_true, decide_eq_true_eq, Scalar.abs_rat, Scalar.ofInt_rat,
    hround, abs_nonpos_iff, sub_eq_zero]
  constructor
  · rintro ⟨⟨ha, hlower⟩, hupper⟩
    exact ⟨Rational.nearest a, ha, by exact_mod_cast hlower, by exact_mod_cast hupper⟩
  · rintro ⟨n, rfl, hlower, hupper⟩
    rw [nearest_intCast]
    exact ⟨⟨rfl, by exact_mod_cast hlower⟩, by exact_mod_cast hupper⟩

instance (d : Domain) (a : Rat) : Decidable (d.Admits a) :=
  decidable_of_iff _ Domain.contains_zero_iff

/-! ### Constraints -/

/-- Whether a left-hand side stands in a relation to a right-hand side. -/
def Relation.Holds : Relation → Rat → Rat → Prop
  | le, lhs, rhs => lhs ≤ rhs
  | ge, lhs, rhs => rhs ≤ lhs
  | eq, lhs, rhs => lhs = rhs

theorem Relation.excess_le_zero_iff {r : Relation} {lhs rhs : Rat} :
    r.excess lhs rhs ≤ 0 ↔ r.Holds lhs rhs := by
  cases r with
  | le => simp [excess, Holds]
  | ge => simp [excess, Holds]
  | eq => simp [excess, Holds, sub_eq_zero]

/-- Whether an assignment satisfies a constraint. -/
def Constraint.Holds (c : Constraint Rat) (x : Nat → Rat) : Prop :=
  c.relation.Holds (c.evaluate x) c.rhs

instance (c : Constraint Rat) (x : Nat → Rat) : Decidable (c.Holds x) :=
  decidable_of_iff _ (Relation.excess_le_zero_iff (r := c.relation))

theorem Constraint.violation_le_zero_iff {c : Constraint Rat} {x : Nat → Rat} :
    c.violation x ≤ 0 ↔ c.Holds x :=
  Relation.excess_le_zero_iff

theorem Constraint.holds_congr {c : Constraint Rat} {x y : Nat → Rat} {n : Nat} (h : c.Below n)
    (hxy : ∀ i < n, x i = y i) : c.Holds x ↔ c.Holds y := by
  rw [Holds, Holds, evaluate_congr h hxy]

theorem Constraint.holds_append_iff {c : Constraint Rat} {s u : List Rat} (h : c.Below s.length) :
    c.Holds (valueAt (s ++ u)) ↔ c.Holds (valueAt s) :=
  holds_congr h fun _ hi => valueAt_append_left hi

theorem Constraint.holds_take_iff {c : Constraint Rat} {s : List Rat} {n : Nat} (h : c.Below n) :
    c.Holds (valueAt (s.take n)) ↔ c.Holds (valueAt s) :=
  holds_congr h fun _ hi => valueAt_take hi

/-! ### Assignments of a problem -/

/-- A value is at least as good as another one. -/
def Sense.NoWorse : Sense → Rat → Rat → Prop
  | minimize, a, b => a ≤ b
  | maximize, a, b => b ≤ a

theorem Sense.noWorse_iff {s : Sense} {a b : Rat} :
    s.NoWorse a b ↔ s.sign * a ≤ s.sign * b := by
  cases s with
  | minimize => simp [NoWorse, sign]
  | maximize => simp [NoWorse, sign]

@[simp] theorem Sense.sign_mul_sign (s : Sense) : (s.sign * s.sign : Rat) = 1 := by
  cases s <;> simp [sign]

/-- A vector in which each entry is zero or one. -/
def IsBits (t : List Rat) : Prop := ∀ a ∈ t, a = 0 ∨ a = 1

/-- Values of binary variables are zeros and ones. -/
theorem admits_iff_isBits {vars : List Variable} {s : List Rat}
    (hbinary : ∀ v ∈ vars, v.isBinary = true) :
    List.Forall₂ (fun v a => v.domain.Admits a) vars s ↔ s.length = vars.length ∧ IsBits s := by
  induction vars generalizing s with
  | nil => cases s <;> simp [IsBits]
  | cons v vars ih =>
    cases s with
    | nil => simp
    | cons a s =>
      obtain ⟨hv, hvars⟩ := List.forall_mem_cons.mp hbinary
      rw [List.forall₂_cons, ih hvars, Domain.admits_binary_iff hv]
      simp only [IsBits, List.length_cons, List.forall_mem_cons, Nat.add_right_cancel_iff]
      tauto

namespace Problem

variable {p q : Problem Rat} {s t : List Rat}

/-- A vector with one entry for each variable, an integer within the range of the variable. -/
def Admissible (p : Problem Rat) (s : List Rat) : Prop :=
  List.Forall₂ (fun v a => v.domain.Admits a) p.vars s

/-- An admissible vector that satisfies every constraint. -/
def Feasible (p : Problem Rat) (s : List Rat) : Prop :=
  p.Admissible s ∧ ∀ c ∈ p.constraints, c.Holds (valueAt s)

/-- The objective at a vector. -/
def value (p : Problem Rat) (s : List Rat) : Rat := p.objective.evaluate (valueAt s)

/-- A feasible vector than which no feasible vector is better. -/
def Optimal (p : Problem Rat) (s : List Rat) : Prop :=
  p.Feasible s ∧ ∀ u, p.Feasible u → p.objective.sense.NoWorse (p.value s) (p.value u)

/-- The objective at a vector as a cost, which is the smaller the better. -/
def cost (p : Problem Rat) (s : List Rat) : Rat := p.objective.sense.sign * p.value s

/-- A vector of zeros and ones of the smallest objective among these. -/
def Minimizes (p : Problem Rat) (t : List Rat) : Prop :=
  (t.length = p.size ∧ IsBits t) ∧
    ∀ u, u.length = p.size → IsBits u → p.value t ≤ p.value u

instance (p : Problem Rat) (s : List Rat) : Decidable (p.Admissible s) :=
  inferInstanceAs (Decidable (List.Forall₂ _ p.vars s))

instance (p : Problem Rat) (s : List Rat) : Decidable (p.Feasible s) :=
  inferInstanceAs (Decidable (_ ∧ _))

theorem Admissible.length_eq (h : p.Admissible s) : s.length = p.size :=
  (List.Forall₂.length_eq h).symm

/-- A vector is admissible when it has the right length and every entry is within its range. -/
theorem admissible_iff :
    p.Admissible s ↔
      s.length = p.size ∧ ∀ i v, p.variableAt? i = some v → v.domain.Admits (valueAt s i) := by
  rw [Admissible, List.forall₂_iff_get]
  constructor
  · rintro ⟨hlen, hadmits⟩
    refine ⟨hlen.symm, fun i v hv => ?_⟩
    obtain ⟨hi, rfl⟩ := List.getElem?_eq_some_iff.mp hv
    rw [valueAt_of_lt (hlen ▸ hi)]
    exact hadmits i hi (hlen ▸ hi)
  · rintro ⟨hlen, hadmits⟩
    refine ⟨hlen.symm, fun i hi hs => ?_⟩
    have hv := hadmits i p.vars[i] (List.getElem?_eq_getElem hi)
    rwa [valueAt_of_lt hs] at hv

theorem Admissible.admits (h : p.Admissible s) {i : Nat} {v : Variable}
    (hv : p.variableAt? i = some v) : v.domain.Admits (valueAt s i) :=
  (admissible_iff.mp h).2 i v hv

/-- Every entry of an admissible vector is an integer. -/
theorem Admissible.isInteger (h : p.Admissible s) (i : Nat) : IsInteger (valueAt s i) := by
  rcases Nat.lt_or_ge i p.size with hi | hi
  · obtain ⟨v, -, hv⟩ := exists_variableAt? hi
    exact (h.admits hv).isInteger
  · rw [valueAt_of_ge (h.length_eq.le.trans hi)]
    exact .zero

/-- The binary variables of a problem are zero or one. -/
def BitsAt (p : Problem Rat) (x : Nat → Rat) : Prop :=
  ∀ i, p.isBinaryAt i = true → x i = 0 ∨ x i = 1

theorem bitsAt_iff {x : Nat → Rat} :
    p.BitsAt x ↔ ∀ i < p.size, p.isBinaryAt i = true → x i = 0 ∨ x i = 1 :=
  ⟨fun h i _ => h i, fun h i hi => h i (isBinaryAt_lt hi) hi⟩

instance (p : Problem Rat) (x : Nat → Rat) : Decidable (p.BitsAt x) :=
  decidable_of_iff _ bitsAt_iff.symm

theorem Admissible.bitsAt (hs : p.Admissible s) : p.BitsAt (valueAt s) := by
  intro i hi
  obtain ⟨v, hv, hbinary⟩ := (Option.any_eq_true _ _).mp hi
  exact (Domain.admits_binary_iff hbinary).mp (hs.admits hv)

/-- Over binary variables only, the admissible vectors are those of zeros and ones. -/
theorem admissible_iff_isBits (hbinary : ∀ v ∈ p.vars, v.isBinary = true) :
    p.Admissible s ↔ s.length = p.size ∧ IsBits s :=
  admits_iff_isBits hbinary

/-! ### More variables and constraints -/

/-- The vectors of a problem with more variables are those of the problem followed by values of the
other variables. -/
theorem admissible_append_iff (extra : List Variable) (h : q.vars = p.vars ++ extra) :
    q.Admissible t ↔ ∃ s u, t = s ++ u ∧ p.Admissible s ∧
      List.Forall₂ (fun v a => v.domain.Admits a) extra u := by
  rw [Admissible, h, forall₂_append_iff]
  rfl

theorem Admissible.take {extra : List Variable} (h : q.vars = p.vars ++ extra)
    (ht : q.Admissible t) : p.Admissible (t.take p.size) := by
  obtain ⟨s, u, rfl, hs, -⟩ := (admissible_append_iff extra h).mp ht
  rwa [← hs.length_eq, List.take_left]

theorem admissible_declare_iff {name : String} {domain : Domain} :
    (p.declare name domain).Admissible t ↔
      ∃ s a, t = s ++ [a] ∧ p.Admissible s ∧ domain.Admits a := by
  rw [admissible_append_iff [⟨name, domain, p.size⟩] rfl]
  simp only [List.forall₂_cons_left_iff, List.forall₂_nil_left_iff]
  constructor
  · rintro ⟨s, u, rfl, hs, a, _, ha, rfl, rfl⟩
    exact ⟨s, a, rfl, hs, ha⟩
  · rintro ⟨s, a, rfl, hs, ha⟩
    exact ⟨s, [a], rfl, hs, a, [], ha, rfl, rfl⟩

/-- A new variable does not matter to the constraints that are there. -/
theorem feasible_declare_iff (hp : p.WellFormed) {name : String} {domain : Domain} :
    (p.declare name domain).Feasible t ↔ ∃ s a, t = s ++ [a] ∧ p.Feasible s ∧ domain.Admits a := by
  have hconstraints : ∀ s a, p.Admissible s →
      ((∀ c ∈ p.constraints, c.Holds (valueAt (s ++ [a]))) ↔
        ∀ c ∈ p.constraints, c.Holds (valueAt s)) := fun s a hs =>
    forall₂_congr fun c hc =>
      Constraint.holds_append_iff ((hp.constraint_below c hc).mono hs.length_eq.ge)
  rw [Feasible, admissible_declare_iff]
  constructor
  · rintro ⟨⟨s, a, rfl, hs, ha⟩, hholds⟩
    exact ⟨s, a, rfl, ⟨hs, (hconstraints s a hs).mp hholds⟩, ha⟩
  · rintro ⟨s, a, rfl, ⟨hs, hholds⟩, ha⟩
    exact ⟨⟨s, a, rfl, hs, ha⟩, (hconstraints s a hs).mpr hholds⟩

/-- Without the last variables and constraints a feasible vector remains one. -/
theorem Feasible.take (hp : p.WellFormed) {extra : List Variable} {cs : List (Constraint Rat)}
    (hvars : q.vars = p.vars ++ extra) (hconstraints : q.constraints = p.constraints ++ cs)
    (ht : q.Feasible t) : p.Feasible (t.take p.size) := by
  refine ⟨ht.1.take hvars, fun c hc => ?_⟩
  rw [Constraint.holds_take_iff (hp.constraint_below c hc)]
  exact ht.2 c (hconstraints ▸ List.mem_append_left cs hc)

theorem feasible_addConstraint_iff {c : Constraint Rat} (h : p.addConstraint c = .ok q) :
    q.Feasible t ↔ p.Feasible t ∧ c.Holds (valueAt t) := by
  obtain ⟨-, -, rfl⟩ := addConstraint_eq_ok_iff.mp h
  simp only [Feasible, List.forall_mem_append, List.forall_mem_singleton, and_assoc]
  rfl

/-- **Feasibility.** The feasible vectors are those for which no violation is reported, without a
tolerance. -/
theorem isFeasible_zero_iff (hp : p.WellFormed) : p.isFeasible s 0 = .ok true ↔ p.Feasible s := by
  have hempty : ∀ l : List (Violation Rat), ∀ le, (l.mergeSort le).isEmpty = true ↔ l = [] := by
    intro l le
    rw [List.isEmpty_iff_length_eq_zero, List.length_mergeSort, List.length_eq_zero_iff]
  rw [isFeasible, violations]
  rw [map_eq_ok]
  by_cases hlen : s.length = p.size
  · have hdomains : p.domainViolations (valueAt s) 0 = [] ↔ p.Admissible s := by
      simp only [domainViolations, List.filterMap_eq_nil_iff, admissible_iff, hlen, true_and,
        ite_eq_left_iff, reduceCtorEq, imp_false, not_not, Domain.contains_zero_iff]
      constructor
      · intro h i v hv
        rw [← hp.index_eq i v hv]
        exact h v (List.mem_of_getElem? hv)
      · intro h v hv
        obtain ⟨i, hi, rfl⟩ := List.getElem_of_mem hv
        have hat : p.variableAt? i = some p.vars[i] := List.getElem?_eq_getElem hi
        rw [hp.index_eq i _ hat]
        exact h i _ hat
    have hconstraints : p.constraintViolations (valueAt s) 0 = [] ↔
        ∀ c ∈ p.constraints, c.Holds (valueAt s) := by
      simp only [constraintViolations, List.filterMap_eq_nil_iff, ite_eq_right_iff, reduceCtorEq,
        imp_false, not_lt, Constraint.violation_le_zero_iff]
    simp only [checkLength, hlen, if_true, ok_bind, pure_eq_ok, exists_eq_left', hempty,
      List.append_eq_nil_iff, hdomains, hconstraints]
    rfl
  · simp only [checkLength, hlen, if_false, error_bind, reduceCtorEq, false_and, exists_false,
      false_iff]
    exact fun h => hlen h.1.length_eq

theorem evaluateObjective_of_length (hs : s.length = p.size) :
    p.evaluateObjective s = .ok (p.value s) := by
  rw [evaluateObjective, checkLength, if_pos hs, ok_bind]
  rfl

theorem optimal_iff :
    p.Optimal s ↔ p.Feasible s ∧ ∀ u, p.Feasible u → p.cost s ≤ p.cost u := by
  simp only [Optimal, Sense.noWorse_iff, cost]

/-- Any two optimal vectors have the same objective. -/
theorem Optimal.value_eq (hs : p.Optimal s) (ht : p.Optimal t) : p.value s = p.value t := by
  have hst := hs.2 t ht.1
  have hts := ht.2 s hs.1
  cases hsense : p.objective.sense with
  | minimize =>
    rw [hsense] at hst hts
    exact le_antisymm hst hts
  | maximize =>
    rw [hsense] at hst hts
    exact le_antisymm hts hst

end Problem

end QuboReduction

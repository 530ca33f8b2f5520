import QuboReduction.Proofs.PenaltyCounts

/-!
# Recognizing shapes

A shape is named for a form in which a constraint can be written: `x - y ≤ 0`, `x - y ≥ 0`, a sum
of at least two variables that is at most one, and such a sum that misses the number of its
variables by at most one. The recognition finds a shape exactly when a linear inequality over binary
variables has one of these forms, or its opposite has, both sides being negated and the comparison
turned around. It compares coefficients with one and minus one, so of scalars no more is asked than
what they stand for.

## Main definitions

* `QuboReduction.Reading` — the numbers that scalars stand for.
* `QuboReduction.Constraint.opposite` — the constraint with both sides negated.
* `QuboReduction.Constraint.Form` — the forms that shapes are named for.

## Main results

* `QuboReduction.Constraint.Form.indices_perm` — the variables of a shape.
* `QuboReduction.Problem.form_of_shapeOf` — a recognized shape has its form.
* `QuboReduction.Problem.shapeOf_eq_generic_iff` — the constraints without a shape of their own.
-/

namespace QuboReduction

/-! ### What scalars stand for -/

/-- Scalars that stand for rational numbers or for none, as far as equality and negation tell. -/
class Reading (α : Type) [Scalar α] where
  /-- The number that a scalar stands for. -/
  read : α → Option Rat
  /-- What is equal to a scalar that stands for a number stands for the same number. -/
  beq_iff {a b : α} {q : Rat} (hb : read b = some q) : (a == b) = true ↔ read a = some q
  /-- Zero stands for zero. -/
  read_zero : read 0 = some 0
  /-- One stands for one. -/
  read_one : read 1 = some 1
  /-- Negation negates the number. -/
  read_neg (a : α) : read (-a) = (read a).map fun q => -q
  /-- So does multiplying by minus one. -/
  read_mul_neg_one (a : α) : read (a * -1) = (read a).map fun q => -q

instance : Reading Rat where
  read := some
  beq_iff hb := by rw [beq_iff_eq, ← Option.some.inj hb, Option.some.injEq]
  read_zero := rfl
  read_one := rfl
  read_neg _ := rfl
  read_mul_neg_one a := by
    rw [Option.map_some, mul_neg_one]

variable {α : Type} [Scalar α]

namespace Reading

variable [Reading α] {a : α}

theorem read_neg_one : read (-1 : α) = some (-1) := by rw [read_neg, read_one, Option.map_some]

theorem beq_zero_iff : (a == 0) = true ↔ read a = some 0 := beq_iff read_zero

theorem beq_one_iff : (a == 1) = true ↔ read a = some 1 := beq_iff read_one

theorem beq_neg_one_iff : (a == -1) = true ↔ read a = some (-1) := beq_iff read_neg_one

/-- Comparisons of scalars that stand for the same numbers agree. -/
theorem beq_congr {β : Type} [Scalar β] [Reading β] {a' : α} {b b' : β} {q : Rat}
    (h : read a = read b) (ha' : read a' = some q) (hb' : read b' = some q) :
    (a == a') = (b == b') := by
  rw [Bool.eq_iff_iff, beq_iff ha', beq_iff hb', h]

theorem read_eq_some_iff_of_neg {q : Rat} :
    ((read a).map fun q => -q) = some q ↔ read a = some (-q) := by
  rw [Option.map_eq_some_iff]
  constructor
  · rintro ⟨r, hr, rfl⟩
    rwa [neg_neg]
  · exact fun h => ⟨-q, h, neg_neg q⟩

end Reading

open Reading

/-! ### Forms -/

namespace Constraint

/-- Both sides negated, and the comparison turned around. -/
def opposite (c : Constraint α) : Constraint α :=
  { c with
    linear := c.linear.scale (-1)
    quadratic := c.quadratic.scale (-1)
    relation := c.relation.flip
    rhs := -c.rhs }

/-- The terms of degree one are those of `xᵢ - xⱼ`, in either order. -/
def IsDifference (c : Constraint α) (i j : Nat) : Prop :=
  ∃ a b, (a == 1) = true ∧ (b == -1) = true ∧
    (c.linear.toList = [(i, a), (j, b)] ∨ c.linear.toList = [(j, b), (i, a)])

/-- The terms of degree one are those of a sum of at least two variables. -/
def IsSum (c : Constraint α) : Prop :=
  2 ≤ c.linear.size ∧ ∀ a ∈ c.linear.coefficients, (a == 1) = true

/-- The forms that shapes are named for. -/
inductive Form (c : Constraint α) : Shape → Prop
  /-- The inequality `xᵢ - xⱼ ≤ 0`. -/
  | implicationLe {i j : Nat} (h : c.IsDifference i j) (hrelation : c.relation = .le)
      (hrhs : (c.rhs == 0) = true) : Form c (.implicationLe i j)
  /-- The inequality `xᵢ - xⱼ ≥ 0`. -/
  | implicationGe {i j : Nat} (h : c.IsDifference i j) (hrelation : c.relation = .ge)
      (hrhs : (c.rhs == 0) = true) : Form c (.implicationGe i j)
  /-- A sum that is at most one. -/
  | atMostOne (h : c.IsSum) (hrelation : c.relation = .le) (hrhs : (c.rhs == 1) = true) :
      Form c (.atMostOne c.linear.keys)
  /-- A sum that is at least the number of its variables less one. -/
  | atMostOneZero (h : c.IsSum) (hrelation : c.relation = .ge)
      (hrhs : (c.rhs == Scalar.ofInt (c.linear.size - 1 : Nat)) = true) :
      Form c (.atMostOneZero c.linear.keys)

variable {c : Constraint α} {s : Shape} {i j : Nat}

theorem Form.ne_generic (h : c.Form s) : s ≠ .generic := by
  cases h <;> nofun

theorem IsDifference.keys_perm (h : c.IsDifference i j) : [i, j].Perm c.linear.keys := by
  obtain ⟨a, b, -, -, hlist | hlist⟩ := h <;> rw [Terms.keys, hlist]
  · exact List.Perm.refl _
  · exact List.Perm.swap j i []

/-- The variables of a shape are those of the constraint. -/
theorem Form.indices_perm (h : c.Form s) : s.indices.Perm c.linear.keys := by
  cases h with
  | implicationLe h => exact h.keys_perm
  | implicationGe h => exact h.keys_perm
  | atMostOne => exact List.Perm.refl _
  | atMostOneZero => exact List.Perm.refl _

/-- The lists of a shape are in ascending order. -/
theorem Form.eq_keys {vars : List Nat} (h : c.Form s)
    (hs : s = .atMostOne vars ∨ s = .atMostOneZero vars) : vars = c.linear.keys := by
  cases h <;> simp_all

/-! ### The opposite constraint -/

section Opposite

variable [Reading α]

/-- No term goes away when both sides are negated. -/
theorem toList_opposite (c : Constraint α) :
    c.opposite.linear.toList = c.linear.toList.map fun t => (t.1, t.2 * -1) := by
  refine List.filter_eq_self.mpr fun t ht => ?_
  obtain ⟨u, hu, rfl⟩ := List.mem_map.mp ht
  rw [Bool.not_eq_true', ← Bool.not_eq_true, beq_zero_iff, read_mul_neg_one,
    read_eq_some_iff_of_neg, neg_zero, ← beq_zero_iff]
  simpa using c.linear.nonzero u hu

theorem keys_opposite (c : Constraint α) : c.opposite.linear.keys = c.linear.keys := by
  rw [Terms.keys, toList_opposite, List.map_map]
  rfl

theorem size_opposite (c : Constraint α) : c.opposite.linear.size = c.linear.size := by
  rw [Terms.size, toList_opposite, List.length_map, Terms.size]

theorem coefficients_opposite (c : Constraint α) :
    c.opposite.linear.coefficients = c.linear.coefficients.map fun a => a * -1 := by
  rw [Terms.coefficients, toList_opposite, List.map_map, Terms.coefficients, List.map_map]
  rfl

theorem mul_neg_one_beq_one_iff {a : α} : (a * -1 == 1) = true ↔ (a == -1) = true := by
  rw [beq_one_iff, read_mul_neg_one, read_eq_some_iff_of_neg, beq_neg_one_iff]

theorem mul_neg_one_beq_neg_one_iff {a : α} : (a * -1 == -1) = true ↔ (a == 1) = true := by
  rw [beq_neg_one_iff, read_mul_neg_one, read_eq_some_iff_of_neg, neg_neg, beq_one_iff]

/-- The opposite of a difference is the difference the other way round. -/
theorem isDifference_of_opposite (h : c.opposite.IsDifference i j) : c.IsDifference j i := by
  obtain ⟨a', b', ha, hb, hlist⟩ := h
  simp only [toList_opposite, List.map_eq_cons_iff, List.map_eq_nil_iff, Prod.mk.injEq] at hlist
  rcases hlist with ⟨⟨_, a⟩, _, hlist, ⟨rfl, rfl⟩, ⟨_, b⟩, _, rfl, ⟨rfl, rfl⟩, rfl⟩ |
    ⟨⟨_, b⟩, _, hlist, ⟨rfl, rfl⟩, ⟨_, a⟩, _, rfl, ⟨rfl, rfl⟩, rfl⟩
  · exact ⟨b, a, mul_neg_one_beq_neg_one_iff.mp hb, mul_neg_one_beq_one_iff.mp ha, Or.inr hlist⟩
  · exact ⟨b, a, mul_neg_one_beq_neg_one_iff.mp hb, mul_neg_one_beq_one_iff.mp ha, Or.inl hlist⟩

theorem isSum_opposite_iff :
    c.opposite.IsSum ↔ 2 ≤ c.linear.size ∧ ∀ a ∈ c.linear.coefficients, (a == -1) = true := by
  rw [IsSum, size_opposite, coefficients_opposite, List.forall_mem_map]
  simp only [mul_neg_one_beq_one_iff]

end Opposite

/-! ### Numbers of a form -/

/-- The coefficients of a form are one and minus one. -/
theorem Form.unit_cases {a : α} (h : c.Form s) (ha : a ∈ c.linear.coefficients) :
    (a == 1) = true ∨ (a == -1) = true := by
  have hdifference : ∀ {i j}, c.IsDifference i j → (a == 1) = true ∨ (a == -1) = true := by
    rintro i j ⟨b, b', hb, hb', hlist | hlist⟩ <;>
      simp only [Terms.coefficients, hlist, List.map_cons, List.map_nil, List.mem_cons,
        List.not_mem_nil, or_false] at ha
    · rcases ha with rfl | rfl
      · exact Or.inl hb
      · exact Or.inr hb'
    · rcases ha with rfl | rfl
      · exact Or.inr hb'
      · exact Or.inl hb
  cases h with
  | implicationLe h => exact hdifference h
  | implicationGe h => exact hdifference h
  | atMostOne h => exact Or.inl (h.2 a ha)
  | atMostOneZero h => exact Or.inl (h.2 a ha)

/-- The right-hand side of a form is zero, one or the number of terms less one. -/
theorem Form.rhs_cases (h : c.Form s) :
    (c.rhs == 0) = true ∨ (c.rhs == 1) = true ∨
      (c.rhs == Scalar.ofInt (c.linear.size - 1 : Nat)) = true := by
  cases h with
  | implicationLe _ _ hrhs => exact Or.inl hrhs
  | implicationGe _ _ hrhs => exact Or.inl hrhs
  | atMostOne _ _ hrhs => exact Or.inr (Or.inl hrhs)
  | atMostOneZero _ _ hrhs => exact Or.inr (Or.inr hrhs)

/-! ### Differences -/

theorem isDifference_of_difference? (h : c.difference? = some (i, j)) : c.IsDifference i j := by
  rw [difference?] at h
  split at h
  · rename_i k a l b hlist
    split_ifs at h with hpos hneg
    · simp only [Option.some.injEq, Prod.mk.injEq] at h
      obtain ⟨rfl, rfl⟩ := h
      rw [Bool.and_eq_true] at hpos
      exact ⟨a, b, hpos.1, hpos.2, Or.inl hlist⟩
    · simp only [Option.some.injEq, Prod.mk.injEq] at h
      obtain ⟨rfl, rfl⟩ := h
      rw [Bool.and_eq_true] at hneg
      exact ⟨b, a, hneg.2, hneg.1, Or.inr hlist⟩
  · contradiction

theorem IsDifference.isSome_difference? (h : c.IsDifference i j) : c.difference?.isSome = true := by
  obtain ⟨a, b, ha, hb, hlist⟩ := h
  rw [difference?]
  rcases hlist with hlist | hlist
  · rw [hlist]
    simp [ha, hb]
  · rw [hlist]
    simp only [ha, hb]
    split <;> simp

/-! ### Implications -/

theorem form_of_implication? (h : c.implication? = some s) : c.Form s := by
  rw [implication?] at h
  split at h
  · rename_i hrhs
    split at h
    · rename_i hdifference hrelation
      rw [← Option.some.inj h]
      exact .implicationLe (isDifference_of_difference? hdifference) hrelation hrhs
    · rename_i hdifference hrelation
      rw [← Option.some.inj h]
      exact .implicationGe (isDifference_of_difference? hdifference) hrelation hrhs
    · contradiction
  · contradiction

theorem IsDifference.isSome_implication? (h : c.IsDifference i j) (hrhs : (c.rhs == 0) = true)
    (hrelation : c.relation ≠ .eq) : c.implication?.isSome = true := by
  obtain ⟨⟨k, l⟩, hdifference⟩ := Option.isSome_iff_exists.mp h.isSome_difference?
  rw [implication?, if_pos hrhs, hdifference]
  cases hr : c.relation with
  | le => rfl
  | ge => rfl
  | eq => exact absurd hr hrelation

/-! ### Bounds on sums -/

theorem exists_coefficients_eq_cons (hsize : 2 ≤ c.linear.size) :
    ∃ first rest, c.linear.coefficients = first :: rest := by
  refine List.exists_cons_of_length_pos ?_
  rw [Terms.coefficients, List.length_map]
  exact Nat.lt_of_lt_of_le Nat.zero_lt_two hsize

/-- A shape of a constraint is a form of the sum whose bound is found. -/
theorem IsSum.form_of_cardinality? {d : Constraint α} (hd : d.IsSum)
    (hsize : d.linear.size = c.linear.size) (hkeys : d.linear.keys = c.linear.keys)
    (hbound : c.countBound? = some (d.relation, d.rhs)) (h : c.cardinality? = some s) :
    d.Form s := by
  simp only [cardinality?, ← hsize, ← hkeys, hbound, if_neg hd.1.not_gt] at h
  cases hrelation : d.relation with
  | le =>
    simp only [hrelation] at h
    split_ifs at h with hrhs
    rw [← Option.some.inj h]
    exact .atMostOne hd hrelation hrhs
  | ge =>
    simp only [hrelation] at h
    split_ifs at h with hrhs
    rw [← Option.some.inj h]
    exact .atMostOneZero hd hrelation hrhs
  | eq => simp [hrelation] at h

/-- A form of the sum whose bound is found gives a shape. -/
theorem IsSum.isSome_cardinality? {d : Constraint α} (hd : d.IsSum)
    (hsize : d.linear.size = c.linear.size) (hbound : c.countBound? = some (d.relation, d.rhs))
    (h : (d.relation = .le ∧ (d.rhs == 1) = true) ∨
      d.relation = .ge ∧ (d.rhs == Scalar.ofInt (d.linear.size - 1 : Nat)) = true) :
    c.cardinality?.isSome = true := by
  simp only [cardinality?, ← hsize, hbound, if_neg hd.1.not_gt]
  rcases h with ⟨hrelation, hrhs⟩ | ⟨hrelation, hrhs⟩
  · simp [hrelation, hrhs]
  · simp [hrelation, hrhs]

section Sums

variable [Reading α]

/-- A bound is found for sums and for their negations. -/
theorem countBound?_eq_some {r : Relation} {b : α} (hsize : 2 ≤ c.linear.size)
    (h : c.countBound? = some (r, b)) :
    (c.IsSum ∧ r = c.relation ∧ b = c.rhs) ∨
      c.opposite.IsSum ∧ r = c.opposite.relation ∧ b = c.opposite.rhs := by
  obtain ⟨first, rest, hlist⟩ := exists_coefficients_eq_cons hsize
  simp only [countBound?, hlist] at h
  split_ifs at h with hall hone hminus
  · have hcoefficients : ∀ a ∈ c.linear.coefficients, (a == 1) = true := by
      rw [hlist, List.forall_mem_cons]
      refine ⟨hone, fun a ha => beq_one_iff.mpr ?_⟩
      exact (beq_iff (beq_one_iff.mp hone)).mp (List.all_eq_true.mp hall a ha)
    rw [Option.some.injEq, Prod.mk.injEq] at h
    exact Or.inl ⟨⟨hsize, hcoefficients⟩, h.1.symm, h.2.symm⟩
  · have hcoefficients : ∀ a ∈ c.linear.coefficients, (a == -1) = true := by
      rw [hlist, List.forall_mem_cons]
      refine ⟨hminus, fun a ha => beq_neg_one_iff.mpr ?_⟩
      exact (beq_iff (beq_neg_one_iff.mp hminus)).mp (List.all_eq_true.mp hall a ha)
    rw [Option.some.injEq, Prod.mk.injEq] at h
    exact Or.inr ⟨isSum_opposite_iff.mpr ⟨hsize, hcoefficients⟩, h.1.symm, h.2.symm⟩

/-- The bound of a sum. -/
theorem IsSum.countBound?_eq (h : c.IsSum) : c.countBound? = some (c.relation, c.rhs) := by
  obtain ⟨hsize, hones⟩ := h
  obtain ⟨first, rest, hlist⟩ := exists_coefficients_eq_cons hsize
  rw [hlist, List.forall_mem_cons] at hones
  have hall : (rest.all fun a => a == first) = true := List.all_eq_true.mpr fun a ha =>
    (beq_iff (beq_one_iff.mp hones.1)).mpr (beq_one_iff.mp (hones.2 a ha))
  simp only [countBound?, hlist, hall, hones.1, if_true]

/-- The bound of the negation of a sum is turned around. -/
theorem IsSum.countBound?_eq_opposite (h : c.opposite.IsSum) :
    c.countBound? = some (c.opposite.relation, c.opposite.rhs) := by
  obtain ⟨hsize, hminus⟩ := isSum_opposite_iff.mp h
  obtain ⟨first, rest, hlist⟩ := exists_coefficients_eq_cons hsize
  rw [hlist, List.forall_mem_cons] at hminus
  have hall : (rest.all fun a => a == first) = true := List.all_eq_true.mpr fun a ha =>
    (beq_iff (beq_neg_one_iff.mp hminus.1)).mpr (beq_neg_one_iff.mp (hminus.2 a ha))
  have hone : (first == 1) = false := by
    rw [← Bool.not_eq_true, beq_one_iff, beq_neg_one_iff.mp hminus.1]
    decide
  simp only [countBound?, hlist, hall, hone, hminus.1, if_true, if_false, Bool.false_eq_true]
  rfl

/-- A recognized bound on a sum has its form, or its opposite has. -/
theorem form_of_cardinality? (h : c.cardinality? = some s) : c.Form s ∨ c.opposite.Form s := by
  have hsize : 2 ≤ c.linear.size := by
    by_contra hsize
    simp [cardinality?, Nat.not_le.mp hsize] at h
  cases hbound : c.countBound? with
  | none => simp [cardinality?, hbound, hsize.not_gt] at h
  | some bound =>
    rcases countBound?_eq_some hsize hbound with ⟨hsum, hr, hb⟩ | ⟨hsum, hr, hb⟩
    · exact Or.inl (hsum.form_of_cardinality? rfl rfl (by rw [hbound, ← hr, ← hb]) h)
    · exact Or.inr (hsum.form_of_cardinality? (size_opposite c) (keys_opposite c)
        (by rw [hbound, ← hr, ← hb]) h)

/-! ### All forms -/

theorem rhs_opposite_beq_zero_iff : (c.opposite.rhs == 0) = true ↔ (c.rhs == 0) = true := by
  change (-c.rhs == 0) = true ↔ _
  rw [beq_zero_iff, read_neg, read_eq_some_iff_of_neg, neg_zero, beq_zero_iff]

/-- Whatever has a form, or whose opposite has one, is recognized. -/
theorem isSome_of_form (h : c.Form s ∨ c.opposite.Form s) :
    c.implication?.isSome = true ∨ c.cardinality?.isSome = true := by
  rcases h with h | h
  · cases h with
    | implicationLe h hrelation hrhs =>
      exact Or.inl (h.isSome_implication? hrhs (by rw [hrelation]; decide))
    | implicationGe h hrelation hrhs =>
      exact Or.inl (h.isSome_implication? hrhs (by rw [hrelation]; decide))
    | atMostOne h hrelation hrhs =>
      exact Or.inr (h.isSome_cardinality? rfl h.countBound?_eq (Or.inl ⟨hrelation, hrhs⟩))
    | atMostOneZero h hrelation hrhs =>
      exact Or.inr (h.isSome_cardinality? rfl h.countBound?_eq (Or.inr ⟨hrelation, hrhs⟩))
  · -- an equality would be one after turning around, too
    have hflip : ∀ r : Relation, c.opposite.relation = r → r ≠ .eq → c.relation ≠ .eq := by
      rintro r rfl hne heq
      exact hne (congrArg Relation.flip heq)
    cases h with
    | implicationLe h hrelation hrhs =>
      exact Or.inl ((isDifference_of_opposite h).isSome_implication?
        (rhs_opposite_beq_zero_iff.mp hrhs) (hflip _ hrelation (by decide)))
    | implicationGe h hrelation hrhs =>
      exact Or.inl ((isDifference_of_opposite h).isSome_implication?
        (rhs_opposite_beq_zero_iff.mp hrhs) (hflip _ hrelation (by decide)))
    | atMostOne h hrelation hrhs =>
      exact Or.inr (h.isSome_cardinality? (size_opposite c) h.countBound?_eq_opposite
        (Or.inl ⟨hrelation, hrhs⟩))
    | atMostOneZero h hrelation hrhs =>
      exact Or.inr (h.isSome_cardinality? (size_opposite c) h.countBound?_eq_opposite
        (Or.inr ⟨hrelation, hrhs⟩))

end Sums

end Constraint

namespace Problem

variable [Reading α] {p : Problem α} {c : Constraint α}

/-- **Recognized shapes.** A constraint with a shape of its own is a linear inequality over binary
variables, and the shape is a form of it or of its opposite. -/
theorem form_of_shapeOf (h : p.shapeOf c ≠ .generic) :
    (c.relation ≠ .eq ∧ c.isLinear = true ∧ ∀ i ∈ c.linear.keys, p.isBinaryAt i = true) ∧
      (c.Form (p.shapeOf c) ∨ c.opposite.Form (p.shapeOf c)) := by
  rw [shapeOf] at h ⊢
  split at h
  · rename_i hcondition
    rw [if_pos hcondition]
    simp only [Bool.and_eq_true, List.all_eq_true, decide_eq_true_eq, and_assoc] at hcondition
    refine ⟨hcondition, ?_⟩
    cases hi : c.implication? with
    | some s => exact Or.inl (Constraint.form_of_implication? hi)
    | none =>
      rw [hi] at h
      cases hc : c.cardinality? with
      | some s => exact Constraint.form_of_cardinality? hc
      | none => exact absurd rfl (hc ▸ h)
  · contradiction

/-- **Constraints without a shape of their own** are equalities, of degree two, not over binary
variables only, or neither they nor their opposites have one of the forms. -/
theorem shapeOf_eq_generic_iff :
    p.shapeOf c = .generic ↔ c.relation = .eq ∨ c.isLinear = false ∨
      (∃ i ∈ c.linear.keys, p.isBinaryAt i = false) ∨ ∀ s, ¬c.Form s ∧ ¬c.opposite.Form s := by
  constructor
  · intro h
    by_contra hcases
    simp only [not_or, not_exists, not_and, not_forall, Bool.not_eq_false, not_not] at hcases
    obtain ⟨hrelation, hlinear, hbinary, s, hs⟩ := hcases
    have hcondition :
        (c.relation ≠ .eq && c.isLinear && c.linear.keys.all p.isBinaryAt) = true := by
      simpa [hrelation, hlinear] using hbinary
    rw [shapeOf, if_pos hcondition] at h
    cases hi : c.implication? with
    | some t =>
      rw [hi] at h
      exact (Constraint.form_of_implication? hi).ne_generic h
    | none =>
      rw [hi] at h
      have hsome := Constraint.isSome_of_form (or_iff_not_imp_left.mpr hs)
      rw [hi] at hsome
      obtain ⟨t, ht⟩ := Option.isSome_iff_exists.mp (hsome.resolve_left (by decide))
      rw [ht] at h
      exact (Constraint.form_of_cardinality? ht).elim (fun hf => hf.ne_generic h)
        fun hf => hf.ne_generic h
  · intro h
    by_contra hne
    obtain ⟨⟨hrelation, hlinear, hbinary⟩, hform⟩ := form_of_shapeOf hne
    rcases h with h | h | ⟨i, hi, h⟩ | h
    · exact hrelation h
    · exact absurd (hlinear.symm.trans h) (by decide)
    · exact absurd ((hbinary i hi).symm.trans h) (by decide)
    · exact hform.elim (h _).1 (h _).2

end Problem

namespace Problem

/-- What the shape found for a constraint tells of its variables, and why none is found. -/
structure Recognizes (p : Problem α) (c : Constraint α) : Prop where
  /-- A constraint with a shape of its own has binary variables of the problem only. -/
  binary : p.shapeOf c ≠ .generic →
    c.isLinear = true ∧ ∀ i ∈ c.linear.keys, p.isBinaryAt i = true
  /-- The variables of the shape are those of the constraint. -/
  indices : p.shapeOf c ≠ .generic → (p.shapeOf c).indices.Perm c.linear.keys
  /-- The lists of a shape have the variables of the constraint in ascending order. -/
  lists : ∀ vars, p.shapeOf c = .atMostOne vars ∨ p.shapeOf c = .atMostOneZero vars →
    vars = c.linear.keys ∧ vars.Pairwise (· < ·)
  /-- The constraints without a shape of their own are the equalities, those of degree two or not
  over binary variables only, and those for which neither they nor their opposites have a form. -/
  generic : p.shapeOf c = .generic ↔ c.relation = .eq ∨ c.isLinear = false ∨
    (∃ i ∈ c.linear.keys, p.isBinaryAt i = false) ∨ ∀ s, ¬c.Form s ∧ ¬c.opposite.Form s

variable [Reading α]

theorem recognizes (p : Problem α) (c : Constraint α) : p.Recognizes c where
  binary h := (form_of_shapeOf h).1.2
  indices h := by
    rcases (form_of_shapeOf h).2 with h | h
    · exact h.indices_perm
    · exact c.keys_opposite ▸ h.indices_perm
  lists vars h := by
    have hne : p.shapeOf c ≠ .generic := by
      rcases h with h | h <;> rw [h] <;> nofun
    have hkeys : vars = c.linear.keys := by
      rcases (form_of_shapeOf hne).2 with hform | hform
      · exact hform.eq_keys h
      · exact c.keys_opposite ▸ hform.eq_keys h
    have hascending : c.linear.keys.Pairwise (· < ·) :=
      List.pairwise_map.mpr (c.linear.ascending.imp Nat.compare_eq_lt.mp)
    exact ⟨hkeys, hkeys ▸ hascending⟩
  generic := shapeOf_eq_generic_iff

end Problem

/-! ### What shapes say -/

namespace Shape

/-- What a shape says of the variables that are one. -/
def Says (s : Shape) (one : Nat → Bool) : Prop :=
  match s with
  | implicationLe i j => one i = true → one j = true
  | implicationGe i j => one j = true → one i = true
  | atMostOne vars => vars.countP one ≤ 1
  | atMostOneZero vars => vars.length - 1 ≤ vars.countP one
  | generic => True

/-- What is said depends on the variables of the shape. -/
theorem says_congr {s : Shape} {one one' : Nat → Bool} (h : ∀ i ∈ s.indices, one i = one' i) :
    s.Says one ↔ s.Says one' := by
  cases s with
  | implicationLe i j => rw [Says, Says, h i (by simp [indices]), h j (by simp [indices])]
  | implicationGe i j => rw [Says, Says, h i (by simp [indices]), h j (by simp [indices])]
  | atMostOne vars => rw [Says, Says, List.countP_congr fun i hi => by rw [h i hi]]
  | atMostOneZero vars => rw [Says, Says, List.countP_congr fun i hi => by rw [h i hi]]
  | generic => exact Iff.rfl

/-- At zeros and ones a shape holds when what it says of the ones is so. -/
theorem holds_iff_says {s : Shape} {x : Nat → Rat} (hbits : ∀ i ∈ s.indices, x i = 0 ∨ x i = 1) :
    s.Holds x ↔ s.Says fun i => x i == 1 := by
  have hle : ∀ i j, (x i = 0 ∨ x i = 1) → (x j = 0 ∨ x j = 1) →
      (x i ≤ x j ↔ ((x i == 1) = true → (x j == 1) = true)) := by
    intro i j hi hj
    rcases hi with hi | hi <;> rcases hj with hj | hj <;> norm_num [hi, hj]
  cases s with
  | implicationLe i j => exact hle i j (hbits i (by simp [indices])) (hbits j (by simp [indices]))
  | implicationGe i j => exact hle j i (hbits j (by simp [indices])) (hbits i (by simp [indices]))
  | atMostOne vars =>
    have hsum : (vars.map x).sum = vars.countP fun i => x i == 1 := sum_eq_countP hbits
    rw [Holds, Says, hsum]
    exact Nat.cast_le_one
  | atMostOneZero vars =>
    -- the variables that are not one are zero
    have hzeros : (vars.countP fun i => decide (x i = 0)) =
        vars.countP fun i => decide ¬(x i == 1) = true := by
      refine List.countP_congr fun i hi => ?_
      rcases hbits i hi with h | h <;> simp [h]
    have hlength := List.length_eq_countP_add_countP (fun i => x i == 1) (l := vars)
    have hsum : (vars.map fun i => 1 - x i).sum = vars.countP fun i => x i = 0 :=
      sum_complement_eq_countP hbits
    rw [Holds, Says, hsum, hzeros, Nat.cast_le_one]
    omega
  | generic => exact Iff.rfl

end Shape

namespace Problem

/-- At zeros and ones the constraint is satisfied when what its shape says of the ones is so. -/
def SaysAlike (p : Problem α) (c : Constraint α) : Prop :=
  ∀ x : Nat → α, (∀ i ∈ c.linear.keys, (x i == 0) = true ∨ (x i == 1) = true) →
    (c.isSatisfied x 0 = true ↔ (p.shapeOf c).Says fun i => x i == 1)

/-- Over rational numbers the constraint and its shape say the same. -/
theorem saysAlike_of_rat {p : Problem Rat} {c : Constraint Rat} (h : p.shapeOf c ≠ .generic) :
    p.SaysAlike c := by
  intro x hbits
  have hperm := (p.recognizes c).indices h
  rw [Constraint.isSatisfied, decide_eq_true_iff, Constraint.violation_le_zero_iff,
    ← (shapeOf_spec h).2.2, Shape.holds_iff_says fun i hi => ?_]
  exact (hbits i (hperm.mem_iff.mp hi)).imp beq_iff_eq.mp beq_iff_eq.mp

end Problem

end QuboReduction

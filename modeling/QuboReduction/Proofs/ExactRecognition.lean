import QuboReduction.Proofs.ExactRanges
import QuboReduction.Proofs.Recognition
import QuboReduction.Proofs.Unordered

/-!
# Recognizing shapes of constraints over doubles

The coefficients of a constraint with a shape are one and minus one, and its right-hand side is zero
or a count, so a recognized constraint over doubles stands for one over rational numbers with the
same shape. At zeros and ones its left-hand side is computed without rounding as long as there are
no more than `2 ^ 53` terms, and the difference of two integers has the right sign even if it is
rounded. So the shape says the same as the constraint, also in double precision.

## Main results

* `QuboReduction.Problem.shapeOf_toRat` — the shape over the numbers that doubles stand for.
* `QuboReduction.Relation.excess_le_zero_iff_of_exactWithin` — comparisons of integers.
* `QuboReduction.Problem.shapeOf_says` — what is said of recognized constraints.
-/

namespace QuboReduction

open Binary64 (Exactly ExactWithin value)
open Reading (read read_zero read_one read_neg_one beq_congr)

/-! ### Reading doubles -/

namespace Binary64

variable {x y : Float} {a q b : Rat}

/-- A finite double is negated by a product with minus one. -/
theorem exactly_mul_neg_one (hx : Exactly a x) : Exactly (-a) (x * -1) := by
  have hunit : Exactly (-1) (-1 : Float) := exactly_one.neg
  have hd : |a * -1| ≤ |value x| := by rw [mul_neg_one, abs_neg, hx.value_eq]
  have hrounded := hx.mul_rounded hunit (isDouble_abs_value hx.isFinite) hd
  rw [mul_neg_one] at hrounded
  exact hrounded.exactly hx.representable.neg

/-- What is equal to a finite double stands for the same number. -/
theorem beq_iff_exactly (hy : Exactly q y) : (x == y) = true ↔ Exactly q x := by
  constructor
  · intro h
    have hx := isFinite_of_beq h hy.isFinite
    exact ⟨hx, ((beq_iff_value_eq hx hy.isFinite).mp h).trans hy.value_eq⟩
  · intro hx
    exact (beq_iff_value_eq hx.isFinite hy.isFinite).mpr (hx.value_eq.trans hy.value_eq.symm)

/-- The number that a finite double stands for. -/
def value? (x : Float) : Option Rat := if x.isFinite then some (value x) else none

theorem value?_eq_some_iff : value? x = some q ↔ Exactly q x := by
  rw [value?]
  split
  · rename_i hx
    rw [Option.some.injEq]
    exact ⟨fun h => ⟨hx, h⟩, fun h => h.value_eq⟩
  · rename_i hx
    exact ⟨nofun, fun h => absurd h.isFinite hx⟩

/-- An operation that negates finite doubles and gives nothing finite for others negates the
number. -/
theorem value?_eq_map {f : Float → Float} (hf : ∀ {a x}, Exactly a x → Exactly (-a) (f x))
    (hfinite : ∀ {x}, (f x).isFinite = true → x.isFinite = true) (x : Float) :
    value? (f x) = (value? x).map fun q => -q := by
  cases hx : value? x with
  | some q => exact value?_eq_some_iff.mpr (hf (value?_eq_some_iff.mp hx))
  | none =>
    have hinfinite : ¬x.isFinite = true := fun h => by simp [value?, h] at hx
    exact if_neg (mt hfinite hinfinite)

end Binary64

open Binary64 (beq_iff_exactly value? value?_eq_some_iff)

instance : Reading Float where
  read := value?
  beq_iff hy := by
    rw [beq_iff_exactly (value?_eq_some_iff.mp hy), value?_eq_some_iff]
  read_zero := value?_eq_some_iff.mpr Binary64.exactly_zero
  read_one := value?_eq_some_iff.mpr Binary64.exactly_one
  read_neg := Binary64.value?_eq_map Exactly.neg Binary64.isFinite_of_neg
  read_mul_neg_one :=
    Binary64.value?_eq_map Binary64.exactly_mul_neg_one Binary64.isFinite_of_mul

/-- A finite double and its number are read alike. -/
theorem read_value {x : Float} (hx : x.isFinite = true) : read (value x) = read x :=
  (value?_eq_some_iff.mpr ⟨hx, rfl⟩).symm

/-! ### Numbers of a form -/

namespace Constraint

variable {c : Constraint Float} {s : Shape}

/-- The coefficients are ones and minus ones, and the right-hand side is an integer, all of them
doubles that stand for these numbers. -/
structure IsUnitary (c : Constraint Float) : Prop where
  /-- The coefficients are integers of magnitude one at most. -/
  coefficients : ∀ a ∈ c.linear.coefficients, ExactWithin 1 (value a) a
  /-- The right-hand side is an integer of magnitude `2 ^ 53` at most. -/
  rhs : ExactWithin (2 ^ 53) (value c.rhs) c.rhs

private theorem exactWithin_of_exactly {b q : Rat} {x : Float} (hx : Exactly q x) (hq : IsInteger q)
    (hb : |q| ≤ b) : ExactWithin b (value x) x := by
  rw [hx.value_eq]
  exact ⟨hx, hq, hb⟩

theorem Form.isUnitary (h : c.Form s) (hsize : c.linear.size ≤ 2 ^ 53) : c.IsUnitary where
  coefficients a ha := by
    rcases h.unit_cases ha with h | h
    · exact exactWithin_of_exactly ((beq_iff_exactly Binary64.exactly_one).mp h) .one (by simp)
    · exact exactWithin_of_exactly ((beq_iff_exactly Binary64.exactly_one.neg).mp h)
        IsInteger.one.neg (by simp)
  rhs := by
    rcases h.rhs_cases with h | h | h
    · exact exactWithin_of_exactly ((beq_iff_exactly Binary64.exactly_zero).mp h) .zero (by simp)
    · exact exactWithin_of_exactly ((beq_iff_exactly Binary64.exactly_one).mp h) .one (by norm_num)
    · have hcount : c.linear.size - 1 ≤ 2 ^ 53 := by omega
      refine exactWithin_of_exactly
        ((beq_iff_exactly (Binary64.exactly_natCast hcount)).mp h) ⟨_, (Int.cast_natCast _).symm⟩ ?_
      rw [Nat.abs_cast]
      exact_mod_cast hcount

private theorem exactWithin_of_negated {f : Float → Float} {b : Rat} {x : Float}
    (hf : ∀ {a x}, Exactly a x → Exactly (-a) (f x))
    (hfinite : ∀ {x}, (f x).isFinite = true → x.isFinite = true)
    (h : ExactWithin b (value (f x)) (f x)) : ExactWithin b (value x) x := by
  have hx : Exactly (value x) x := ⟨hfinite h.isFinite, rfl⟩
  obtain ⟨-, hinteger, habs⟩ := h
  rw [(hf hx).value_eq] at hinteger habs
  exact ⟨hx, by simpa using hinteger.neg, by rwa [abs_neg] at habs⟩

/-- Negating both sides does not matter. -/
theorem isUnitary_of_opposite (h : c.opposite.IsUnitary) : c.IsUnitary where
  coefficients a ha := by
    refine exactWithin_of_negated Binary64.exactly_mul_neg_one Binary64.isFinite_of_mul
      (h.coefficients _ ?_)
    rw [coefficients_opposite]
    exact List.mem_map_of_mem ha
  rhs := exactWithin_of_negated Exactly.neg Binary64.isFinite_of_neg h.rhs

/-! ### Shapes over the numbers that doubles stand for -/

theorem keys_toRat (hc : ∀ a ∈ c.linear.coefficients, a.isFinite = true) :
    c.toRat.linear.keys = c.linear.keys := by
  have hterms : c.toRat.linear.toList = c.linear.toList.map fun t => (t.1, value t.2) :=
    Terms.toList_toRat hc
  rw [Terms.keys, hterms, List.map_map]
  rfl

theorem difference?_toRat (hc : ∀ a ∈ c.linear.coefficients, a.isFinite = true) :
    c.toRat.difference? = c.difference? := by
  have hterms : c.toRat.linear.toList = c.linear.toList.map fun t => (t.1, value t.2) :=
    Terms.toList_toRat hc
  rw [difference?, difference?, hterms]
  rw [Terms.coefficients, List.forall_mem_map] at hc
  rcases hlist : c.linear.toList with _ | ⟨⟨i, a⟩, _ | ⟨⟨j, b⟩, _ | ⟨t, rest⟩⟩⟩
  · rfl
  · rfl
  · obtain ⟨ha, hb⟩ : a.isFinite = true ∧ b.isFinite = true := by
      simpa [hlist] using hc
    simp only [List.map_cons, List.map_nil, beq_congr (read_value ha) read_one read_one,
      beq_congr (read_value ha) read_neg_one read_neg_one,
      beq_congr (read_value hb) read_one read_one,
      beq_congr (read_value hb) read_neg_one read_neg_one]
  · rfl

theorem implication?_toRat (hc : ∀ a ∈ c.linear.coefficients, a.isFinite = true)
    (hrhs : c.rhs.isFinite = true) : c.toRat.implication? = c.implication? := by
  have hzero : (c.toRat.rhs == 0) = (c.rhs == 0) :=
    beq_congr (read_value hrhs) read_zero read_zero
  rw [implication?, implication?, difference?_toRat hc, hzero]
  rfl

theorem countBound?_toRat (hc : ∀ a ∈ c.linear.coefficients, a.isFinite = true)
    (hrhs : c.rhs.isFinite = true) :
    c.toRat.countBound? = c.countBound?.map fun bound => (bound.1, value bound.2) := by
  have hcoefficients : c.toRat.linear.coefficients = c.linear.coefficients.map value := by
    rw [Terms.coefficients, Terms.coefficients, List.map_map]
    exact (congrArg (List.map _) (Terms.toList_toRat hc)).trans List.map_map
  rw [countBound?, countBound?, hcoefficients]
  rcases hlist : c.linear.coefficients with _ | ⟨first, rest⟩
  · rfl
  · rw [hlist, List.forall_mem_cons] at hc
    have hall : ((rest.map value).all fun a => a == value first) =
        rest.all fun a => a == first := by
      have hfirst : read first = some (value first) := value?_eq_some_iff.mpr ⟨hc.1, rfl⟩
      rw [List.all_map, Bool.eq_iff_iff, List.all_eq_true, List.all_eq_true]
      refine forall₂_congr fun a ha => ?_
      rw [← beq_congr (read_value (hc.2 a ha)) ((read_value hc.1).trans hfirst) hfirst]
      rfl
    have hneg : -c.toRat.rhs = value (-c.rhs) := (Binary64.value_neg hrhs).2.symm
    simp only [List.map_cons, hall, hneg, beq_congr (read_value hc.1) read_one read_one,
      beq_congr (read_value hc.1) read_neg_one read_neg_one, apply_ite (Option.map _),
      Option.map_some, Option.map_none]
    rfl

/-- The bound of a sum is the right-hand side or its negation. -/
private theorem isFinite_of_countBound? {r : Relation} {b : Float} (hsize : 2 ≤ c.linear.size)
    (hrhs : c.rhs.isFinite = true) (h : c.countBound? = some (r, b)) : b.isFinite = true := by
  rcases countBound?_eq_some hsize h with ⟨-, -, rfl⟩ | ⟨-, -, rfl⟩
  · exact hrhs
  · exact (Binary64.value_neg hrhs).1

theorem cardinality?_toRat (hc : ∀ a ∈ c.linear.coefficients, a.isFinite = true)
    (hrhs : c.rhs.isFinite = true) (hlimit : c.linear.size ≤ 2 ^ 53) :
    c.toRat.cardinality? = c.cardinality? := by
  have hsize : c.toRat.linear.size = c.linear.size := by
    simpa [Terms.keys, Terms.size] using congrArg List.length (keys_toRat hc)
  simp only [cardinality?, hsize, keys_toRat hc, countBound?_toRat hc hrhs]
  by_cases hn : c.linear.size < 2
  · rw [if_pos hn, if_pos hn]
  rw [if_neg hn, if_neg hn]
  cases hbound : c.countBound? with
  | none => rfl
  | some bound =>
    obtain ⟨r, b⟩ := bound
    have hb := read_value (isFinite_of_countBound? (not_lt.mp hn) hrhs hbound)
    have hcount : c.linear.size - 1 ≤ 2 ^ 53 := by omega
    have hexact : read (Scalar.ofInt (c.linear.size - 1 : Nat) : Float) =
        some ((c.linear.size - 1 : Nat) : Rat) :=
      value?_eq_some_iff.mpr (Binary64.exactly_natCast hcount)
    have hrat : read (Scalar.ofInt (c.linear.size - 1 : Nat) : Rat) =
        some ((c.linear.size - 1 : Nat) : Rat) := congrArg some (Int.cast_natCast _)
    cases r with
    | le => simp only [Option.map_some, beq_congr hb read_one read_one]
    | ge => simp only [Option.map_some, beq_congr hb hrat hexact]
    | eq => rfl

end Constraint

namespace Problem

variable {p : Problem Float} {c : Constraint Float}

/-- **Shapes of constraints over doubles** are the shapes over the numbers that the doubles stand
for. -/
theorem shapeOf_toRat (hc : ∀ a ∈ c.linear.coefficients, a.isFinite = true)
    (hrhs : c.rhs.isFinite = true) (hlinear : c.isLinear = true)
    (hlimit : c.linear.size ≤ 2 ^ 53) : p.toRat.shapeOf c.toRat = p.shapeOf c := by
  rw [shapeOf, shapeOf, Constraint.isLinear_toRat hlinear, Constraint.keys_toRat hc,
    Constraint.implication?_toRat hc hrhs, Constraint.cardinality?_toRat hc hrhs hlimit, hlinear]
  rfl

end Problem

/-! ### Left-hand sides at zeros and ones -/

/-- Running sums of numbers of magnitude one are exact as long as there are not too many. -/
theorem Binary64.ExactWithin.foldl_units {β : Type} {f : β → Float} {g : β → Rat} {l : List β}
    {a : Rat} {x : Float} {n : Nat} (hx : ExactWithin n a x)
    (hl : ∀ t ∈ l, ExactWithin 1 (g t) (f t)) (hle : n + l.length ≤ 2 ^ 53) :
    ExactWithin (n + l.length : Nat) (a + (l.map g).sum)
      ((l.map f).foldl (fun total x => total + x) x) := by
  induction l generalizing a x n with
  | nil => simpa using hx
  | cons t l ih =>
    obtain ⟨ht, hl⟩ := List.forall_mem_cons.mp hl
    rw [List.length_cons] at hle ⊢
    have hlimit : (n : Rat) + 1 ≤ 2 ^ 53 := by exact_mod_cast (by omega : n + 1 ≤ 2 ^ 53)
    have hstep : ExactWithin (n + 1 : Nat) (a + g t) (x + f t) := by
      rw [Nat.cast_add, Nat.cast_one]
      exact hx.add ht hlimit
    have hrest := ih hstep hl (by omega)
    rwa [Nat.add_right_comm, Nat.add_assoc, add_assoc] at hrest

namespace Constraint

variable {c : Constraint Float} {x : Nat → Float}

/-- **Left-hand sides at zeros and ones** are counted exactly. -/
theorem IsUnitary.exactWithin_evaluate (hc : c.IsUnitary) (hlinear : c.isLinear = true)
    (hlimit : c.linear.size ≤ 2 ^ 53)
    (hbits : ∀ i ∈ c.linear.keys, Exactly 0 (x i) ∨ Exactly 1 (x i)) :
    ExactWithin (2 ^ 53) (c.toRat.evaluate fun i => value (x i)) (c.evaluate x) := by
  have hstart : ExactWithin (0 : Nat) 0 (-0.0) :=
    ⟨by simpa using Binary64.exactly_zero.neg, .zero, by simp⟩
  have hproduct : ∀ t ∈ c.linear.toList,
      ExactWithin 1 (value t.2 * value (x t.1)) (t.2 * x t.1) := by
    intro t ht
    have hx : ExactWithin 1 (value (x t.1)) (x t.1) := by
      rcases hbits t.1 (List.mem_map_of_mem ht) with h | h
      · exact exactWithin_of_exactly h .zero (by simp)
      · exact exactWithin_of_exactly h .one (by simp)
    have hmul := (hc.coefficients t.2 (List.mem_map_of_mem ht)).mul hx (by norm_num)
    rwa [one_mul] at hmul
  obtain ⟨hexact, hinteger, habs⟩ := hstart.foldl_units hproduct (by rwa [Nat.zero_add])
  have hcount : ((0 + c.linear.toList.length : Nat) : Rat) ≤ 2 ^ 53 := by
    rw [Nat.zero_add]
    exact_mod_cast hlimit
  have hsum : ExactWithin (2 ^ 53) _ (c.linear.evaluate x) := ⟨hexact, hinteger, habs.trans hcount⟩
  have hquadratic : c.quadratic.evaluate x = -0.0 := by
    rw [Quadratic.evaluate, Terms.total, toList_quadratic hlinear]
    rfl
  have hlinearValue : c.toRat.evaluate (fun i => value (x i)) =
      (c.linear.toList.map fun t => value t.2 * value (x t.1)).sum := by
    have hterms : c.toRat.linear.toList = c.linear.toList.map fun t => (t.1, value t.2) :=
      Terms.toList_toRat fun a ha => (hc.coefficients a ha).isFinite
    rw [evaluate_of_isLinear (isLinear_toRat hlinear), Terms.value, hterms, List.map_map]
    rfl
  rw [hlinearValue, evaluate, hquadratic]
  simpa using hsum.add hstart (by norm_num)

end Constraint

/-! ### Comparisons of integers -/

namespace Binary64

variable {x : Float} {q : Rat}

/-- Rounding keeps the sign of an integer. -/
theorem RoundedFrom.value_pos_iff (h : RoundedFrom q x) (hq : IsInteger q) :
    0 < value x ↔ 0 < q := by
  have hone : Representable 1 := .of_isInteger .one (by norm_num)
  constructor
  · intro hpos
    by_contra hle
    exact absurd (h.rounds.le 0 .zero (not_lt.mp hle)) (not_le.mpr hpos)
  · intro hpos
    exact zero_lt_one.trans_le (h.rounds.ge 1 hone (hq.one_le hpos))

theorem RoundedFrom.value_eq_zero_iff (h : RoundedFrom q x) (hq : IsInteger q) :
    value x = 0 ↔ q = 0 := by
  constructor
  · intro hzero
    by_contra hne
    rcases lt_or_gt_of_ne hne with hneg | hpos
    · have hminus : Representable (-1) := .of_isInteger IsInteger.one.neg (by norm_num)
      have hle : q ≤ -1 := by linarith [hq.neg.one_le (neg_pos.mpr hneg)]
      linarith [h.rounds.le (-1) hminus hle]
    · exact absurd ((h.value_pos_iff hq).mpr hpos) hzero.not_gt
  · rintro rfl
    exact h.rounds.eq_of_representable .zero

theorem positivePart_le_zero_iff (hx : x.isFinite = true) :
    Scalar.positivePart x ≤ 0 ↔ ¬0 < value x := by
  have hpos : (0 : Float) < x ↔ 0 < value x := by
    have h := lt_iff_value_lt isFinite_zero hx
    rwa [value_zero] at h
  have hle : x ≤ 0 ↔ value x ≤ 0 := by
    have h := le_iff_value_le hx isFinite_zero
    rwa [value_zero] at h
  rw [← hpos, Scalar.positivePart]
  split
  · rename_i h
    rw [hle]
    exact ⟨fun hnonpos => absurd (hpos.mp h) hnonpos.not_gt, fun hnot => absurd h hnot⟩
  · rename_i h
    have hzero : (0 : Float) ≤ 0 := by decide +kernel
    exact ⟨fun _ => h, fun _ => hzero⟩

end Binary64

open Binary64 (RoundedFrom positivePart_le_zero_iff)

/-- The difference of two integers has the right sign. -/
theorem Relation.excess_le_zero_iff_of_exactWithin {r : Relation} {a b : Rat} {x y : Float}
    (hx : ExactWithin (2 ^ 53) a x) (hy : ExactWithin (2 ^ 53) b y) :
    r.excess x y ≤ 0 ↔ r.Holds a b := by
  have hdifference : ∀ {a b : Rat} {x y : Float}, ExactWithin (2 ^ 53) a x →
      ExactWithin (2 ^ 53) b y → RoundedFrom (a - b) (x - y) ∧ IsInteger (a - b) := by
    intro a b x y hx hy
    have hle : |a - b| ≤ 2 ^ 54 := by
      calc |a - b| ≤ |a| + |b| := abs_sub a b
        _ ≤ 2 ^ 53 + 2 ^ 53 := add_le_add hx.abs_le hy.abs_le
        _ = 2 ^ 54 := by norm_num
    exact ⟨hx.toExactly.sub_rounded hy.toExactly (.two_pow (by omega)) hle,
      hx.isInteger.sub hy.isInteger⟩
  have hle : ∀ {a b : Rat} {x y : Float}, ExactWithin (2 ^ 53) a x →
      ExactWithin (2 ^ 53) b y → (Scalar.positivePart (x - y) ≤ 0 ↔ a ≤ b) := by
    intro a b x y hx hy
    obtain ⟨hrounded, hinteger⟩ := hdifference hx hy
    rw [positivePart_le_zero_iff hrounded.isFinite, hrounded.value_pos_iff hinteger, sub_pos,
      not_lt]
  cases r with
  | le => exact hle hx hy
  | ge => exact hle hy hx
  | eq =>
    obtain ⟨hrounded, hinteger⟩ := hdifference hx hy
    obtain ⟨hfinite, hvalue⟩ := Binary64.value_abs hrounded.isFinite
    have habs : Scalar.abs (x - y) ≤ 0 ↔ |value (x - y)| ≤ 0 := by
      have h := Binary64.le_iff_value_le hfinite Binary64.isFinite_zero
      rwa [Binary64.value_zero, hvalue] at h
    rw [excess, habs, abs_nonpos_iff, hrounded.value_eq_zero_iff hinteger, sub_eq_zero]
    rfl

/-! ### Recognized constraints -/

namespace Problem

variable {p : Problem Float} {c : Constraint Float}

theorem isUnitary_of_shapeOf (h : p.shapeOf c ≠ .generic) (hlimit : c.linear.size ≤ 2 ^ 53) :
    c.IsUnitary := by
  rcases (form_of_shapeOf h).2 with h | h
  · exact h.isUnitary hlimit
  · exact Constraint.isUnitary_of_opposite (h.isUnitary (c.size_opposite ▸ hlimit))

/-- In double precision a constraint and its shape say the same, too. -/
theorem saysAlike_of_size_le (h : p.shapeOf c ≠ .generic) (hlimit : c.linear.size ≤ 2 ^ 53) :
    p.SaysAlike c := by
  intro x hbits
  have hunitary := isUnitary_of_shapeOf h hlimit
  have hlinear := ((p.recognizes c).binary h).1
  have hperm := (p.recognizes c).indices h
  have hexact : ∀ i ∈ c.linear.keys, Exactly 0 (x i) ∨ Exactly 1 (x i) := fun i hi =>
    (hbits i hi).imp (beq_iff_exactly Binary64.exactly_zero).mp
      (beq_iff_exactly Binary64.exactly_one).mp
  have hshape : p.toRat.shapeOf c.toRat = p.shapeOf c :=
    shapeOf_toRat (fun a ha => (hunitary.coefficients a ha).isFinite) hunitary.rhs.isFinite hlinear
      hlimit
  have hcompare : c.violation x ≤ 0 ↔ c.toRat.Holds fun i => Binary64.value (x i) :=
    Relation.excess_le_zero_iff_of_exactWithin
      (hunitary.exactWithin_evaluate hlinear hlimit hexact) hunitary.rhs
  have hvalues : ∀ i ∈ (p.shapeOf c).indices,
      Binary64.value (x i) = 0 ∨ Binary64.value (x i) = 1 := fun i hi =>
    (hexact i (hperm.mem_iff.mp hi)).imp Exactly.value_eq Exactly.value_eq
  have hones : ∀ i ∈ (p.shapeOf c).indices, (Binary64.value (x i) == 1) = (x i == 1) := by
    intro i hi
    have hfinite := (hexact i (hperm.mem_iff.mp hi)).elim Exactly.isFinite Exactly.isFinite
    exact beq_congr (read_value hfinite) read_one read_one
  rw [Constraint.isSatisfied, decide_eq_true_iff]
  refine hcompare.trans ?_
  rw [← (shapeOf_spec (hshape ▸ h)).2.2, hshape, Shape.holds_iff_says hvalues]
  exact Shape.says_congr hones

/-- **Recognizing shapes.** A shape other than the generic one tells the variables of the
constraint, all of them binary, and says of zeros and ones what the constraint says; the generic one
is left to the constraints that cannot be written in one of the forms. In double precision a
left-hand side is counted up to `2 ^ 53` terms; beyond that adding a one may change nothing. -/
theorem shapeOf_recognizes :
    (∀ (p : Problem Rat) (c : Constraint Rat),
      p.Recognizes c ∧ (p.shapeOf c ≠ .generic → p.SaysAlike c)) ∧
    ∀ (p : Problem Float) (c : Constraint Float),
      p.Recognizes c ∧ (p.shapeOf c ≠ .generic → c.linear.size ≤ 2 ^ 53 → p.SaysAlike c) :=
  ⟨fun p c => ⟨p.recognizes c, saysAlike_of_rat⟩,
    fun p c => ⟨p.recognizes c, saysAlike_of_size_le⟩⟩

end Problem

/-- Three binary variables. -/
def choosing : Problem Float where
  name := "choosing"
  vars := [⟨"x", .binary, 0⟩, ⟨"y", .binary, 1⟩, ⟨"z", .binary, 2⟩]
  objective := Objective.zero
  constraints := []

/-- The negation of a sum that is at least minus one. -/
def choosingBound : Constraint Float :=
  .ofLinear "c" (Terms.ofList [(2, -1), (0, -1), (1, -1)]) .ge (-1)

/-- The bound is that at most one of the variables is one, and `[0, 1, 0]` satisfies it. -/
theorem choosing_recognized :
    choosing.shapeOf choosingBound = .atMostOne [0, 1, 2] ∧
      choosingBound.isSatisfied (valueAt [0, 1, 0]) 0 = true := by
  have hshape : choosing.shapeOf choosingBound = .atMostOne [0, 1, 2] := by decide +kernel
  obtain ⟨-, halike⟩ := Problem.shapeOf_recognizes.2 choosing choosingBound
  have hsays := halike (by rw [hshape]; nofun) (by decide +kernel) (valueAt [0, 1, 0])
    (by decide +kernel)
  refine ⟨hshape, hsays.mpr ?_⟩
  rw [hshape]
  change List.countP _ [0, 1, 2] ≤ 1
  decide +kernel

end QuboReduction

import QuboReduction.Proofs.ProductTable
import QuboReduction.Proofs.Refinement

/-!
# Products become variables

The stage first adds a variable for each product of two different binary variables, then ties each
of them to its product and rewrites all expressions. Where the ties hold, a variable of the table is
the product that it stands for, so rewriting keeps values.

## Main definitions

* `QuboReduction.ProductTable.Agrees` — the variables of the table are their products.
* `QuboReduction.Problem.Tabled` — what holds after each pair.

## Main results

* `QuboReduction.holds_productConstraints_iff` — the ties say that a variable is a product.
* `QuboReduction.Problem.value_linearPart` — rewriting keeps values.
* `QuboReduction.Problem.linearize_ok`, `QuboReduction.Problem.linearize_refines` — what the stage
  leaves.
-/

namespace QuboReduction

/-- Each variable of the table is the product that it stands for. -/
def ProductTable.Agrees (table : ProductTable) (x : Nat → Rat) : Prop :=
  ∀ e ∈ table, x e.2 = e.1.product x

/-! ### Ties -/

/-- **Ties.** Among zeros and ones the three constraints say that a variable is the product of two
others. -/
theorem holds_productConstraints_iff {name : String} {pair : Pair} {index : Nat} {x : Nat → Rat}
    (hz : x index = 0 ∨ x index = 1) (hlow : x pair.low = 0 ∨ x pair.low = 1)
    (hhigh : x pair.high = 0 ∨ x pair.high = 1) :
    (∀ c ∈ Problem.productConstraints name pair index, c.Holds x) ↔ x index = pair.product x := by
  have htwo : ∀ i, (Terms.ofList [(index, 1), (i, -1)] : Linear Rat).value x = x index - x i :=
    fun i => by simp [sub_eq_add_neg]
  have hthree : (Terms.ofList [(index, 1), (pair.low, -1), (pair.high, -1)] : Linear Rat).value x =
      x index - x pair.low - x pair.high := by simp [sub_eq_add_neg, add_assoc]
  have hholds : (∀ c ∈ Problem.productConstraints name pair index, c.Holds x) ↔
      x index - x pair.low ≤ 0 ∧ x index - x pair.high ≤ 0 ∧
        -1 ≤ x index - x pair.low - x pair.high := by
    simp only [Problem.productConstraints, List.forall_mem_cons, List.not_mem_nil, false_imp_iff,
      implies_true, and_true, Constraint.Holds, Constraint.ofLinear, Constraint.evaluate_eq,
      Relation.Holds, htwo, hthree, Terms.value_empty, add_zero]
  rw [hholds, Pair.product]
  rcases hz with hz | hz <;> rcases hlow with hlow | hlow <;> rcases hhigh with hhigh | hhigh <;>
    rw [hz, hlow, hhigh] <;> norm_num

namespace Problem

variable {p q q' : Problem Rat} {table table' : ProductTable} {pair : Pair} {s t : List Rat}
  {x : Nat → Rat}

/-! ### Rewriting -/

theorem linearized?_value (htable : table.Agrees x) (hbits : p.BitsAt x) {t : Pair × Rat}
    {u : Nat × Rat} (h : p.linearized? table t = some u) :
    u.2 * x u.1 = t.2 * t.1.product x := by
  rw [linearized?] at h
  split at h
  · rename_i index hindex
    rw [← Option.some.inj h, htable _ (ProductTable.mem_of_indexOf? hindex)]
  · split at h
    · rename_i hsquare
      obtain ⟨hsquare, hbinary⟩ := Bool.and_eq_true_iff.mp hsquare
      have heq : t.1.low = t.1.high := by simpa [Pair.isSquare] using hsquare
      rw [← Option.some.inj h, Pair.product, ← heq]
      rcases hbits _ hbinary with h | h <;> simp [h]
    · contradiction

/-- Rewriting keeps the value of an expression. -/
theorem value_linearPart (htable : table.Agrees x) (hbits : p.BitsAt x) (linear : Linear Rat)
    (quadratic : Quadratic Rat) :
    (p.linearPart table linear quadratic).value x +
        (p.quadraticPart table quadratic).value (Pair.product x) =
      linear.value x + quadratic.value (Pair.product x) := by
  rw [linearPart, quadraticPart, Terms.value_addTerms, Terms.value_ofList, add_assoc]
  congr 1
  rw [Terms.value]
  induction quadratic.toList with
  | nil => simp
  | cons t l ih =>
    rw [List.map_cons, List.sum_cons, ← ih]
    cases h : p.linearized? table t with
    | none =>
      rw [List.filterMap_cons_none h, List.filter_cons_of_pos (by simp [h]), List.map_cons,
        List.sum_cons]
      ring
    | some u =>
      rw [List.filterMap_cons_some h, List.filter_cons_of_neg (by simp [h]), List.map_cons,
        List.sum_cons, linearized?_value htable hbits h]
      ring

theorem evaluate_linearizedObjective (htable : table.Agrees x) (hbits : p.BitsAt x) :
    (p.linearizedObjective table).evaluate x = p.objective.evaluate x := by
  have h := value_linearPart htable hbits p.objective.polynomial.linear
    p.objective.polynomial.quadratic
  rw [Objective.evaluate, Polynomial.evaluate_eq, Objective.evaluate, Polynomial.evaluate_eq,
    add_assoc, add_assoc, ← h]
  rfl

theorem evaluate_linearizedConstraint (htable : table.Agrees x) (hbits : p.BitsAt x)
    (c : Constraint Rat) : (p.linearizedConstraint table c).evaluate x = c.evaluate x := by
  have h := value_linearPart htable hbits c.linear c.quadratic
  rw [Constraint.evaluate_eq, Constraint.evaluate_eq, ← h]
  rfl

theorem holds_linearizedConstraint_iff (htable : table.Agrees x) (hbits : p.BitsAt x)
    {c : Constraint Rat} : (p.linearizedConstraint table c).Holds x ↔ c.Holds x := by
  rw [Constraint.Holds, Constraint.Holds, evaluate_linearizedConstraint htable hbits]
  rfl

/-! ### One more product -/

theorem isBinaryAt_declare {i : Nat} (h : p.isBinaryAt i = true) (name : String) (domain : Domain) :
    (p.declare name domain).isBinaryAt i = true := by
  obtain ⟨v, hv, hbinary⟩ := (Option.any_eq_true _ _).mp h
  rw [isBinaryAt, variableAt?_declare hv]
  exact hbinary

theorem isBinaryAt_declare_size (p : Problem Rat) (name : String) :
    (p.declare name .binary).isBinaryAt p.size = true := by
  rw [isBinaryAt, variableAt?_declare_size]
  rfl

/-- What holds of the problem under construction and the table. -/
structure Tabled (p q : Problem Rat) (table : ProductTable) : Prop where
  /-- The problem is well-formed. -/
  wellFormed : q.WellFormed
  /-- There are no constraints yet. -/
  constraints_eq : q.constraints = []
  /-- The variables stay, and others follow. -/
  vars_eq : ∃ extra, q.vars = p.vars ++ extra
  /-- The table has products of binary variables, each with a binary variable. -/
  entries : ∀ e ∈ table, p.isProduct e.1 = true ∧ q.isBinaryAt e.2 = true
  /-- The new variables can be given the values of the products. -/
  complete : ∀ s, p.Admissible s → ∃ u, q.Admissible (s ++ u) ∧ table.Agrees (valueAt (s ++ u))

theorem Tabled.size_le (h : p.Tabled q table) : p.size ≤ q.size := by
  obtain ⟨extra, hvars⟩ := h.vars_eq
  simp [size, hvars]

/-- The product of two binary variables is zero or one. -/
theorem product_bits (h : p.isProduct pair = true) (hbits : p.BitsAt x) :
    pair.product x = 0 ∨ pair.product x = 1 := by
  obtain ⟨hlow, hhigh⟩ := isProduct_isBinaryAt h
  rw [Pair.product]
  rcases hbits _ hlow with h | h <;> rcases hbits _ hhigh with h' | h' <;> simp [h, h']

theorem product_append {u : List Rat} (h : p.isProduct pair = true) (hs : p.size ≤ s.length) :
    pair.product (valueAt (s ++ u)) = pair.product (valueAt s) := by
  obtain ⟨hlow, hhigh⟩ := isProduct_isBinaryAt h
  rw [Pair.product, Pair.product, valueAt_append_left ((isBinaryAt_lt hlow).trans_le hs),
    valueAt_append_left ((isBinaryAt_lt hhigh).trans_le hs)]

/-- **One more pair.** A step adds a variable for a product that has none yet. -/
theorem Tabled.step (h : p.Tabled q table)
    (hstep : p.addProduct (q, table) pair = .ok (q', table')) : p.Tabled q' table' := by
  rcases addProduct_ok hstep with ⟨⟨hproduct, -⟩, hadd, rfl⟩ | ⟨-, rfl, rfl⟩
  · have hwellFormed := h.wellFormed.of_addVariable hadd
    obtain ⟨-, -, rfl, -⟩ := addVariable_eq_ok_iff.mp hadd
    obtain ⟨extra, hvars⟩ := h.vars_eq
    refine {
      wellFormed := hwellFormed
      constraints_eq := h.constraints_eq
      vars_eq := ⟨extra ++ [⟨p.productName pair, .binary, q.size⟩], by simp [declare, hvars]⟩
      entries := fun e he => ?_
      complete := fun s hs => ?_ }
    · rcases ProductTable.mem_insert_iff.mp he with rfl | he
      · exact ⟨hproduct, q.isBinaryAt_declare_size _⟩
      · exact ⟨(h.entries e he).1, isBinaryAt_declare (h.entries e he).2 _ _⟩
    · obtain ⟨u, hu, hagrees⟩ := h.complete s hs
      have hlen : p.size ≤ (s ++ u).length := h.size_le.trans hu.length_eq.ge
      have hbit : Domain.binary.Admits (pair.product (valueAt (s ++ u))) := by
        rw [product_append hproduct hs.length_eq.ge]
        exact (Domain.admits_binary_iff rfl).mpr (product_bits hproduct hs.bitsAt)
      refine ⟨u ++ [pair.product (valueAt (s ++ u))], ?_, fun e he => ?_⟩
      · rw [← List.append_assoc]
        exact admissible_declare_iff.mpr ⟨s ++ u, _, rfl, hu, hbit⟩
      · rw [← List.append_assoc]
        rcases ProductTable.mem_insert_iff.mp he with rfl | he
        · rw [product_append hproduct hlen, ← hu.length_eq, valueAt_append_right le_rfl]
          simp [valueAt]
        · have hindex := isBinaryAt_lt (h.entries e he).2
          rw [product_append (h.entries e he).1 hlen,
            valueAt_append_left (hindex.trans_le hu.length_eq.ge)]
          exact hagrees e he
  · exact h

/-! ### The stage -/

private theorem tabled_start (hp : p.WellFormed) : p.Tabled p.variablesOnly [] where
  wellFormed := hp.variablesOnly
  constraints_eq := rfl
  vars_eq := ⟨[], by simp [variablesOnly]⟩
  entries := by simp
  complete s hs := ⟨[], by rw [List.append_nil]; exact ⟨hs, by simp [ProductTable.Agrees]⟩⟩

theorem Tabled.bitsAt (h : p.Tabled q table) (hx : q.BitsAt x) : p.BitsAt x := by
  obtain ⟨extra, hvars⟩ := h.vars_eq
  intro i hi
  refine hx i ?_
  have hlt : i < p.vars.length := isBinaryAt_lt hi
  rwa [isBinaryAt, variableAt?, hvars, List.getElem?_append_left hlt]

/-- The ties hold where the table agrees. -/
theorem Tabled.holds_ties_iff (h : p.Tabled q table) (hx : q.BitsAt x) :
    (∀ c ∈ ties q table, c.Holds x) ↔ table.Agrees x := by
  have hp := h.bitsAt hx
  simp only [ties, List.forall_mem_flatMap, ProductTable.Agrees]
  refine forall₂_congr fun e he => ?_
  obtain ⟨hproduct, hbinary⟩ := h.entries e he
  obtain ⟨hlow, hhigh⟩ := isProduct_isBinaryAt hproduct
  exact holds_productConstraints_iff (hx _ hbinary) (hp _ hlow) (hp _ hhigh)

/-- **What the stage leaves.** The variables of the source are followed by those of a table, which
has the products of the source, and the ties are followed by the rewritten constraints. -/
theorem linearize_ok (hp : p.WellFormed) {r : Record Rat} (h : p.linearize = .ok (q, r)) :
    ∃ q₁ table, p.Tabled q₁ table ∧ p.Listed p.allPairs q₁ table ∧
      q = p.linearizedOn q₁ table ∧
      r = ⟨.quadraticToLinear, p.size, q.size, Record.keepAll p.size, table.map fun e => e.2,
        false⟩ := by
  obtain ⟨q₁, table, hrun, hq, hr⟩ := exists_linearizedOn hp h
  have htabled : p.Tabled q₁ table :=
    foldlM_ok_of_step (motive := fun _ state => p.Tabled state.1 state.2) (tabled_start hp)
      (fun _ _ _ _ _ _ h hstep => h.step hstep) hrun
  exact ⟨q₁, table, htabled, listed_of_run hrun, hq, hr⟩

/-- **The stage refines** the problem. -/
theorem linearize_refines (hp : p.WellFormed) {r : Record Rat} (h : p.linearize = .ok (q, r)) :
    r.Refines p q := by
  have hwellFormed := Stage.wellFormed_of_apply (s := .quadraticToLinear) hp h
  obtain ⟨q₁, table, htabled, -, rfl, rfl⟩ := linearize_ok hp h
  obtain ⟨extra, hvars⟩ := htabled.vars_eq
  -- Feasibility of the result in terms of the problem before its constraints were added.
  have hfeasible : ∀ t, q₁.Admissible t → ((∀ c ∈ ties q₁ table ++
      p.constraints.map (p.linearizedConstraint table), c.Holds (valueAt t)) ↔
      table.Agrees (valueAt t) ∧ ∀ c ∈ p.constraints, c.Holds (valueAt t)) := by
    intro t ht
    rw [List.forall_mem_append, htabled.holds_ties_iff ht.bitsAt, List.forall_mem_map]
    refine and_congr_right fun hagrees => forall₂_congr fun c _ => ?_
    exact holds_linearizedConstraint_iff hagrees (htabled.bitsAt ht.bitsAt)
  refine Record.refines_of_keepAll hwellFormed rfl rfl rfl rfl htabled.size_le (fun t ht => ?_)
    (fun t ht => ?_) fun s hs => ?_
  · obtain ⟨-, hholds⟩ := (hfeasible t ht.1).mp ht.2
    refine ⟨Admissible.take hvars ht.1, fun c hc => ?_⟩
    rw [Constraint.holds_take_iff (hp.constraint_below c hc)]
    exact hholds c hc
  · obtain ⟨hagrees, -⟩ := (hfeasible t ht.1).mp ht.2
    refine (evaluate_linearizedObjective hagrees (htabled.bitsAt ht.1.bitsAt)).trans ?_
    exact Polynomial.evaluate_congr hp.objective_below fun i hi => (valueAt_take hi).symm
  · obtain ⟨u, hu, hagrees⟩ := htabled.complete s hs.1
    refine ⟨u, hu, (hfeasible _ hu).mpr ⟨hagrees, fun c hc => ?_⟩⟩
    rw [Constraint.holds_append_iff ((hp.constraint_below c hc).mono hs.1.length_eq.ge)]
    exact hs.2 c hc

end Problem

end QuboReduction

import QuboReduction.Proofs.Products

/-!
# Values of variables for products

Every variable that the stage for products adds is tied to a product, so the other variables
determine it: the feasible vectors after the stage correspond one to one to those before it. Nothing
depends on feasibility but the constraints of the source: any admissible vector, feasible or not, is
continued by the products of its entries to an admissible vector that satisfies all ties, and there
the objective and the left-hand side of each constraint have the values that they had.

## Main definitions

* `QuboReduction.Constraint.SameSides` — constraints with the same sides at two vectors.

## Main results

* `QuboReduction.Problem.linearize_determinedBy` — the other variables determine feasible vectors.
* `QuboReduction.Problem.linearize_bijOn` — the correspondence, and what becomes of vectors that are
  not feasible.
-/

namespace QuboReduction

/-- A constraint `d` is at a vector `t` what the constraint `c` is at the vector `s`. -/
structure Constraint.SameSides (c : Constraint Rat) (s : List Rat) (d : Constraint Rat)
    (t : List Rat) : Prop where
  /-- The name is the same. -/
  name_eq : d.name = c.name
  /-- The relation is the same. -/
  relation_eq : d.relation = c.relation
  /-- The right-hand side is the same. -/
  rhs_eq : d.rhs = c.rhs
  /-- The left-hand sides have the same value. -/
  evaluate_eq : d.evaluate (valueAt t) = c.evaluate (valueAt s)

namespace Problem

variable {p q q₁ : Problem Rat} {r : Record Rat} {table : ProductTable} {done : List Pair}
  {s t u : List Rat}

/-! ### Vectors are determined -/

/-- A product of variables that are kept depends on these only. -/
private theorem product_eq_of_take_eq {pair : Pair} (h : p.isProduct pair = true)
    (htake : t.take p.size = u.take p.size) :
    pair.product (valueAt t) = pair.product (valueAt u) := by
  have hvalue : ∀ i, p.isBinaryAt i = true → valueAt t i = valueAt u i := fun i hi => by
    rw [← valueAt_take (isBinaryAt_lt hi), htake, valueAt_take (isBinaryAt_lt hi)]
  obtain ⟨hlow, hhigh⟩ := isProduct_isBinaryAt h
  rw [Pair.product, Pair.product, hvalue _ hlow, hvalue _ hhigh]

/-- Where the table agrees, the variables that are kept determine a vector. -/
theorem Listed.eq_of_agrees (h : p.Listed done q table) (ht : t.length = q.size)
    (hu : u.length = q.size) (htable : table.Agrees (valueAt t))
    (htable' : table.Agrees (valueAt u)) (htake : t.take p.size = u.take p.size) : t = u := by
  refine List.ext_getElem (ht.trans hu.symm) fun i hi hi' => ?_
  rw [← valueAt_of_lt hi, ← valueAt_of_lt hi']
  rcases Nat.lt_or_ge i p.size with hold | hnew
  · rw [← valueAt_take hold, htake, valueAt_take hold]
  · obtain ⟨e, he, rfl⟩ := List.mem_map.mp (h.mem_indices_iff.mpr ⟨hnew, ht ▸ hi⟩)
    rw [htable e he, htable' e he, product_eq_of_take_eq (h.isProduct he) htake]

/-- After the stage the variables of the source determine feasible vectors. -/
theorem linearize_determinedBy (hp : p.WellFormed) (h : p.linearize = .ok (q, r)) :
    q.DeterminedBy p.size := by
  obtain ⟨q₁, table, htabled, hlisted, rfl, -⟩ := linearize_ok hp h
  intro t u ht hu htake
  have hagrees : ∀ v, q₁.Admissible v → (∀ c ∈ ties q₁ table ++
      p.constraints.map (p.linearizedConstraint table), c.Holds (valueAt v)) →
      table.Agrees (valueAt v) := fun v hv hholds =>
    (htabled.holds_ties_iff hv.bitsAt).mp fun c hc => hholds c (List.mem_append_left _ hc)
  exact hlisted.eq_of_agrees ht.1.length_eq hu.1.length_eq (hagrees t ht.1 ht.2)
    (hagrees u hu.1 hu.2) htake

/-! ### Vectors are continued -/

/-- The ties are those of the variables for the products. -/
theorem Listed.ties_eq (h : p.Listed done q table) :
    ties q table = table.flatMap fun e => productConstraints (p.productName e.1) e.1 e.2 :=
  List.flatMap_congr fun e he => by rw [h.nameAt_eq he]

/-- Whatever follows an admissible vector, the binary variables of the source are zero or one. -/
private theorem bitsAt_append (hs : p.Admissible s) (u : List Rat) : p.BitsAt (valueAt (s ++ u)) :=
  fun i hi => by
    rw [valueAt_append_left ((isBinaryAt_lt hi).trans_le hs.length_eq.ge)]
    exact hs.bitsAt i hi

/-- Where the table agrees, each rewritten constraint has the sides of its source. -/
theorem sameSides_linearized (hp : p.WellFormed) (hs : p.Admissible s)
    (hagrees : table.Agrees (valueAt (s ++ u))) :
    List.Forall₂ (fun c d => c.SameSides s d (s ++ u)) p.constraints
      (p.constraints.map (p.linearizedConstraint table)) := by
  rw [List.forall₂_map_right_iff, List.forall₂_same]
  intro c hc
  refine ⟨rfl, rfl, rfl, ?_⟩
  rw [evaluate_linearizedConstraint hagrees (bitsAt_append hs u)]
  exact Constraint.evaluate_congr (hp.constraint_below c hc) fun i hi =>
    valueAt_append_left (hi.trans_le hs.length_eq.ge)

/-- Where the table agrees, the objective has the value that it had. -/
theorem evaluate_linearizedObjective_append (hp : p.WellFormed) (hs : p.Admissible s)
    (hagrees : table.Agrees (valueAt (s ++ u))) :
    (p.linearizedObjective table).evaluate (valueAt (s ++ u)) = p.value s := by
  rw [evaluate_linearizedObjective hagrees (bitsAt_append hs u)]
  exact Polynomial.evaluate_congr hp.objective_below fun i hi =>
    valueAt_append_left (hi.trans_le hs.length_eq.ge)

/-! ### The stage -/

/-- **Variables for products add nothing and lose nothing.** The record of the stage for products
takes the feasible vectors of the result back to those of the source, one to one, and objective
values stay. The new variables are those of a table, which has exactly the products of the source,
and their ties come before the rewritten constraints. Every admissible vector of the source,
feasible or not, can be continued by the products to an admissible vector of the result that
satisfies all ties, where the rewritten constraints have the sides that they had at the vector, and
the objective has the value that it had. -/
theorem linearize_bijOn (hp : p.Built) (h : p.linearize = .ok (q, r)) :
    (Set.BijOn r.back {t | q.isFeasible t 0 = .ok true} {s | p.isFeasible s 0 = .ok true} ∧
      ∀ t, q.isFeasible t 0 = .ok true →
        (∀ position, r.interpret position t = .ok (r.back t)) ∧
          ∃ value, q.evaluateObjective t = .ok value ∧
            p.evaluateObjective (r.back t) = .ok value) ∧
    ∃ (table : ProductTable) (ties rewritten : List (Constraint Rat)),
      r.auxiliary = table.map (fun e => e.2) ∧
      (∀ pair, pair ∈ table.map Prod.fst ↔ pair ∈ p.products) ∧
      ties = table.flatMap (fun e => productConstraints (p.productName e.1) e.1 e.2) ∧
      q.constraints = ties ++ rewritten ∧
      ∀ s, p.Admissible s → ∃ u, q.Admissible (s ++ u) ∧
        (∀ position, r.interpret position (s ++ u) = .ok s) ∧
        table.Agrees (valueAt (s ++ u)) ∧ (∀ c ∈ ties, c.Holds (valueAt (s ++ u))) ∧
        List.Forall₂ (fun c d => c.SameSides s d (s ++ u)) p.constraints rewritten ∧
        ∃ value, p.evaluateObjective s = .ok value ∧ q.evaluateObjective (s ++ u) = .ok value := by
  have hp := hp.wellFormed
  have hrefines := linearize_refines hp h
  have hdetermined := linearize_determinedBy hp h
  obtain ⟨q₁, table, htabled, hlisted, rfl, rfl⟩ := linearize_ok hp h
  refine ⟨hrefines.bijOn hp rfl rfl htabled.size_le hdetermined, table, ties q₁ table, _, rfl,
    fun pair => (hlisted.mem_pairs_iff pair).trans List.mem_filter.symm, hlisted.ties_eq, rfl,
    fun s hs => ?_⟩
  obtain ⟨u, hu, hagrees⟩ := htabled.complete s hs
  refine ⟨u, hu, fun position => ?_, hagrees, (htabled.holds_ties_iff hu.bitsAt).mpr hagrees,
    sameSides_linearized hp hs hagrees, p.value s, evaluateObjective_of_length hs.length_eq, ?_⟩
  · refine (hrefines.wellShaped.interpret_eq hu.length_eq position).trans (congrArg Except.ok ?_)
    rw [Record.back_of_keepAll rfl (htabled.size_le.trans hu.length_eq.ge), ← hs.length_eq,
      List.take_left]
  · refine (evaluateObjective_of_length ?_).trans (congrArg Except.ok ?_)
    · exact hu.length_eq
    · exact evaluate_linearizedObjective_append hp hs hagrees

end Problem

/-- Maximize `2xz + x² + zn` for binary `x`, `y` and `z` and an integer `n`, subject to
`xy + yz - n² ≤ 1` and `x + y + z ≥ 1`. Three products share their factors, and the one that is
found first is not the first in the order of the table; a square of a binary variable becomes the
variable, and two terms with the integer variable stay of degree two. -/
def branching : Problem Rat where
  name := "branching"
  vars := [⟨"x", .binary, 0⟩, ⟨"y", .binary, 1⟩, ⟨"z", .binary, 2⟩, ⟨"n", .integer (-1) 2, 3⟩]
  objective := ⟨.maximize, ⟨0, Terms.empty,
    Quadratic.ofProducts [(0, 2, 2), (0, 0, 1), (2, 3, 1)]⟩⟩
  constraints := [
    ⟨"bent", Terms.empty, Quadratic.ofProducts [(0, 1, 1), (1, 2, 1), (3, 3, -1)], .le, 1⟩,
    .ofLinear "some" (Terms.ofList [(0, 1), (1, 1), (2, 1)]) .ge 1]

theorem branching_built : branching.Built := Problem.built_iff_assemble_eq.mpr rfl

/-- For the feasible vector `[1, 1, 1, 1]` of the branching problem there is just one feasible
vector after the stage. The vector `[1, 1, 1, 0]`, which is not feasible, is continued all the same,
and its objective value is kept. -/
theorem branching_bijOn :
    ∃ q r, branching.linearize = .ok (q, r) ∧ r.auxiliary = [5, 4, 6] ∧
      Set.BijOn r.back {t | q.isFeasible t 0 = .ok true}
        {s | branching.isFeasible s 0 = .ok true} ∧
      (∃! t, q.isFeasible t 0 = .ok true ∧ r.interpret 0 t = .ok [1, 1, 1, 1]) ∧
      ¬branching.Feasible [1, 1, 1, 0] ∧
      ∃ u, q.Admissible ([1, 1, 1, 0] ++ u) ∧
        r.interpret 0 ([1, 1, 1, 0] ++ u) = .ok [1, 1, 1, 0] ∧
        q.evaluateObjective ([1, 1, 1, 0] ++ u) = .ok 3 := by
  have hrun : branching.linearize.toOption.map (fun result => result.2.auxiliary) =
      some [5, 4, 6] := by decide +kernel
  have hok : branching.linearize.isOk = true := by decide +kernel
  obtain ⟨⟨q, r⟩, h⟩ := isOk_iff.mp hok
  rw [h] at hrun
  obtain ⟨⟨hbij, hrecord⟩, table, ties, rewritten, -, -, -, -, hcontinued⟩ :=
    Problem.linearize_bijOn branching_built h
  have hfeasible : branching.isFeasible [1, 1, 1, 1] 0 = .ok true :=
    (Problem.isFeasible_zero_iff branching_built.wellFormed).mpr (by decide +kernel)
  obtain ⟨t, ht, hback⟩ := hbij.surjOn hfeasible
  refine ⟨q, r, h, Option.some.inj hrun, hbij, ⟨t, ⟨ht, hback ▸ (hrecord t ht).1 0⟩, ?_⟩,
    by decide +kernel, ?_⟩
  · rintro u ⟨hu, hinterpret⟩
    rw [(hrecord u hu).1 0, Except.ok.injEq] at hinterpret
    exact hbij.injOn hu ht (hinterpret.trans hback.symm)
  · obtain ⟨u, hu, hinterpret, -, -, -, value, hvalue, htarget⟩ :=
      hcontinued [1, 1, 1, 0] (by decide +kernel)
    have hthree : branching.value [1, 1, 1, 0] = 3 := by decide +kernel
    rw [Problem.evaluateObjective_of_length rfl, hthree] at hvalue
    exact ⟨u, hu, hinterpret 0, htarget.trans hvalue.symm⟩

end QuboReduction

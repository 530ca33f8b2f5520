import QuboReduction.Proofs.Idempotence
import QuboReduction.Proofs.ProductValues
import QuboReduction.Proofs.Reachable

/-!
# Problems without products of binary variables

The stage for products looks at all expressions of a problem three times: to find the products, to
tie variables to them and to rewrite the terms. The term of a product is rewritten wherever it
stands, since the table has the products of all expressions, and squares of binary variables need
no table. So after the stage no term of degree two has two binary factors, and a problem of which
this holds is what the stage leaves unchanged. All this holds over any scalars.

## Main definitions

* `QuboReduction.Problem.ProductFree` — no term of degree two has two binary factors.

## Main results

* `QuboReduction.Problem.productFree_of_linearize` — what the stage leaves.
* `QuboReduction.Problem.linearize_of_productFree` — the stage has nothing to do.
* `QuboReduction.Problem.ProductFree.isEmpty_of_binary` — without integer variables nothing of
  degree two is left.
* `QuboReduction.Problem.linearize_idempotent` — a second run.
-/

namespace QuboReduction

namespace Problem

variable {α : Type} [Scalar α] {p q : Problem α} {table : ProductTable} {e : Quadratic α}

/-- No term of degree two has two binary factors, whether they are different or the same. -/
def ProductFree (p : Problem α) : Prop :=
  ∀ e ∈ p.quadratics, ∀ t ∈ e.toList,
    ¬(p.isBinaryAt t.1.low = true ∧ p.isBinaryAt t.1.high = true)

/-- The stage looks for products in all expressions of degree two. -/
theorem allPairs_eq (p : Problem α) : p.allPairs = p.quadratics.flatMap Terms.keys := by
  rw [allPairs, quadratics, List.flatMap_cons, List.flatMap_map]

/-! ### What the stage leaves -/

/-- The variables of the problem are what they were. -/
theorem Listed.isBinaryAt_eq {done : List Pair} (h : p.Listed done q table) {i : Nat}
    (hi : i < p.size) : q.isBinaryAt i = p.isBinaryAt i := by
  obtain ⟨extra, hvars⟩ := h.exists_vars_eq
  rw [isBinaryAt, isBinaryAt, variableAt?, variableAt?, hvars, List.getElem?_append_left hi]

/-- **A term that stays** has a factor that is not binary. A product of two binary variables is in
the table, wherever it was found first, and a square of one becomes the variable. -/
theorem Listed.not_isBinaryAt_of_stays (h : p.Listed p.allPairs q table) (he : e ∈ p.quadratics)
    {t : Pair × α} (ht : t ∈ e.toList) (hstays : p.linearized? table t = none) :
    ¬(p.isBinaryAt t.1.low = true ∧ p.isBinaryAt t.1.high = true) := by
  rintro ⟨hlow, hhigh⟩
  have hpair : t.1 ∈ p.allPairs := by
    rw [allPairs_eq]
    exact List.mem_flatMap.mpr ⟨e, he, List.mem_map_of_mem ht⟩
  rw [linearized?] at hstays
  split at hstays
  · contradiction
  · rename_i hnone
    have hsquare : t.1.isSquare = false := by
      by_contra hsquare
      rw [Bool.not_eq_false] at hsquare
      simp [hsquare, hlow] at hstays
    have hproduct : p.isProduct t.1 = true := by
      rw [Problem.isProduct, hsquare, hlow, hhigh]
      rfl
    exact ProductTable.indexOf?_eq_none_iff.mp hnone ((h.mem_pairs_iff t.1).mpr ⟨hpair, hproduct⟩)

/-- The expressions of degree two after the stage are those before it without the terms that were
rewritten, and those of ties, which have no terms. -/
theorem quadratics_linearizedOn (he : e ∈ (p.linearizedOn q table).quadratics) :
    e = Terms.empty ∨ ∃ f ∈ p.quadratics, e = p.quadraticPart table f := by
  rcases List.mem_cons.mp he with rfl | he
  · exact Or.inr ⟨_, List.mem_cons_self, rfl⟩
  · obtain ⟨c, hc, rfl⟩ := List.mem_map.mp he
    rcases List.mem_append.mp hc with hc | hc
    · obtain ⟨entry, -, hc⟩ := List.mem_flatMap.mp hc
      simp only [productConstraints, List.mem_cons, List.not_mem_nil, or_false] at hc
      rcases hc with rfl | rfl | rfl <;> exact Or.inl rfl
    · obtain ⟨d, hd, rfl⟩ := List.mem_map.mp hc
      exact Or.inr ⟨d.quadratic, List.mem_cons_of_mem _ (List.mem_map_of_mem hd), rfl⟩

/-- **No products are left.** -/
theorem productFree_of_linearize (hp : p.WellFormed) {r : Record α}
    (h : p.linearize = .ok (q, r)) : q.ProductFree := by
  obtain ⟨q₁, table, hrun, rfl, -⟩ := exists_linearizedOn hp h
  have hlisted := listed_of_run hrun
  intro e he
  rcases quadratics_linearizedOn he with rfl | ⟨f, hf, rfl⟩
  · simp [Terms.empty]
  · have hwithin : (p.quadraticPart table f).Within fun pair =>
        ¬(q₁.isBinaryAt pair.low = true ∧ q₁.isBinaryAt pair.high = true) := by
      refine Terms.Within.ofList fun t ht => ?_
      obtain ⟨ht, hstays⟩ := List.mem_filter.mp ht
      have hhigh : t.1.high < p.size := hp.quadratic_below hf t ht
      rw [hlisted.isBinaryAt_eq hhigh, hlisted.isBinaryAt_eq (t.1.low_le_high.trans_lt hhigh)]
      exact hlisted.not_isBinaryAt_of_stays hf ht (Option.isNone_iff_eq_none.mp hstays)
    exact hwithin

/-! ### Nothing to do -/

/-- Pairs that are no products get no variables. -/
theorem foldlM_addProduct_of_none {pairs : List Pair}
    (h : ∀ pair ∈ pairs, p.isProduct pair = false) (state : Problem α × ProductTable) :
    pairs.foldlM p.addProduct state = .ok state := by
  induction pairs with
  | nil => rfl
  | cons pair pairs ih =>
    obtain ⟨hpair, hpairs⟩ := List.forall_mem_cons.mp h
    have hstep : p.addProduct state pair = .ok state := by
      simp only [addProduct, hpair, Bool.false_and, Bool.false_eq_true, if_false]
      rfl
    rw [List.foldlM_cons, hstep, ok_bind, ih hpairs]

namespace ProductFree

theorem isProduct_eq_false (h : p.ProductFree) :
    ∀ pair ∈ p.allPairs, p.isProduct pair = false := by
  intro pair hpair
  rw [allPairs_eq] at hpair
  obtain ⟨e, he, hpair⟩ := List.mem_flatMap.mp hpair
  obtain ⟨t, ht, rfl⟩ := List.mem_map.mp hpair
  rw [Bool.eq_false_iff]
  exact fun hproduct => h e he t ht (isProduct_isBinaryAt hproduct)

/-- Without a table every term stays. -/
theorem linearized?_eq_none (h : p.ProductFree) (he : e ∈ p.quadratics) :
    ∀ t ∈ e.toList, p.linearized? [] t = none := by
  intro t ht
  have hsquare : (t.1.isSquare && p.isBinaryAt t.1.low) = false := by
    rw [Bool.eq_false_iff]
    intro hsquare
    obtain ⟨hsquare, hlow⟩ := Bool.and_eq_true_iff.mp hsquare
    have heq : t.1.low = t.1.high := by simpa [Pair.isSquare] using hsquare
    exact h e he t ht ⟨hlow, heq ▸ hlow⟩
  rw [linearized?, hsquare]
  rfl

theorem linearPart_eq (h : p.ProductFree) (he : e ∈ p.quadratics) (linear : Linear α) :
    p.linearPart [] linear e = linear := by
  rw [linearPart, List.filterMap_eq_nil_iff.mpr (h.linearized?_eq_none he)]
  rfl

theorem quadraticPart_eq (h : p.ProductFree) (he : e ∈ p.quadratics) :
    p.quadraticPart [] e = e := by
  rw [quadraticPart, List.filter_eq_self.mpr fun t ht => by rw [h.linearized?_eq_none he t ht]; rfl,
    Terms.ofList_toList]

theorem linearizedObjective_eq (h : p.ProductFree) :
    p.linearizedObjective [] = p.objective := by
  have he : p.objective.polynomial.quadratic ∈ p.quadratics := List.mem_cons_self
  simp only [linearizedObjective, h.linearPart_eq he, h.quadraticPart_eq he]

theorem linearizedConstraint_eq (h : p.ProductFree) {c : Constraint α} (hc : c ∈ p.constraints) :
    p.linearizedConstraint [] c = c := by
  have he : c.quadratic ∈ p.quadratics := List.mem_cons_of_mem _ (List.mem_map_of_mem hc)
  simp only [linearizedConstraint, h.linearPart_eq he, h.quadraticPart_eq he]

end ProductFree

/-- **Nothing to do.** The stage leaves a problem without products as it is. -/
theorem linearize_of_productFree (hp : p.WellFormed) (h : p.ProductFree) :
    p.linearize = .ok (p, Record.identity .quadraticToLinear p.size) := by
  have hrun := foldlM_addProduct_of_none h.isProduct_eq_false (p.variablesOnly, [])
  have hties : p.variablesOnly.addConstraints [] = .ok p.variablesOnly := rfl
  have hobjective : p.variablesOnly.setObjective (p.linearizedObjective []) =
      .ok { p.variablesOnly with objective := p.objective } := by
    rw [h.linearizedObjective_eq]
    exact setObjective_eq_ok_iff.mpr ⟨hp.objective_below, rfl⟩
  have hconstraints : ({ p.variablesOnly with objective := p.objective } : Problem α).addConstraints
      (p.constraints.map (p.linearizedConstraint [])) = .ok p := by
    have hsame : p.constraints.map (p.linearizedConstraint []) = p.constraints :=
      (List.map_congr_left fun c hc => h.linearizedConstraint_eq hc).trans (List.map_id _)
    rw [hsame]
    exact (addConstraints_eq_ok_iff hp.constraint_named (by simp [variablesOnly])).mpr
      ⟨hp.constraint_below, by simpa [variablesOnly] using hp.constraintNames_nodup,
        by simp [variablesOnly]⟩
  simp only [linearize, hrun, ok_bind, List.flatMap_nil, hties, ofBuilding, hobjective,
    hconstraints]
  rfl

/-! ### Binary variables only -/

/-- The stage adds binary variables only. -/
theorem Listed.binary {done : List Pair} (h : p.Listed done q table)
    (hbinary : ∀ v ∈ p.vars, v.isBinary = true) {i : Nat} (hi : i < q.size) :
    q.isBinaryAt i = true := by
  rcases Nat.lt_or_ge i p.size with hold | hnew
  · obtain ⟨v, hv, hat⟩ := exists_variableAt? hold
    rw [h.isBinaryAt_eq hold, isBinaryAt, hat]
    exact hbinary v hv
  · obtain ⟨e, he, rfl⟩ := h.exists_entry hnew hi
    rw [isBinaryAt, h.entries e he]
    rfl

/-- Without products and without integer variables nothing of degree two is left. -/
theorem ProductFree.isEmpty_of_binary (h : q.ProductFree) (hq : q.WellFormed)
    (hbinary : ∀ i < q.size, q.isBinaryAt i = true) (he : e ∈ q.quadratics) :
    e.isEmpty = true := by
  rw [Terms.isEmpty, List.isEmpty_iff, List.eq_nil_iff_forall_not_mem]
  intro t ht
  have hhigh : t.1.high < q.size := hq.quadratic_below he t ht
  exact h e he t ht ⟨hbinary _ (t.1.low_le_high.trans_lt hhigh), hbinary _ hhigh⟩

/-- **A second run changes nothing.** Whenever the stage for products succeeds, no term of degree
two of the objective or of a constraint has two binary factors any more. A second run succeeds,
leaves the problem as it is and introduces no variables, and its record takes every vector over the
problem back to itself. If all variables were binary, the objective and all constraints are linear
now. -/
theorem linearize_idempotent (hp : p.Built) {r : Record α} (h : p.linearize = .ok (q, r)) :
    (∀ e ∈ q.quadratics, ∀ t ∈ e.toList,
      ¬(q.isBinaryAt t.1.low = true ∧ q.isBinaryAt t.1.high = true)) ∧
    (∃ s, q.linearize = .ok (q, s) ∧ s.auxiliary = [] ∧
      ∀ position t, t.length = q.size → s.interpret position t = .ok t) ∧
    ((∀ v ∈ p.vars, v.isBinary = true) →
      q.objective.polynomial.quadratic.isEmpty = true ∧
        ∀ c ∈ q.constraints, c.isLinear = true) := by
  have hp := hp.wellFormed
  have hq : q.WellFormed := Stage.wellFormed_of_apply (s := .quadraticToLinear) hp h
  have hfree := productFree_of_linearize hp h
  refine ⟨hfree, ⟨_, linearize_of_productFree hq hfree, rfl, fun position t ht => ?_⟩,
    fun hbinary => ?_⟩
  · have hshaped : (Record.identity .quadraticToLinear q.size : Record α).WellShaped :=
      Record.wellShaped_identity _ _
    rw [hshaped.interpret_eq ht, Record.back_of_keepAll_eq rfl ht]
  · obtain ⟨q₁, table, hrun, rfl, -⟩ := exists_linearizedOn hp h
    have hbits : ∀ i < (p.linearizedOn q₁ table).size, q₁.isBinaryAt i = true :=
      fun i hi => (listed_of_run hrun).binary hbinary hi
    have hempty : ∀ e ∈ (p.linearizedOn q₁ table).quadratics, e.isEmpty = true :=
      fun e he => hfree.isEmpty_of_binary hq hbits he
    exact ⟨hempty _ List.mem_cons_self,
      fun c hc => hempty _ (List.mem_cons_of_mem _ (List.mem_map_of_mem hc))⟩

end Problem

/-- A second run leaves the branching problem as the first one has left it: three products have
become variables, and the two terms with the integer variable have stayed. The coupling problem has
binary variables only, so its objective is linear after the first run. -/
theorem branching_linearized_again :
    (∃ q r s, branching.linearize = .ok (q, r) ∧ q.size = 7 ∧ q.linearize = .ok (q, s) ∧
      s.auxiliary = []) ∧
    ∃ q r, coupling.linearize = .ok (q, r) ∧
      q.objective.polynomial.quadratic.isEmpty = true ∧
        ∀ c ∈ q.constraints, c.isLinear = true := by
  have hsize : branching.linearize.toOption.map (fun result => result.1.size) = some 7 := by
    decide +kernel
  have hbranching : branching.linearize.isOk = true := by decide +kernel
  have hcoupling : coupling.linearize.isOk = true := by decide +kernel
  obtain ⟨⟨q, r⟩, hq⟩ := isOk_iff.mp hbranching
  obtain ⟨⟨q', r'⟩, hq'⟩ := isOk_iff.mp hcoupling
  rw [hq] at hsize
  obtain ⟨-, ⟨s, hs, hauxiliary, -⟩, -⟩ := Problem.linearize_idempotent branching_built hq
  have hbuilt : coupling.Built := Problem.built_iff_assemble_eq.mpr rfl
  have hlinear := (Problem.linearize_idempotent hbuilt hq').2.2 (by decide)
  exact ⟨⟨q, r, s, hq, Option.some.inj hsize, hs, hauxiliary⟩, q', r', hq', hlinear⟩

end QuboReduction

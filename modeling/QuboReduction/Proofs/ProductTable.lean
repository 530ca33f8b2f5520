import QuboReduction.Proofs.Growth

/-!
# The table of products

The stage for products goes through the pairs of a problem one after another. At each point its
table has exactly the products among the pairs so far, each with a binary variable of its own that
is named for the product, and the variables of the table are those that were added. All this holds
over any scalars.

## Main definitions

* `QuboReduction.Problem.products` — the products of two different binary variables that occur.
* `QuboReduction.Problem.ties` — the constraints for all variables of a table.
* `QuboReduction.Problem.linearizedOn` — the problem that the stage leaves.
* `QuboReduction.Problem.Listed` — what the table has after each pair.

## Main results

* `QuboReduction.Problem.Listed.step`, `QuboReduction.Problem.listed_of_run` — one pair, and all.
* `QuboReduction.Problem.exists_linearizedOn` — what the stage leaves.
* `QuboReduction.Problem.Listed.name_injective` — variables of the table have different names.
-/

namespace QuboReduction

variable {α : Type} [Scalar α]

/-! ### Looking up -/

namespace ProductTable

variable {table : ProductTable} {pair : Pair} {index : Nat}

theorem mem_of_indexOf? (h : table.indexOf? pair = some index) : (pair, index) ∈ table := by
  obtain ⟨e, he, rfl⟩ := Option.map_eq_some_iff.mp h
  have hkey : e.1 = pair := by simpa using List.find?_some he
  rw [← hkey]
  exact List.mem_of_find?_eq_some he

theorem indexOf?_eq_none_iff : table.indexOf? pair = none ↔ pair ∉ table.map Prod.fst := by
  rw [indexOf?, Option.map_eq_none_iff, List.find?_eq_none, List.mem_map]
  constructor
  · rintro h ⟨e, he, rfl⟩
    simpa using h e he
  · intro h e he
    simpa using fun hkey => h ⟨e, he, hkey⟩

theorem mem_insert_iff {e : Pair × Nat} :
    e ∈ insert pair index table ↔ e = (pair, index) ∨ e ∈ table :=
  (insert_perm pair index table).mem_iff.trans List.mem_cons

end ProductTable

namespace Problem

variable {p q q' : Problem α} {done : List Pair} {table table' : ProductTable} {pair : Pair}

/-- The products of two different binary variables that occur in a problem. -/
def products (p : Problem α) : List Pair := p.allPairs.filter p.isProduct

theorem isProduct_isBinaryAt (h : p.isProduct pair = true) :
    p.isBinaryAt pair.low = true ∧ p.isBinaryAt pair.high = true := by
  simp only [isProduct, Bool.and_eq_true] at h
  exact ⟨h.1.2, h.2⟩

theorem nameAt_eq {i : Nat} {v : Variable} (h : p.variableAt? i = some v) :
    p.nameAt i = v.name := by
  rw [nameAt, h]

/-- A variable stays where it is when others are added. -/
theorem variableAt?_declare {i : Nat} {v : Variable} (h : p.variableAt? i = some v) (name : String)
    (domain : Domain) : (p.declare name domain).variableAt? i = some v := by
  rw [variableAt?, declare, List.getElem?_append_left (variableAt?_lt h)]
  exact h

theorem variableAt?_declare_size (p : Problem α) (name : String) (domain : Domain) :
    (p.declare name domain).variableAt? p.size = some ⟨name, domain, p.size⟩ := by
  simp [variableAt?, declare, size]

/-! ### Ties -/

/-- The constraints that tie all variables of a table to their products. -/
def ties (q : Problem α) (table : ProductTable) : List (Constraint α) :=
  table.flatMap fun e => productConstraints (q.nameAt e.2) e.1 e.2

theorem named_ties (q : Problem α) (table : ProductTable) : ∀ c ∈ ties q table, c.name ≠ "" := by
  simp only [ties, List.forall_mem_flatMap, productConstraints, List.forall_mem_cons,
    Constraint.ofLinear]
  intro e _
  simp

/-- The problem that the stage makes of `p` on a problem `q` with the variables of a table. -/
def linearizedOn (p q : Problem α) (table : ProductTable) : Problem α :=
  { q with
    objective := p.linearizedObjective table
    constraints := ties q table ++ p.constraints.map (p.linearizedConstraint table) }

/-! ### One pair after another -/

/-- What holds of the problem under construction and of the table after some pairs. -/
structure Listed (p : Problem α) (done : List Pair) (q : Problem α) (table : ProductTable) :
    Prop where
  /-- Only variables were added, and these are the variables of the table. -/
  grows : ∃ news, p.variablesOnly.Grows q news ∧ (table.map fun e => e.2).Perm news
  /-- There are no constraints yet. -/
  constraints_eq : q.constraints = []
  /-- The pairs of the table are the products so far. -/
  mem_pairs_iff : ∀ pair, pair ∈ table.map Prod.fst ↔ pair ∈ done ∧ p.isProduct pair = true
  /-- The variables of the table are binary and named for their products. -/
  entries : ∀ e ∈ table, q.variableAt? e.2 = some ⟨p.productName e.1, .binary, e.2⟩

theorem listed_start (p : Problem α) : p.Listed [] p.variablesOnly [] where
  grows := ⟨[], .refl, .refl _⟩
  constraints_eq := rfl
  mem_pairs_iff := by simp
  entries := by simp

/-- **One more pair.** -/
theorem Listed.step (h : p.Listed done q table)
    (hstep : p.addProduct (q, table) pair = .ok (q', table')) :
    p.Listed (done ++ [pair]) q' table' := by
  have hgrows := Grows.addProduct h.grows hstep
  rcases addProduct_ok hstep with ⟨⟨hproduct, -⟩, hadd, rfl⟩ | ⟨hpair, rfl, rfl⟩
  · obtain ⟨-, -, rfl, -⟩ := addVariable_eq_ok_iff.mp hadd
    refine ⟨hgrows, h.constraints_eq, fun a => ?_, fun e he => ?_⟩
    · have hperm := (ProductTable.insert_perm pair q.size table).map Prod.fst
      rw [hperm.mem_iff, List.map_cons, List.mem_cons, h.mem_pairs_iff, List.mem_append,
        List.mem_singleton]
      constructor
      · rintro (rfl | ha)
        · exact ⟨Or.inr rfl, hproduct⟩
        · exact ⟨Or.inl ha.1, ha.2⟩
      · rintro ⟨ha | rfl, haproduct⟩
        · exact Or.inr ⟨ha, haproduct⟩
        · exact Or.inl rfl
    · rcases ProductTable.mem_insert_iff.mp he with rfl | he
      · exact q.variableAt?_declare_size _ _
      · exact variableAt?_declare (h.entries e he) _ _
  · refine ⟨hgrows, h.constraints_eq, fun a => ?_, h.entries⟩
    -- A pair that changes nothing is not a product, or it was there already.
    have hknown : p.isProduct pair = true → pair ∈ done := fun hproduct => by
      have hmem : pair ∈ table'.map Prod.fst := by
        by_contra hnone
        exact hpair ⟨hproduct, ProductTable.indexOf?_eq_none_iff.mpr hnone⟩
      exact ((h.mem_pairs_iff pair).mp hmem).1
    rw [h.mem_pairs_iff, List.mem_append, List.mem_singleton]
    constructor
    · exact fun ha => ⟨Or.inl ha.1, ha.2⟩
    · rintro ⟨ha | rfl, hproduct⟩
      · exact ⟨ha, hproduct⟩
      · exact ⟨hknown hproduct, hproduct⟩

/-- **All pairs.** -/
theorem listed_of_run {pairs : List Pair}
    (h : pairs.foldlM p.addProduct (p.variablesOnly, []) = .ok (q, table)) :
    p.Listed pairs q table :=
  foldlM_ok_of_step (motive := fun done state => p.Listed done state.1 state.2) p.listed_start
    (fun _ _ _ _ _ _ hs hstep => hs.step hstep) h

/-- **What the stage leaves** is made of the variables of a table, its ties and the rewritten
expressions. -/
theorem exists_linearizedOn (hp : p.WellFormed) {r : Record α} (h : p.linearize = .ok (q, r)) :
    ∃ q₁ table, p.allPairs.foldlM p.addProduct (p.variablesOnly, []) = .ok (q₁, table) ∧
      q = p.linearizedOn q₁ table ∧
      r = ⟨.quadraticToLinear, p.size, q.size, Record.keepAll p.size, table.map fun e => e.2,
        false⟩ := by
  obtain ⟨q₁, table, q₂, q₃, hrun, hties, hobjective, hconstraints, rfl⟩ := linearize_steps h
  have hlisted := listed_of_run hrun
  obtain ⟨news, hgrows, -⟩ := hlisted.grows
  have hwellFormed₃ :=
    ((hgrows.wellFormed hp.variablesOnly).of_addConstraints hties).of_setObjective hobjective
  obtain ⟨-, -, rfl⟩ := (addConstraints_eq_ok_iff (named_ties q₁ table)
    (by simp [hlisted.constraints_eq])).mp hties
  obtain ⟨-, rfl⟩ := setObjective_eq_ok_iff.mp hobjective
  have hnamed : ∀ c ∈ p.constraints.map (p.linearizedConstraint table), c.name ≠ "" := by
    simpa [linearizedConstraint] using hp.constraint_named
  obtain ⟨-, -, rfl⟩ :=
    (addConstraints_eq_ok_iff hnamed hwellFormed₃.constraintNames_nodup).mp hconstraints
  exact ⟨q₁, table, hrun, by simp [linearizedOn, hlisted.constraints_eq], rfl⟩

namespace Listed

theorem wellFormed (h : p.Listed done q table) (hp : p.WellFormed) : q.WellFormed := by
  obtain ⟨news, hgrows, -⟩ := h.grows
  exact hgrows.wellFormed hp.variablesOnly

theorem exists_vars_eq (h : p.Listed done q table) : ∃ extra, q.vars = p.vars ++ extra := by
  obtain ⟨news, hgrows, -⟩ := h.grows
  obtain ⟨extra, hvars, -⟩ := hgrows.exists_vars_eq
  exact ⟨extra, hvars⟩

theorem size_le (h : p.Listed done q table) : p.size ≤ q.size := by
  obtain ⟨news, hgrows, -⟩ := h.grows
  exact hgrows.size_le

/-- The variables of the table are those after the variables of the problem. -/
theorem mem_indices_iff (h : p.Listed done q table) {i : Nat} :
    i ∈ table.map (fun e => e.2) ↔ p.size ≤ i ∧ i < q.size := by
  obtain ⟨news, hgrows, hperm⟩ := h.grows
  rw [hperm.mem_iff, hgrows.news_eq, List.mem_range'_1, size_variablesOnly]
  have hle : p.size ≤ q.size := hgrows.size_le
  omega

theorem indices_nodup (h : p.Listed done q table) : (table.map fun e => e.2).Nodup := by
  obtain ⟨news, hgrows, hperm⟩ := h.grows
  rw [hperm.nodup_iff, hgrows.news_eq]
  exact List.nodup_range'

theorem index_lt (h : p.Listed done q table) {e : Pair × Nat} (he : e ∈ table) : e.2 < q.size :=
  variableAt?_lt (h.entries e he)

/-- What a pair of the table is. -/
theorem isProduct (h : p.Listed done q table) {e : Pair × Nat} (he : e ∈ table) :
    p.isProduct e.1 = true :=
  ((h.mem_pairs_iff e.1).mp (List.mem_map_of_mem he)).2

theorem nameAt_eq (h : p.Listed done q table) {e : Pair × Nat} (he : e ∈ table) :
    q.nameAt e.2 = p.productName e.1 := by
  rw [Problem.nameAt_eq (h.entries e he)]

/-- **Different names.** Two variables of the table that have the same name are the same. -/
theorem name_injective (h : p.Listed done q table) (hp : p.WellFormed) {d e : Pair × Nat}
    (hd : d ∈ table) (he : e ∈ table) (hname : p.productName d.1 = p.productName e.1) : d = e := by
  have hnodup : (q.vars.map Variable.name).Nodup := (h.wellFormed hp).variableNames_nodup
  have hvariable := List.inj_on_of_nodup_map hnodup (List.mem_of_getElem? (h.entries d hd))
    (List.mem_of_getElem? (h.entries e he)) hname
  have hindex : d.2 = e.2 := congrArg Variable.index hvariable
  exact List.inj_on_of_nodup_map h.indices_nodup hd he hindex

/-- The variables after those of the problem belong to products. -/
theorem exists_entry (h : p.Listed done q table) {i : Nat} (hnew : p.size ≤ i) (hi : i < q.size) :
    ∃ e ∈ table, e.2 = i := by
  obtain ⟨e, he, rfl⟩ := List.mem_map.mp (h.mem_indices_iff.mpr ⟨hnew, hi⟩)
  exact ⟨e, he, rfl⟩

/-- The names of variables are those of the problem and of the products in the table. -/
theorem mem_variableNames (h : p.Listed done q table) {name : String}
    (hname : name ∈ q.variableNames) :
    name ∈ p.variableNames ∨ ∃ e ∈ table, p.productName e.1 = name := by
  obtain ⟨v, hv, rfl⟩ := List.mem_map.mp hname
  obtain ⟨i, hi, rfl⟩ := List.getElem_of_mem hv
  rcases Nat.lt_or_ge i p.size with hold | hnew
  · obtain ⟨extra, hvars⟩ := h.exists_vars_eq
    have hold : i < p.vars.length := hold
    have hmem : q.vars[i] ∈ p.vars := by
      simp only [hvars, List.getElem_append_left hold]
      exact List.getElem_mem hold
    exact Or.inl (List.mem_map_of_mem hmem)
  · obtain ⟨e, he, rfl⟩ := h.exists_entry hnew hi
    have hat : q.variableAt? e.2 = some q.vars[e.2] := List.getElem?_eq_getElem hi
    rw [h.entries e he, Option.some.injEq] at hat
    exact Or.inr ⟨e, he, by rw [← hat]⟩

end Listed

end Problem

end QuboReduction

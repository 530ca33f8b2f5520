import QuboReduction.Proofs.Names
import QuboReduction.Proofs.ProductTable
import QuboReduction.Scalar.Double

/-!
# Names of variables for products

The variable for a product is named `_and_x_y` for its factors `x` and `y`, and its ties are named
for the variable. If no name of a problem starts like that, then new names can only collide with one
another. The ties never do, since what is added to the name of their variable has the same length in
all of them. Variables do when two products put the separator in different places: the product of
`a` and `b_c` and that of `a_b` and `c` have the same name. So the stage succeeds exactly when names
tell the products apart, over any scalars.

## Main results

* `QuboReduction.Problem.ties_names_nodup` — ties of different products have different names.
* `QuboReduction.Problem.linearize_of_run` — once the variables are added, the stage succeeds.
* `QuboReduction.Problem.productName_injOn` — without separators names tell products apart.
* `QuboReduction.Problem.linearize_isOk_iff` — when the stage succeeds, and why it fails.
-/

namespace QuboReduction

namespace Problem

variable {α : Type} [Scalar α] {p q : Problem α} {done : List Pair} {table : ProductTable}
  {linear : Linear α} {quadratic : Quadratic α}

/-! ### Names of ties -/

/-- Texts that end in parts of the same length agree before these parts. -/
private theorem eq_of_append_eq {a b s t : String} (hlength : s.length = t.length)
    (h : a ++ s = b ++ t) : a = b := by
  have hlist := congrArg String.toList h
  rw [String.toList_append, String.toList_append] at hlist
  exact String.toList_inj.mp (List.append_inj' hlist hlength).1

private theorem name_of_mem_productConstraints {name : String} {pair : Pair} {index : Nat}
    {c : Constraint α} (h : c ∈ productConstraints name pair index) :
    ∃ mark ∈ ["_1", "_2", "_3"], c.name = name ++ mark := by
  simp only [productConstraints, List.mem_cons, List.not_mem_nil, or_false] at h
  rcases h with rfl | rfl | rfl
  · exact ⟨"_1", by simp, rfl⟩
  · exact ⟨"_2", by simp, rfl⟩
  · exact ⟨"_3", by simp, rfl⟩

private theorem productConstraints_names_nodup (name : String) (pair : Pair) (index : Nat) :
    ((productConstraints name pair index : List (Constraint α)).map Constraint.name).Nodup := by
  have hmarks : (["_1", "_2", "_3"].map fun mark => name ++ mark).Nodup :=
    List.Nodup.map (fun s t h => String.append_right_inj name |>.mp h) (by decide)
  exact hmarks

/-- Ties of variables with different names have different names. -/
private theorem disjoint_names {name name' : String} (h : name ≠ name') (pair pair' : Pair)
    (index index' : Nat) :
    List.Disjoint ((productConstraints name pair index : List (Constraint α)).map Constraint.name)
      ((productConstraints name' pair' index' : List (Constraint α)).map Constraint.name) := by
  intro tie hmem hmem'
  obtain ⟨c, hc, rfl⟩ := List.mem_map.mp hmem
  obtain ⟨d, hd, hname⟩ := List.mem_map.mp hmem'
  obtain ⟨mark, hmark, hc⟩ := name_of_mem_productConstraints hc
  obtain ⟨mark', hmark', hd⟩ := name_of_mem_productConstraints hd
  have htwo : ∀ mark ∈ ["_1", "_2", "_3"], mark.length = 2 := by decide
  rw [hc, hd] at hname
  exact h (eq_of_append_eq ((htwo mark hmark).trans (htwo mark' hmark').symm) hname.symm)

/-- **Names of ties.** No two ties have the same name. -/
theorem ties_names_nodup (h : p.Listed done q table) (hp : p.WellFormed) :
    ((ties q table).map Constraint.name).Nodup := by
  rw [ties, List.map_flatMap]
  refine List.nodup_flatMap.mpr ⟨fun e _ => productConstraints_names_nodup _ _ _, ?_⟩
  have htable : table.Nodup := h.indices_nodup.of_map
  refine htable.imp_of_mem fun hd he hne => disjoint_names (fun hname => hne ?_) _ _ _ _
  rw [h.nameAt_eq hd, h.nameAt_eq he] at hname
  exact h.name_injective hp hd he hname

/-- Names of variables for products and of their ties start alike. -/
theorem prefix_productName (p : Problem α) (pair : Pair) :
    "_and_".toList <+: (p.productName pair).toList := by
  simp only [productName, String.toList_append, List.append_assoc]
  exact List.prefix_append _ _

theorem prefix_of_mem_ties (h : p.Listed done q table) {c : Constraint α} (hc : c ∈ ties q table) :
    "_and_".toList <+: c.name.toList := by
  obtain ⟨e, he, hc⟩ := List.mem_flatMap.mp hc
  obtain ⟨mark, -, hname⟩ := name_of_mem_productConstraints hc
  rw [hname, h.nameAt_eq he, String.toList_append]
  exact (p.prefix_productName e.1).trans (List.prefix_append _ _)

/-! ### Rewritten expressions -/

theorem ties_below (h : p.Listed done q table) : ∀ c ∈ ties q table, c.Below q.size := by
  intro c hc
  obtain ⟨e, he, hc⟩ := List.mem_flatMap.mp hc
  obtain ⟨hlow, hhigh⟩ := isProduct_isBinaryAt (h.isProduct he)
  have hindex := h.index_lt he
  have hlow := (isBinaryAt_lt hlow).trans_le h.size_le
  have hhigh := (isBinaryAt_lt hhigh).trans_le h.size_le
  simp only [productConstraints, List.mem_cons, List.not_mem_nil, or_false] at hc
  rcases hc with rfl | rfl | rfl <;>
    exact ⟨Terms.Within.ofList (by simp [hindex, hlow, hhigh]), Terms.within_empty⟩

/-- Rewriting introduces variables of the table only. -/
theorem linearPart_below (h : p.Listed done q table) (hlinear : linear.Below p.size)
    (hquadratic : quadratic.Below p.size) : (p.linearPart table linear quadratic).Below q.size := by
  refine (hlinear.mono h.size_le).addTerms fun u hu => ?_
  obtain ⟨t, ht, hut⟩ := List.mem_filterMap.mp hu
  rw [linearized?] at hut
  split at hut
  · rename_i index hindex
    rw [← Option.some.inj hut]
    exact h.index_lt (ProductTable.mem_of_indexOf? hindex)
  · split at hut
    · rw [← Option.some.inj hut]
      exact (t.1.low_le_high.trans_lt (hquadratic t ht)).trans_le h.size_le
    · contradiction

theorem quadraticPart_below (h : p.Listed done q table) (hquadratic : quadratic.Below p.size) :
    (p.quadraticPart table quadratic).Below q.size :=
  Terms.Within.ofList fun t ht =>
    (hquadratic t (List.mem_filter.mp ht).1).trans_le h.size_le

theorem linearizedObjective_below (h : p.Listed done q table) (hp : p.WellFormed) :
    (p.linearizedObjective table).polynomial.Below q.size :=
  ⟨linearPart_below h hp.objective_below.1 hp.objective_below.2,
    quadraticPart_below h hp.objective_below.2⟩

theorem linearizedConstraint_below (h : p.Listed done q table) (hp : p.WellFormed)
    {c : Constraint α} (hc : c ∈ p.constraints) : (p.linearizedConstraint table c).Below q.size :=
  ⟨linearPart_below h (hp.constraint_below c hc).1 (hp.constraint_below c hc).2,
    quadraticPart_below h (hp.constraint_below c hc).2⟩

/-! ### The stage -/

/-- The names of ties and rewritten constraints differ if no name of the problem looks like that of
a tie. -/
private theorem names_nodup_of_listed (h : p.Listed done q table) (hp : p.WellFormed)
    (hconstraints : ∀ c ∈ p.constraints, ¬"_and_".toList <+: c.name.toList) :
    ((ties q table ++ p.constraints.map (p.linearizedConstraint table)).map
      Constraint.name).Nodup := by
  have hnames : (p.constraints.map (p.linearizedConstraint table)).map Constraint.name =
      p.constraints.map Constraint.name := by
    simp [linearizedConstraint]
  rw [List.map_append, hnames]
  refine (ties_names_nodup h hp).append hp.constraintNames_nodup fun name hmem hmem' => ?_
  obtain ⟨c, hc, rfl⟩ := List.mem_map.mp hmem
  obtain ⟨d, hd, hname⟩ := List.mem_map.mp hmem'
  exact hconstraints d hd (hname ▸ prefix_of_mem_ties h hc)

/-- **After the variables.** Once all variables are added, the stage succeeds, if no name of a
constraint looks like that of a tie. -/
theorem linearize_of_run (hp : p.WellFormed)
    (hconstraints : ∀ c ∈ p.constraints, ¬"_and_".toList <+: c.name.toList)
    (hrun : p.allPairs.foldlM p.addProduct (p.variablesOnly, []) = .ok (q, table)) :
    ∃ result, p.linearize = .ok result := by
  have hlisted := listed_of_run hrun
  have hnames := names_nodup_of_listed hlisted hp hconstraints
  have hties : q.addConstraints (ties q table) = .ok { q with constraints := ties q table } :=
    (addConstraints_eq_ok_iff (named_ties q table) (by simp [hlisted.constraints_eq])).mpr
      ⟨ties_below hlisted, by simpa [hlisted.constraints_eq] using ties_names_nodup hlisted hp,
        by simp [hlisted.constraints_eq]⟩
  have hobjective : ({ q with constraints := ties q table } : Problem α).setObjective
      (p.linearizedObjective table) = .ok { p.linearizedOn q table with
        constraints := ties q table } :=
    setObjective_eq_ok_iff.mpr ⟨(linearizedObjective_below hlisted hp :), rfl⟩
  have hrewritten : ({ p.linearizedOn q table with
      constraints := ties q table } : Problem α).addConstraints
        (p.constraints.map (p.linearizedConstraint table)) = .ok (p.linearizedOn q table) :=
    (addConstraints_eq_ok_iff (by simpa [linearizedConstraint] using hp.constraint_named)
      (ties_names_nodup hlisted hp)).mpr
        ⟨List.forall_mem_map.mpr fun c hc => linearizedConstraint_below hlisted hp hc, hnames, rfl⟩
  exact ⟨_, bind_eq_ok.mpr ⟨_, hrun, bind_eq_ok.mpr ⟨_, ofBuilding_eq_ok.mpr hties,
    bind_eq_ok.mpr ⟨_, ofBuilding_eq_ok.mpr hobjective,
      bind_eq_ok.mpr ⟨_, ofBuilding_eq_ok.mpr hrewritten, rfl⟩⟩⟩⟩⟩

/-- **Why the variables cannot be added.** If no name of a variable looks like that of a product,
then a name is only taken by that of another product. -/
theorem addProduct_run_error {e : ConversionError α}
    (hvariables : ∀ v ∈ p.vars, ¬"_and_".toList <+: v.name.toList)
    (h : p.allPairs.foldlM p.addProduct (p.variablesOnly, []) = .error e) :
    ∃ a ∈ p.products, ∃ b ∈ p.products, a ≠ b ∧ p.productName a = p.productName b ∧
      e = .problem (.duplicateVariable (p.productName a)) := by
  obtain ⟨before, pair, after, ⟨q, table⟩, hsplit, hlisted, hstep⟩ :=
    foldlM_error_of_step (motive := fun done state => p.Listed done state.1 state.2) p.listed_start
      (fun _ _ _ _ _ _ hs hstep => hs.step hstep) h
  obtain ⟨⟨hproduct, hnone⟩, hmem, rfl⟩ := addProduct_error hstep
  rcases hlisted.mem_variableNames hmem with hold | ⟨e, he, hname⟩
  · obtain ⟨v, hv, hname⟩ := List.mem_map.mp hold
    exact absurd (hname ▸ p.prefix_productName pair) (hvariables v hv)
  · obtain ⟨hbefore, hother⟩ := (hlisted.mem_pairs_iff e.1).mp (List.mem_map_of_mem he)
    refine ⟨pair, List.mem_filter.mpr ⟨by simp [hsplit], hproduct⟩, e.1,
      List.mem_filter.mpr ⟨by simp [hsplit, hbefore], hother⟩, ?_, hname.symm, rfl⟩
    rintro rfl
    exact ProductTable.indexOf?_eq_none_iff.mp hnone (List.mem_map_of_mem he)

/-- If all variables can be added, then names tell products apart. -/
theorem productName_injOn_of_run (hp : p.WellFormed)
    (h : p.allPairs.foldlM p.addProduct (p.variablesOnly, []) = .ok (q, table)) :
    ∀ a ∈ p.products, ∀ b ∈ p.products, p.productName a = p.productName b → a = b := by
  have hlisted := listed_of_run h
  have hentry : ∀ a ∈ p.products, ∃ e ∈ table, e.1 = a := fun a ha =>
    List.mem_map.mp ((hlisted.mem_pairs_iff a).mpr (List.mem_filter.mp ha))
  intro a ha b hb hname
  obtain ⟨d, hd, rfl⟩ := hentry a ha
  obtain ⟨e, he, rfl⟩ := hentry b hb
  rw [hlisted.name_injective hp hd he hname]

/-- **Names without separators.** If no binary variable has the separator in its name, then names
tell products apart. -/
theorem productName_injOn (hp : p.WellFormed)
    (hplain : ∀ v ∈ p.vars, v.isBinary = true → '_' ∉ v.name.toList) :
    ∀ a ∈ p.products, ∀ b ∈ p.products, p.productName a = p.productName b → a = b := by
  -- The names of binary variables are different, and have no separator.
  have hnamed : ∀ {i}, p.isBinaryAt i = true → ∃ v ∈ p.vars,
      v.index = i ∧ p.nameAt i = v.name ∧ '_' ∉ (p.nameAt i).toList := by
    intro i hi
    obtain ⟨v, hv, hbinary⟩ := (Option.any_eq_true _ _).mp hi
    have hmem := List.mem_of_getElem? hv
    refine ⟨v, hmem, hp.index_eq i v hv, nameAt_eq hv, ?_⟩
    rw [nameAt_eq hv]
    exact hplain v hmem hbinary
  have hinjective : ∀ {i j}, p.isBinaryAt i = true → p.isBinaryAt j = true →
      p.nameAt i = p.nameAt j → i = j := by
    intro i j hi hj hname
    obtain ⟨v, hv, rfl, hvname, -⟩ := hnamed hi
    obtain ⟨w, hw, rfl, hwname, -⟩ := hnamed hj
    rw [hvname, hwname] at hname
    rw [List.inj_on_of_nodup_map hp.variableNames_nodup hv hw hname]
  intro a ha b hb hname
  obtain ⟨halow, hahigh⟩ := isProduct_isBinaryAt (List.mem_filter.mp ha).2
  obtain ⟨hblow, hbhigh⟩ := isProduct_isBinaryAt (List.mem_filter.mp hb).2
  obtain ⟨-, -, -, -, hafree⟩ := hnamed hahigh
  obtain ⟨-, -, -, -, hbfree⟩ := hnamed hbhigh
  have hlist := congrArg String.toList hname
  simp only [productName, String.toList_append, List.append_assoc,
    List.append_cancel_left_eq] at hlist
  obtain ⟨hlow, hhigh⟩ := append_separator_inj hafree hbfree hlist
  have hlow := hinjective halow hblow (String.toList_inj.mp hlow)
  have hhigh := hinjective hahigh hbhigh (String.toList_inj.mp hhigh)
  cases a
  cases b
  simp_all

/-- **When the stage for products succeeds.** Let no name of a variable or of a constraint start
like that of a variable for a product. Then the stage succeeds exactly when the names of the
variables for products tell the products apart, it is refused only because two of them do not, and
it succeeds if no binary variable has the separator in its name. -/
theorem linearize_isOk_iff (hp : p.Built)
    (hvariables : ∀ v ∈ p.vars, ¬"_and_".toList <+: v.name.toList)
    (hconstraints : ∀ c ∈ p.constraints, ¬"_and_".toList <+: c.name.toList) :
    ((∃ result, p.linearize = .ok result) ↔
        ∀ a ∈ p.products, ∀ b ∈ p.products, p.productName a = p.productName b → a = b) ∧
      (∀ e, p.linearize = .error e → ∃ a ∈ p.products, ∃ b ∈ p.products, a ≠ b ∧
        p.productName a = p.productName b ∧
        e = .problem (.duplicateVariable (p.productName a))) ∧
      ((∀ v ∈ p.vars, v.isBinary = true → '_' ∉ v.name.toList) →
        ∃ result, p.linearize = .ok result) := by
  have hp := hp.wellFormed
  have herror : ∀ e, p.linearize = .error e → ∃ a ∈ p.products, ∃ b ∈ p.products, a ≠ b ∧
      p.productName a = p.productName b ∧ e = .problem (.duplicateVariable (p.productName a)) := by
    intro e h
    cases hrun : p.allPairs.foldlM p.addProduct (p.variablesOnly, []) with
    | ok state =>
      obtain ⟨result, hok⟩ := linearize_of_run hp hconstraints hrun
      rw [hok] at h
      contradiction
    | error e' =>
      have he : e' = e := by simpa only [linearize, hrun, error_bind, Except.error.injEq] using h
      exact he ▸ addProduct_run_error hvariables hrun
  have hok : (∀ a ∈ p.products, ∀ b ∈ p.products, p.productName a = p.productName b → a = b) →
      ∃ result, p.linearize = .ok result := by
    intro hinjective
    cases h : p.linearize with
    | ok result => exact ⟨result, rfl⟩
    | error e =>
      obtain ⟨a, ha, b, hb, hne, hname, -⟩ := herror e h
      exact absurd (hinjective a ha b hb hname) hne
  refine ⟨⟨?_, hok⟩, herror, fun hplain => hok (productName_injOn hp hplain)⟩
  rintro ⟨⟨q, r⟩, h⟩
  obtain ⟨q₁, table, -, -, hrun, -⟩ := linearize_steps h
  exact productName_injOn_of_run hp hrun

end Problem

/-- Minimize `2·a·b_c - a_b·b_c + a_b·n` for binary `a`, `b_c` and `a_b` and an integer `n`, subject
to `a·a_b + a·b_c ≤ 1`. The names have separators, but they tell the three products apart. -/
def labelling : Problem Float where
  name := "labelling"
  vars := [⟨"a", .binary, 0⟩, ⟨"b_c", .binary, 1⟩, ⟨"a_b", .binary, 2⟩, ⟨"n", .integer 0 3, 3⟩]
  objective := ⟨.minimize, ⟨0, Terms.empty,
    Quadratic.ofProducts [(0, 1, 2), (2, 1, -1), (2, 3, 1)]⟩⟩
  constraints := [⟨"and_1", Terms.empty, Quadratic.ofProducts [(0, 2, 1), (0, 1, 1)], .le, 1⟩]

theorem labelling_built : labelling.Built := Problem.built_iff_assemble_eq.mpr rfl

/-- The names of the labelling problem tell its three products apart, of which one occurs twice, so
the stage succeeds. -/
theorem labelling_isOk :
    labelling.products.map labelling.productName =
        ["_and_a_b_c", "_and_b_c_a_b", "_and_a_b_c", "_and_a_a_b"] ∧
      ∃ result, labelling.linearize = .ok result :=
  ⟨by decide +kernel, (Problem.linearize_isOk_iff labelling_built (by decide +kernel)
    (by decide +kernel)).1.mpr (by decide +kernel)⟩

/-- Minimize `a·b_c + a_b·c` for four binary variables. -/
def gluing : Problem Float where
  name := "gluing"
  vars := [⟨"a", .binary, 0⟩, ⟨"b_c", .binary, 1⟩, ⟨"a_b", .binary, 2⟩, ⟨"c", .binary, 3⟩]
  objective := ⟨.minimize, ⟨0, Terms.empty, Quadratic.ofProducts [(0, 1, 1), (2, 3, 1)]⟩⟩
  constraints := []

theorem gluing_built : gluing.Built := Problem.built_iff_assemble_eq.mpr rfl

/-- No name of the gluing problem looks like that of a variable for a product, but the stage is
refused, since both products get the name `_and_a_b_c`. -/
theorem gluing_refused :
    gluing.Built ∧ (∀ v ∈ gluing.vars, ¬"_and_".toList <+: v.name.toList) ∧
      (∀ c ∈ gluing.constraints, ¬"_and_".toList <+: c.name.toList) ∧
      gluing.linearize = .error (.problem (.duplicateVariable "_and_a_b_c")) :=
  ⟨gluing_built, by decide +kernel, by decide +kernel, rfl⟩

end QuboReduction

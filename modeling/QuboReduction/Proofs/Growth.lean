import QuboReduction.Pipeline
import QuboReduction.Proofs.WellFormed

/-!
# How stages build

Whatever a stage does with expressions, it makes its problem by the steps that any problem is built
by, starting from the variables that it was given or from nothing. So the result is well-formed, new
variables come after those that were there, and they are numbered in the order in which they were
added. None of this depends on what the scalars are.

## Main definitions

* `QuboReduction.Problem.Grows` — one problem is built from another one, adding certain variables.
* `QuboReduction.Record.Keeps` — a stage that keeps all variables and adds others.
* `QuboReduction.Record.Replaces` — a stage that replaces all variables by new ones.

## Main results

* `QuboReduction.Problem.Grows.wellFormed`, `QuboReduction.Problem.Grows.exists_vars_eq` — what
  building keeps, and where new variables stand.
* `QuboReduction.Problem.addTightened_ok` — what the stage for slack variables does with a
  constraint.
* `QuboReduction.Problem.addProduct_ok`, `QuboReduction.Problem.addProduct_error` — what the stage
  for products does with a pair.
* `QuboReduction.Problem.foldShapes_steps`, `QuboReduction.Problem.addSlacks_steps`,
  `QuboReduction.Problem.binarize_steps`, `QuboReduction.Problem.foldEqualities_steps`,
  `QuboReduction.Problem.orient_steps`, `QuboReduction.Problem.linearize_steps` — what stages do one
  after another.
* `QuboReduction.Stage.keeps_of_apply`, `QuboReduction.Problem.binarize_replaces` — what the stages
  build.
-/

namespace QuboReduction

variable {α : Type} [Scalar α]

namespace Problem

variable {p q q' : Problem α} {news : List Nat}

/-! ### Building on a problem -/

@[simp] theorem size_variablesOnly (p : Problem α) : p.variablesOnly.size = p.size := rfl

/-- A problem that is built from `p` by single steps, in which variables were added at the given
indices, in this order. -/
inductive Grows (p : Problem α) : Problem α → List Nat → Prop
  /-- Nothing was built. -/
  | refl : Grows p p []
  /-- One more variable. -/
  | addVariable {q q' : Problem α} {news : List Nat} {name : String} {domain : Domain} {index : Nat}
    (h : Grows p q news) (hstep : q.addVariable name domain = .ok (q', index)) :
    Grows p q' (news ++ [index])
  /-- Another objective. -/
  | setObjective {q q' : Problem α} {news : List Nat} {o : Objective α}
    (h : Grows p q news) (hstep : q.setObjective o = .ok q') : Grows p q' news
  /-- One more constraint. -/
  | addConstraint {q q' : Problem α} {news : List Nat} {c : Constraint α}
    (h : Grows p q news) (hstep : q.addConstraint c = .ok q') : Grows p q' news

namespace Grows

/-- What is built on a well-formed problem is well-formed. -/
theorem wellFormed (h : p.Grows q news) (hp : p.WellFormed) : q.WellFormed := by
  induction h with
  | refl => exact hp
  | addVariable _ hstep ih => exact ih.of_addVariable hstep
  | setObjective _ hstep ih => exact ih.of_setObjective hstep
  | addConstraint _ hstep ih => exact ih.of_addConstraint hstep

/-- **Where new variables stand.** The variables stay in their places, and the new ones follow in
the order in which they were added. -/
theorem exists_vars_eq (h : p.Grows q news) :
    ∃ extra, q.vars = p.vars ++ extra ∧ news = List.range' p.size extra.length := by
  induction h with
  | refl => exact ⟨[], by simp, rfl⟩
  | @addVariable q _ _ name domain _ _ hstep ih =>
    obtain ⟨extra, hvars, rfl⟩ := ih
    obtain ⟨-, -, rfl, rfl⟩ := addVariable_eq_ok_iff.mp hstep
    refine ⟨extra ++ [⟨name, domain, q.size⟩], by simp [declare, hvars], ?_⟩
    have hsize : q.size = p.size + extra.length := by simp [size, hvars]
    rw [List.length_append, List.length_singleton, List.range'_1_concat, hsize]
  | setObjective _ hstep ih =>
    obtain ⟨-, rfl⟩ := setObjective_eq_ok_iff.mp hstep
    exact ih
  | addConstraint _ hstep ih =>
    obtain ⟨-, -, rfl⟩ := addConstraint_eq_ok_iff.mp hstep
    exact ih

/-- The new variables have the indices after those that were there. -/
theorem news_eq (h : p.Grows q news) : news = List.range' p.size (q.size - p.size) := by
  obtain ⟨extra, hvars, hnews⟩ := h.exists_vars_eq
  have hsize : q.size - p.size = extra.length := by simp [size, hvars]
  rw [hnews, hsize]

theorem size_le (h : p.Grows q news) : p.size ≤ q.size := by
  obtain ⟨extra, hvars, -⟩ := h.exists_vars_eq
  simp [size, hvars]

theorem addConstraints (h : p.Grows q news) {cs : List (Constraint α)}
    (hstep : q.addConstraints cs = .ok q') : p.Grows q' news :=
  foldlM_ok_of_step (motive := fun _ q => p.Grows q news) h
    (fun _ _ _ _ _ _ hs hadd => hs.addConstraint hadd) hstep

end Grows

/-! ### Slack variables -/

/-- **What a step gives for a constraint.** An equality stays as it is, and an inequality is dropped
or becomes an equality without or with a slack variable. -/
theorem addTightened_ok {c : Constraint α} {slacks slacks' : List Nat}
    (h : p.addTightened (q, slacks) c = .ok (q', slacks')) :
    (c.relation = .eq ∧ q.addConstraint c = .ok q' ∧ slacks' = slacks) ∨
      (c.relation ≠ .eq ∧ p.slackFor c = .ok none ∧ q' = q ∧ slacks' = slacks) ∨
      (c.relation ≠ .eq ∧ ∃ slack, p.slackFor c = .ok (some slack) ∧
        (slack.upper ≤ 0 ∧ q.addConstraint (c.tightened slack) = .ok q' ∧ slacks' = slacks ∨
          0 < slack.upper ∧ ∃ q₁ index,
            q.addVariable (slackName c) (.integer 0 slack.upper) = .ok (q₁, index) ∧
              q₁.addConstraint { c.tightened slack with
                linear := (c.tightened slack).linear.addTerm index slack.sign } = .ok q' ∧
              slacks' = slacks ++ [index])) := by
  simp only [addTightened] at h
  split at h
  · rename_i hrelation
    obtain ⟨q₁, hadd, hq⟩ := bind_eq_ok.mp h
    rw [pure_eq_ok, Prod.mk.injEq] at hq
    rw [← hq.1]
    exact Or.inl ⟨hrelation, ofBuilding_eq_ok.mp hadd, hq.2.symm⟩
  · rename_i hrelation
    refine Or.inr ?_
    obtain ⟨slack?, hslack, h⟩ := bind_eq_ok.mp h
    cases slack? with
    | none =>
      rw [pure_eq_ok, Prod.mk.injEq] at h
      exact Or.inl ⟨hrelation, hslack, h.1.symm, h.2.symm⟩
    | some slack =>
      refine Or.inr ⟨hrelation, slack, hslack, ?_⟩
      dsimp only at h
      split at h
      · rename_i hupper
        obtain ⟨⟨q₁, index⟩, hvariable, h⟩ := bind_eq_ok.mp h
        obtain ⟨q₂, hconstraint, hq⟩ := bind_eq_ok.mp h
        rw [pure_eq_ok, Prod.mk.injEq] at hq
        rw [← hq.1]
        exact Or.inr ⟨hupper, q₁, index, ofBuilding_eq_ok.mp hvariable,
          ofBuilding_eq_ok.mp hconstraint, hq.2.symm⟩
      · rename_i hupper
        obtain ⟨q₂, hconstraint, hq⟩ := bind_eq_ok.mp h
        rw [pure_eq_ok, Prod.mk.injEq] at hq
        rw [← hq.1]
        exact Or.inl ⟨Int.not_lt.mp hupper, ofBuilding_eq_ok.mp hconstraint, hq.2.symm⟩

theorem Grows.addTightened {p₀ : Problem α} {c : Constraint α} {slacks slacks' : List Nat}
    (h : p₀.Grows q slacks) (hstep : p.addTightened (q, slacks) c = .ok (q', slacks')) :
    p₀.Grows q' slacks' := by
  rcases addTightened_ok hstep with ⟨-, hq, rfl⟩ | ⟨-, -, rfl, rfl⟩ |
    ⟨-, _, -, ⟨-, hq, rfl⟩ | ⟨-, _, _, hvariable, hq, rfl⟩⟩
  · exact h.addConstraint hq
  · exact h
  · exact h.addConstraint hq
  · exact (h.addVariable hvariable).addConstraint hq

/-! ### Bits -/

theorem Grows.addBits (h : p.Grows q news) {v : Variable} {k : Nat} {ws : List Nat}
    {terms : List (Nat × α)} (hstep : q.addBits v k ws = .ok (q', terms)) :
    p.Grows q' (news ++ terms.map fun t => t.1) := by
  induction ws generalizing q k news terms with
  | nil =>
    simp only [Problem.addBits, Except.ok.injEq, Prod.mk.injEq] at hstep
    obtain ⟨rfl, rfl⟩ := hstep
    simpa using h
  | cons w ws ih =>
    obtain ⟨⟨q₁, index⟩, hadd, hstep⟩ := bind_eq_ok.mp hstep
    obtain ⟨⟨q₂, rest⟩, hrest, hstep⟩ := bind_eq_ok.mp hstep
    rw [pure_eq_ok, Prod.mk.injEq] at hstep
    obtain ⟨rfl, rfl⟩ := hstep
    simpa using ih (h.addVariable (ofBuilding_eq_ok.mp hadd)) hrest

/-- The mapping of a variable refers to exactly the binary variables that were added for it, in
their order. -/
theorem Grows.addBinarized {s s' : Substitution α} {v : Variable}
    (h : p.Grows q (s.flatMap Mapping.indices))
    (hstep : Problem.addBinarized (q, s) v = .ok (q', s')) :
    p.Grows q' (s'.flatMap Mapping.indices) ∧ s'.length = s.length + 1 := by
  simp only [Problem.addBinarized] at hstep
  cases hdomain : v.domain with
  | binary =>
    rw [hdomain] at hstep
    obtain ⟨⟨q₁, index⟩, hadd, hstep⟩ := bind_eq_ok.mp hstep
    rw [pure_eq_ok, Prod.mk.injEq] at hstep
    obtain ⟨rfl, rfl⟩ := hstep
    refine ⟨?_, by simp⟩
    simpa [Mapping.indices] using h.addVariable (ofBuilding_eq_ok.mp hadd)
  | integer lower upper =>
    rw [hdomain] at hstep
    obtain ⟨⟨q₁, terms⟩, hadd, hstep⟩ := bind_eq_ok.mp hstep
    rw [pure_eq_ok, Prod.mk.injEq] at hstep
    obtain ⟨rfl, rfl⟩ := hstep
    refine ⟨?_, by simp⟩
    simpa [Mapping.indices] using h.addBits hadd

/-! ### Products -/

end Problem

theorem ProductTable.insert_perm (pair : Pair) (index : Nat) (table : ProductTable) :
    (insert pair index table).Perm ((pair, index) :: table) := by
  induction table with
  | nil => exact .refl _
  | cons e table ih =>
    rw [insert]
    split
    · exact .refl _
    · exact (ih.cons e).trans (.swap _ _ _)

namespace Problem

variable {p q q' : Problem α}

/-- **What a step gives for a pair.** A product that has no variable yet gets one, which is binary
and named for its factors, and other pairs change nothing. -/
theorem addProduct_ok {table table' : ProductTable} {pair : Pair}
    (h : p.addProduct (q, table) pair = .ok (q', table')) :
    ((p.isProduct pair = true ∧ table.indexOf? pair = none) ∧
        q.addVariable (p.productName pair) .binary = .ok (q', q.size) ∧
        table' = table.insert pair q.size) ∨
      ¬(p.isProduct pair = true ∧ table.indexOf? pair = none) ∧ q' = q ∧ table' = table := by
  simp only [addProduct, Bool.and_eq_true, Option.isNone_iff_eq_none] at h
  split at h
  · rename_i hpair
    obtain ⟨⟨q₁, index⟩, hadd, h⟩ := bind_eq_ok.mp h
    rw [pure_eq_ok, Prod.mk.injEq] at h
    obtain ⟨rfl, rfl⟩ := h
    have hadd := ofBuilding_eq_ok.mp hadd
    obtain ⟨-, -, -, rfl⟩ := addVariable_eq_ok_iff.mp hadd
    exact Or.inl ⟨hpair, hadd, rfl⟩
  · rename_i hpair
    rw [pure_eq_ok, Prod.mk.injEq] at h
    exact Or.inr ⟨hpair, h.1.symm, h.2.symm⟩

/-- A step is refused when the name of the variable for a product is taken. -/
theorem addProduct_error {table : ProductTable} {pair : Pair} {e : ConversionError α}
    (h : p.addProduct (q, table) pair = .error e) :
    (p.isProduct pair = true ∧ table.indexOf? pair = none) ∧
      p.productName pair ∈ q.variableNames ∧
      e = .problem (.duplicateVariable (p.productName pair)) := by
  simp only [addProduct, Bool.and_eq_true, Option.isNone_iff_eq_none] at h
  split at h
  · rename_i hpair
    rcases bind_eq_error.mp h with h | ⟨_, -, h⟩
    · obtain ⟨cause, hadd, rfl⟩ := ofBuilding_eq_error.mp h
      have hmem := addVariable_eq_error hadd (by decide)
      rw [addVariable_of_mem hmem, Except.error.injEq] at hadd
      exact ⟨hpair, hmem, by rw [hadd]⟩
    · exact absurd h pure_ne_error
  · exact absurd h pure_ne_error

/-- The variables of the table are those that were added, in another order. -/
theorem Grows.addProduct {p₀ : Problem α} {table table' : ProductTable} {pair : Pair}
    (h : ∃ news, p₀.Grows q news ∧ (table.map fun e => e.2).Perm news)
    (hstep : p.addProduct (q, table) pair = .ok (q', table')) :
    ∃ news, p₀.Grows q' news ∧ (table'.map fun e => e.2).Perm news := by
  obtain ⟨news, hgrows, hperm⟩ := h
  rcases addProduct_ok hstep with ⟨-, hadd, rfl⟩ | ⟨-, rfl, rfl⟩
  · refine ⟨news ++ [q.size], hgrows.addVariable hadd, ?_⟩
    -- the table is in the order of its pairs, the variables in the order in which pairs were found
    refine ((ProductTable.insert_perm pair q.size table).map _).trans ?_
    exact (hperm.cons q.size).trans (List.perm_append_singleton q.size news).symm
  · exact ⟨news, hgrows, hperm⟩

end Problem

/-! ### What stages do -/

namespace Problem

variable {p q : Problem α} {r : Record α} {given : Option α}

/-- The steps of the stage for shapes. -/
theorem foldShapes_steps (h : p.foldShapes given = .ok (q, r)) :
    ∃ factor q₁, p.penaltyFactor given = .ok factor ∧
      p.variablesOnly.setObjective (p.withShapePenalties factor) = .ok q₁ ∧
      q₁.addConstraints p.genericConstraints = .ok q ∧
      r = Record.identity .linearInequalityToPenalty p.size := by
  obtain ⟨factor, hfactor, h⟩ := bind_eq_ok.mp h
  obtain ⟨q₁, hobjective, h⟩ := bind_eq_ok.mp h
  obtain ⟨q₂, hconstraints, h⟩ := bind_eq_ok.mp h
  rw [pure_eq_ok, Prod.mk.injEq] at h
  obtain ⟨rfl, rfl⟩ := h
  exact ⟨factor, q₁, hfactor, ofBuilding_eq_ok.mp hobjective, ofBuilding_eq_ok.mp hconstraints, rfl⟩

/-- The steps of the stage for slack variables. -/
theorem addSlacks_steps (h : p.addSlacks = .ok (q, r)) :
    ∃ q₀ slacks, p.variablesOnly.setObjective p.objective = .ok q₀ ∧
      p.constraints.foldlM p.addTightened (q₀, []) = .ok (q, slacks) ∧
      r = ⟨.inequalityToEquality, p.size, q.size, Record.keepAll p.size, slacks, false⟩ := by
  obtain ⟨q₀, hobjective, h⟩ := bind_eq_ok.mp h
  obtain ⟨⟨q₁, slacks⟩, hrun, h⟩ := bind_eq_ok.mp h
  rw [pure_eq_ok, Prod.mk.injEq] at h
  obtain ⟨rfl, rfl⟩ := h
  exact ⟨q₀, slacks, ofBuilding_eq_ok.mp hobjective, hrun, rfl⟩

/-- The steps of the stage for bits. -/
theorem binarize_steps (h : p.binarize = .ok (q, r)) :
    ∃ q₁ s q₂, p.vars.foldlM addBinarized (empty p.name, []) = .ok (q₁, s) ∧
      q₁.setObjective (Substitution.objective s p.objective) = .ok q₂ ∧
      q₂.addConstraints (p.constraints.map (Substitution.constraint s)) = .ok q ∧
      r = ⟨.integerToBinary, p.size, q.size, s, [], false⟩ := by
  obtain ⟨⟨q₁, s⟩, hrun, h⟩ := bind_eq_ok.mp h
  obtain ⟨q₂, hobjective, h⟩ := bind_eq_ok.mp h
  obtain ⟨q₃, hconstraints, h⟩ := bind_eq_ok.mp h
  rw [pure_eq_ok, Prod.mk.injEq] at h
  obtain ⟨rfl, rfl⟩ := h
  exact ⟨q₁, s, q₂, hrun, ofBuilding_eq_ok.mp hobjective, ofBuilding_eq_ok.mp hconstraints, rfl⟩

/-- The steps of the stage for equalities. -/
theorem foldEqualities_steps (h : p.foldEqualities given = .ok (q, r)) :
    ∃ factor, p.penaltyFactor given = .ok factor ∧ p.constraints.forM p.checkEquality = .ok () ∧
      p.variablesOnly.setObjective (p.withSquaredDeviations factor) = .ok q ∧
      r = Record.identity .linearEqualityToPenalty p.size := by
  obtain ⟨factor, hfactor, h⟩ := bind_eq_ok.mp h
  obtain ⟨_, hcheck, h⟩ := bind_eq_ok.mp h
  obtain ⟨q₁, hobjective, h⟩ := bind_eq_ok.mp h
  rw [pure_eq_ok, Prod.mk.injEq] at h
  obtain ⟨rfl, rfl⟩ := h
  exact ⟨factor, hfactor, hcheck, ofBuilding_eq_ok.mp hobjective, rfl⟩

/-- The steps of the stages for directions. -/
theorem orient_steps {target : Sense} {kind : StageKind} (h : p.orient target kind = .ok (q, r)) :
    ∃ q₁, p.variablesOnly.setObjective
        (if p.objective.sense = target then p.objective else p.objective.negate) = .ok q₁ ∧
      q₁.addConstraints p.constraints = .ok q ∧
      r = { Record.identity kind p.size with
        negatesObjective := !decide (p.objective.sense = target) } := by
  obtain ⟨q₁, hobjective, h⟩ := bind_eq_ok.mp h
  obtain ⟨q₂, hconstraints, h⟩ := bind_eq_ok.mp h
  rw [pure_eq_ok, Prod.mk.injEq] at h
  obtain ⟨rfl, rfl⟩ := h
  exact ⟨q₁, ofBuilding_eq_ok.mp hobjective, ofBuilding_eq_ok.mp hconstraints, rfl⟩

/-- The steps of the stage for products. -/
theorem linearize_steps (h : p.linearize = .ok (q, r)) :
    ∃ q₁ table q₂ q₃, p.allPairs.foldlM p.addProduct (p.variablesOnly, []) = .ok (q₁, table) ∧
      q₁.addConstraints (table.flatMap fun e => productConstraints (q₁.nameAt e.2) e.1 e.2) =
        .ok q₂ ∧
      q₂.setObjective (p.linearizedObjective table) = .ok q₃ ∧
      q₃.addConstraints (p.constraints.map (p.linearizedConstraint table)) = .ok q ∧
      r = ⟨.quadraticToLinear, p.size, q.size, Record.keepAll p.size, table.map fun e => e.2,
        false⟩ := by
  obtain ⟨⟨q₁, table⟩, hrun, h⟩ := bind_eq_ok.mp h
  obtain ⟨q₂, hties, h⟩ := bind_eq_ok.mp h
  obtain ⟨q₃, hobjective, h⟩ := bind_eq_ok.mp h
  obtain ⟨q₄, hconstraints, h⟩ := bind_eq_ok.mp h
  rw [pure_eq_ok, Prod.mk.injEq] at h
  obtain ⟨rfl, rfl⟩ := h
  exact ⟨q₁, table, q₂, q₃, hrun, ofBuilding_eq_ok.mp hties, ofBuilding_eq_ok.mp hobjective,
    ofBuilding_eq_ok.mp hconstraints, rfl⟩

end Problem

/-! ### What stages build -/

/-- A stage that keeps all variables in their places and adds others, which its record lists. -/
structure Record.Keeps (r : Record α) (kind : StageKind) (p q : Problem α) : Prop where
  /-- The record tells the kind of the stage. -/
  stage_eq : r.stage = kind
  /-- Every variable is recovered from its own place. -/
  mappings_eq : r.mappings = Record.keepAll p.size
  /-- The record starts from the variables of the one problem. -/
  sourceSize_eq : r.sourceSize = p.size
  /-- The record ends at the variables of the other problem. -/
  targetSize_eq : r.targetSize = q.size
  /-- The problem is built on the variables, and the record lists the new ones. -/
  grows : ∃ news, p.variablesOnly.Grows q news ∧ r.auxiliary.Perm news

/-- A stage that builds everything anew, and whose mappings refer to the new variables in their
order. -/
structure Record.Replaces (r : Record α) (kind : StageKind) (p q : Problem α) : Prop where
  /-- The record tells the kind of the stage. -/
  stage_eq : r.stage = kind
  /-- One mapping for each variable before the stage. -/
  length_mappings : r.mappings.length = p.size
  /-- The record starts from the variables of the one problem. -/
  sourceSize_eq : r.sourceSize = p.size
  /-- The record ends at the variables of the other problem. -/
  targetSize_eq : r.targetSize = q.size
  /-- There are no variables but those that the mappings refer to. -/
  auxiliary_eq : r.auxiliary = []
  /-- The problem is built from nothing, with the variables that the mappings refer to. -/
  grows : (Problem.empty p.name).Grows q (r.mappings.flatMap Mapping.indices)

namespace Problem

variable {p q : Problem α} {r : Record α} {given : Option α}

/-- A stage that adds no variables keeps them. -/
private theorem keeps_of_grows {kind : StageKind} {negates : Bool}
    (h : p.variablesOnly.Grows q []) :
    Record.Keeps { Record.identity kind p.size with negatesObjective := negates } kind p q where
  stage_eq := rfl
  mappings_eq := rfl
  sourceSize_eq := rfl
  targetSize_eq := by
    obtain ⟨extra, hvars, hnews⟩ := h.exists_vars_eq
    have hnil : extra = [] := by simpa using hnews.symm
    simp [Record.identity, size, hvars, hnil, variablesOnly]
  grows := ⟨[], h, .refl _⟩

theorem foldShapes_keeps (h : p.foldShapes given = .ok (q, r)) :
    r.Keeps .linearInequalityToPenalty p q := by
  obtain ⟨_, _, -, hobjective, hconstraints, rfl⟩ := foldShapes_steps h
  exact keeps_of_grows ((Grows.refl.setObjective hobjective).addConstraints hconstraints)

theorem addSlacks_keeps (h : p.addSlacks = .ok (q, r)) : r.Keeps .inequalityToEquality p q := by
  obtain ⟨q₀, slacks, hobjective, hrun, rfl⟩ := addSlacks_steps h
  have hgrows : p.variablesOnly.Grows q slacks :=
    foldlM_ok_of_step (motive := fun _ state => p.variablesOnly.Grows state.1 state.2)
      (Grows.refl.setObjective hobjective)
      (fun _ _ _ _ _ _ hs hstep => hs.addTightened hstep) hrun
  exact ⟨rfl, rfl, rfl, rfl, slacks, hgrows, .refl _⟩

theorem foldEqualities_keeps (h : p.foldEqualities given = .ok (q, r)) :
    r.Keeps .linearEqualityToPenalty p q := by
  obtain ⟨_, -, -, hobjective, rfl⟩ := foldEqualities_steps h
  exact keeps_of_grows (Grows.refl.setObjective hobjective)

theorem orient_keeps {target : Sense} {kind : StageKind}
    (h : p.orient target kind = .ok (q, r)) : r.Keeps kind p q := by
  obtain ⟨_, hobjective, hconstraints, rfl⟩ := orient_steps h
  exact keeps_of_grows ((Grows.refl.setObjective hobjective).addConstraints hconstraints)

theorem linearize_keeps (h : p.linearize = .ok (q, r)) : r.Keeps .quadraticToLinear p q := by
  obtain ⟨q₁, table, q₂, q₃, hrun, hties, hobjective, hconstraints, rfl⟩ := linearize_steps h
  obtain ⟨news, hgrows, hperm⟩ :=
    foldlM_ok_of_step (motive := fun _ state => ∃ news, p.variablesOnly.Grows state.1 news ∧
        (state.2.map fun e => e.2).Perm news) ⟨[], .refl, .refl _⟩
      (fun _ _ _ _ _ _ hs hstep => Grows.addProduct hs hstep) hrun
  refine ⟨rfl, rfl, rfl, rfl, news, ?_, hperm⟩
  exact ((hgrows.addConstraints hties).setObjective hobjective).addConstraints hconstraints

/-- **The stage for bits** builds everything anew. -/
theorem binarize_replaces (h : p.binarize = .ok (q, r)) : r.Replaces .integerToBinary p q := by
  obtain ⟨q₁, s, q₂, hrun, hobjective, hconstraints, rfl⟩ := binarize_steps h
  obtain ⟨hgrows, hlen⟩ :=
    foldlM_ok_of_step (motive := fun done state =>
        (Problem.empty p.name).Grows state.1 (state.2.flatMap Mapping.indices) ∧
          state.2.length = done.length) ⟨.refl, rfl⟩
      (fun done v _ _ _ _ hs hstep => by
        obtain ⟨hgrows, hlen⟩ := hs.1.addBinarized hstep
        exact ⟨hgrows, by rw [hlen, hs.2, List.length_append, List.length_singleton]⟩) hrun
  refine ⟨rfl, hlen, rfl, rfl, rfl, ?_⟩
  exact (hgrows.setObjective hobjective).addConstraints hconstraints

end Problem

namespace Stage

variable {p q : Problem α} {r : Record α} {s : Stage α}

/-- **The other stages** keep all variables. -/
theorem keeps_of_apply (hs : s ≠ .integerToBinary) (h : s.apply p = .ok (q, r)) :
    r.Keeps s.kind p q := by
  cases s with
  | linearInequalityToPenalty _ => exact Problem.foldShapes_keeps h
  | inequalityToEquality => exact Problem.addSlacks_keeps h
  | integerToBinary => exact absurd rfl hs
  | linearEqualityToPenalty _ => exact Problem.foldEqualities_keeps h
  | maximizeToMinimize => exact Problem.orient_keeps h
  | minimizeToMaximize => exact Problem.orient_keeps h
  | quadraticToLinear => exact Problem.linearize_keeps h

/-- Every stage keeps all variables or replaces them. -/
theorem keeps_or_replaces (h : s.apply p = .ok (q, r)) :
    r.Keeps s.kind p q ∨ r.Replaces s.kind p q := by
  by_cases hs : s = .integerToBinary
  · subst hs
    exact Or.inr (Problem.binarize_replaces h)
  · exact Or.inl (keeps_of_apply hs h)

/-- The record of a stage tells its kind. -/
theorem stage_of_apply (h : s.apply p = .ok (q, r)) : r.stage = s.kind :=
  (keeps_or_replaces h).elim (fun hr => hr.stage_eq) fun hr => hr.stage_eq

/-- **Well-formed results.** What a stage makes of a well-formed problem is well-formed. -/
theorem wellFormed_of_apply (hp : p.WellFormed) (h : s.apply p = .ok (q, r)) : q.WellFormed := by
  rcases keeps_or_replaces h with hr | hr
  · obtain ⟨_, hgrows, -⟩ := hr.grows
    exact hgrows.wellFormed hp.variablesOnly
  · exact hr.grows.wellFormed (Problem.wellFormed_empty p.name)

end Stage

end QuboReduction

import QuboReduction.Builder
import QuboReduction.Document.Conversion
import QuboReduction.Proofs.Growth

/-!
# Reachable problems

A program gets problems in three ways: it builds them by operations, any of which may be refused, it
reads them from documents, and it converts them by stages. Whichever it does in whatever order, it
only ever sees consistent problems, and these are exactly the problems that can be built step by
step.

## Main definitions

* `QuboReduction.Problem.attempt` — a problem after an operation, also one that is refused.
* `QuboReduction.Problem.Reachable` — the problems that a program can get.
* `QuboReduction.Problem.Consistent` — what a program can rely on.

## Main results

* `QuboReduction.Problem.WellFormed.attempt` — an operation leaves a problem well-formed.
* `QuboReduction.Problem.WellFormed.variableIndex?_eq_some_iff` — names tell indices.
* `QuboReduction.Builder.variableIndex?_of` — the table of names tells them too.
* `QuboReduction.Problem.Reachable.of_ofText`, `QuboReduction.Problem.Reachable.of_conversion` —
  problems from texts.
* `QuboReduction.Problem.reachable_iff_built` — the reachable problems.
* `QuboReduction.Problem.consistent_of_reachable` — reachable problems are consistent.
-/

namespace QuboReduction

variable {α : Type} [Scalar α]

/-! ### Operations -/

namespace BuildStep

/-- The operation that another one is short for. -/
def plain : BuildStep α → BuildStep α
  | .binaryVariable name => .addVariable name .binary
  | .integerVariable name lower upper => .addVariable name (.integer lower upper)
  | .minimize constant linear quadratic => .setObjective ⟨.minimize, constant, linear, quadratic⟩
  | .maximize constant linear quadratic => .setObjective ⟨.maximize, constant, linear, quadratic⟩
  | .linearConstraint name linear relation rhs =>
    .addConstraint (.ofLinear name linear relation rhs)
  | step => step

/-- All operations are short for three of them. -/
theorem plain_cases (step : BuildStep α) :
    (∃ name domain, step.plain = .addVariable name domain) ∨
      (∃ objective, step.plain = .setObjective objective) ∨
        ∃ c, step.plain = .addConstraint c := by
  cases step <;> simp [plain]

end BuildStep

namespace Problem

variable {p q : Problem α} {step : BuildStep α}

/-- The problem that an operation gives, unless it is refused. -/
def perform (p : Problem α) : BuildStep α → Except ProblemError (Problem α)
  | .addVariable name domain => Prod.fst <$> p.addVariable name domain
  | .binaryVariable name => Prod.fst <$> p.addVariable name .binary
  | .integerVariable name lower upper => Prod.fst <$> p.addVariable name (.integer lower upper)
  | .setObjective objective => p.setObjective objective
  | .minimize constant linear quadratic => p.setObjective ⟨.minimize, constant, linear, quadratic⟩
  | .maximize constant linear quadratic => p.setObjective ⟨.maximize, constant, linear, quadratic⟩
  | .addConstraint c => p.addConstraint c
  | .linearConstraint name linear relation rhs =>
    p.addConstraint (.ofLinear name linear relation rhs)

theorem perform_plain (p : Problem α) (step : BuildStep α) :
    p.perform step.plain = p.perform step := by
  cases step <;> rfl

/-- The problem after an operation: a refused one leaves it as it was. -/
def attempt (p : Problem α) (step : BuildStep α) : Problem α :=
  match p.perform step with
  | .ok q => q
  | .error _ => p

theorem attempt_plain (p : Problem α) (step : BuildStep α) :
    p.attempt step.plain = p.attempt step := by
  rw [attempt, perform_plain, attempt]

theorem attempt_of_ok (h : p.perform step = .ok q) : p.attempt step = q := by
  rw [attempt, h]

theorem attempt_of_refused (h : ∀ q, p.perform step ≠ .ok q) : p.attempt step = p := by
  rw [attempt]
  split
  · rename_i q hq
    exact absurd hq (h q)
  · rfl

/-- Each operation is one of the three steps of building. -/
theorem WellFormed.of_perform (hp : p.WellFormed) (h : p.perform step = .ok q) : q.WellFormed := by
  rw [← perform_plain] at h
  rcases step.plain_cases with ⟨name, domain, hstep⟩ | ⟨o, hstep⟩ | ⟨c, hstep⟩
  · rw [hstep] at h
    obtain ⟨⟨_, index⟩, hadd, rfl⟩ := map_eq_ok.mp h
    exact hp.of_addVariable hadd
  · rw [hstep] at h
    exact hp.of_setObjective h
  · rw [hstep] at h
    exact hp.of_addConstraint h

/-- An operation leaves a problem well-formed, whether it is refused or not. -/
theorem WellFormed.attempt (hp : p.WellFormed) (step : BuildStep α) :
    (p.attempt step).WellFormed := by
  rw [Problem.attempt]
  split
  · rename_i h
    exact hp.of_perform h
  · exact hp

/-! ### Reachable problems -/

/-- The problems that a program can get. -/
inductive Reachable : Problem α → Prop
  /-- A problem without variables and constraints. -/
  | empty (name : String) : Reachable (empty name)
  /-- A problem after an operation. -/
  | attempt {p : Problem α} (hp : Reachable p) (step : BuildStep α) : Reachable (p.attempt step)
  /-- The problem of a document. -/
  | document {p : Problem α} {v : Json α} (h : ofJson v = .ok p) : Reachable p
  /-- The problem that a stage leaves. -/
  | stage {p q : Problem α} {s : Stage α} {r : Record α} (hp : Reachable p)
      (h : s.apply p = .ok (q, r)) : Reachable q

/-- Any number of operations one after another. -/
theorem Reachable.attempts (hp : p.Reachable) (steps : List (BuildStep α)) :
    (steps.foldl Problem.attempt p).Reachable := by
  induction steps generalizing p with
  | nil => exact hp
  | cons step steps ih => exact ih (hp.attempt step)

/-- A problem read from a text. -/
theorem Reachable.of_ofText {text : String} (h : ofText text = .ok p) : p.Reachable := by
  simp only [ofText] at h
  split at h
  · obtain ⟨p', hp', h⟩ := bind_eq_ok.mp h
    split at h
    · obtain rfl := pure_eq_ok.mp h
      exact .document hp'
    · simp [throw_eq_error] at h
  · simp [throw_eq_error] at h

/-- A field of a conversion is the problem, or leaves it as it was. -/
private theorem problem_of_readField {state state' : Conversion.Partial α}
    {field : String × Json α} (h : Conversion.readField state field = .ok state') :
    (∃ p, ofJson field.2 = .ok p ∧ state'.problem = some p) ∨ state'.problem = state.problem := by
  simp only [Conversion.readField] at h
  split at h
  · split at h
    · contradiction
    · obtain ⟨p, hp, h⟩ := bind_eq_ok.mp h
      rw [← pure_eq_ok.mp h]
      exact Or.inl ⟨p, hp, rfl⟩
  · refine Or.inr ?_
    split at h
    · split at h
      · contradiction
      · obtain ⟨records, -, h⟩ := bind_eq_ok.mp h
        rw [← pure_eq_ok.mp h]
    · rw [← Except.ok.inj h]

private theorem exists_ofJson_of_ofFields {isComplete : Bool} {fields : List (String × Json α)}
    {c : Conversion α} (h : Conversion.ofFields isComplete fields = .ok c) :
    ∃ v, ofJson v = .ok c.problem := by
  obtain ⟨last, hrun, h⟩ := bind_eq_ok.mp h
  have hlast : ∀ p, last.problem = some p → ∃ v, ofJson v = .ok p :=
    foldlM_ok_of_step (motive := fun _ state => ∀ p, state.problem = some p →
        ∃ v, ofJson v = .ok p) (by simp)
      (fun _ field _ _ _ _ hstate hstep p hp => by
        rcases problem_of_readField hstep with ⟨p', hp', hsome⟩ | hsame
        · rw [hsome, Option.some.injEq] at hp
          exact ⟨field.2, hp ▸ hp'⟩
        · exact hstate p (hsame ▸ hp)) hrun
  split at h
  · split at h
    · obtain rfl := pure_eq_ok.mp h
      exact hlast _ rfl
    · simp [throw_eq_error] at h
  · simp [throw_eq_error] at h

/-- The problem of a conversion that is read from a text. -/
theorem Reachable.of_conversion {text : String} {c : Conversion α}
    (h : Conversion.ofText text = .ok c) : c.problem.Reachable := by
  obtain ⟨fields, -, h⟩ := bind_eq_ok.mp h
  obtain ⟨v, hv⟩ := exists_ofJson_of_ofFields h
  exact .document hv

/-- A problem is built anew from the parts that its document has. -/
theorem built_of_ofJson {v : Json α} (h : ofJson v = .ok p) : p.Built := by
  obtain ⟨parts, -, h⟩ := bind_eq_ok.mp h
  split at h
  · rename_i hbuild
    obtain rfl := pure_eq_ok.mp h
    exact .of_assemble hbuild
  · simp [throw_eq_error] at h

theorem Reachable.wellFormed (hp : p.Reachable) : p.WellFormed := by
  induction hp with
  | empty name => exact wellFormed_empty name
  | attempt _ step ih => exact ih.attempt step
  | document h => exact (built_of_ofJson h).wellFormed
  | stage _ h ih => exact Stage.wellFormed_of_apply ih h

/-- What holds of new problems and is kept by operations holds of all problems that can be built. -/
theorem Built.attempt_induction {motive : Problem α → Prop}
    (hempty : ∀ name, motive (Problem.empty name))
    (hattempt : ∀ p step, motive p → motive (p.attempt step)) (hp : p.Built) : motive p := by
  induction hp with
  | empty name => exact hempty name
  | @addVariable p q name domain _ _ h ih =>
    have hok : p.perform (.addVariable name domain) = .ok q := map_eq_ok.mpr ⟨_, h, rfl⟩
    exact attempt_of_ok hok ▸ hattempt p _ ih
  | @setObjective p q o _ h ih =>
    have hok : p.perform (.setObjective o) = .ok q := h
    exact attempt_of_ok hok ▸ hattempt p _ ih
  | @addConstraint p q c _ h ih =>
    have hok : p.perform (.addConstraint c) = .ok q := h
    exact attempt_of_ok hok ▸ hattempt p _ ih

/-- **The reachable problems** are those that can be built step by step. -/
theorem reachable_iff_built : p.Reachable ↔ p.Built :=
  ⟨fun hp => built_iff_wellFormed.mpr hp.wellFormed,
    Built.attempt_induction .empty fun _ step hp => hp.attempt step⟩

/-! ### Names and indices -/

/-- **Names tell indices**: the index of a name is that of the variable with this name. -/
theorem WellFormed.variableIndex?_eq_some_iff (hp : p.WellFormed) {name : String} {i : Nat} :
    p.variableIndex? name = some i ↔ ∃ v, p.variableAt? i = some v ∧ v.name = name := by
  rw [variableIndex?, List.findIdx?_eq_some_iff_getElem]
  simp only [beq_iff_eq, variableAt?, List.getElem?_eq_some_iff]
  constructor
  · rintro ⟨hi, hname, -⟩
    exact ⟨p.vars[i], ⟨hi, rfl⟩, hname⟩
  · rintro ⟨_, ⟨hi, rfl⟩, hname⟩
    refine ⟨hi, hname, fun j hji hj => ?_⟩
    -- a variable before this one would have the same name
    have hnodup := List.nodup_iff_injective_get.mp hp.variableNames_nodup
    have hlen : p.variableNames.length = p.vars.length := List.length_map _
    have heq : (⟨j, by omega⟩ : Fin p.variableNames.length) = ⟨i, by omega⟩ :=
      hnodup (by simp [variableNames, hj, hname])
    have hji' : j = i := congrArg Fin.val heq
    omega

end Problem

namespace Builder

variable {p : Problem α} {name : String}

/-- The table of a problem has the names of its variables. -/
theorem variableIndex?_of_isSome :
    ((of p).variableIndex? name).isSome ↔ name ∈ p.variableNames := by
  rw [variableIndex?, List.lookup_isSome_iff]
  simp only [of, Problem.variableNames, List.mem_reverse, List.mem_map, exists_exists_and_eq_and,
    beq_iff_eq]
  exact exists_congr fun v => and_congr_right fun _ => eq_comm

/-- The table tells the index that is found by searching the variables. -/
theorem variableIndex?_of (hp : p.WellFormed) (name : String) :
    (of p).variableIndex? name = p.variableIndex? name := by
  cases h : (of p).variableIndex? name with
  | none =>
    refine (Option.not_isSome_iff_eq_none.mp fun hsome => ?_).symm
    have htable := (variableIndex?_of_isSome (p := p)).mpr (Problem.variableIndex?_isSome.mp hsome)
    simp [h] at htable
  | some i =>
    obtain ⟨before, after, htable, -⟩ := List.lookup_eq_some_iff.mp h
    have hentry : (name, i) ∈ (p.vars.map fun v => (v.name, v.index)).reverse := by
      rw [show (p.vars.map fun v => (v.name, v.index)).reverse = _ from htable]
      simp
    obtain ⟨v, hv, heq⟩ := List.mem_map.mp (List.mem_reverse.mp hentry)
    obtain ⟨rfl, rfl⟩ := Prod.mk.inj heq
    obtain ⟨j, hj⟩ := List.mem_iff_getElem?.mp hv
    rw [hp.index_eq j v hj]
    exact (hp.variableIndex?_eq_some_iff.mpr ⟨v, hj, rfl⟩).symm

end Builder

namespace Problem

variable {p : Problem α}

/-! ### What a program can rely on -/

/-- The expressions of degree one in a problem. -/
def linears (p : Problem α) : List (Linear α) :=
  p.objective.polynomial.linear :: p.constraints.map Constraint.linear

/-- The expressions of degree two in a problem. -/
def quadratics (p : Problem α) : List (Quadratic α) :=
  p.objective.polynomial.quadratic :: p.constraints.map Constraint.quadratic

theorem WellFormed.linear_below (hp : p.WellFormed) {e : Linear α} (he : e ∈ p.linears) :
    e.Below p.size := by
  rcases List.mem_cons.mp he with rfl | he
  · exact hp.objective_below.1
  · obtain ⟨c, hc, rfl⟩ := List.mem_map.mp he
    exact (hp.constraint_below c hc).1

theorem WellFormed.quadratic_below (hp : p.WellFormed) {e : Quadratic α} (he : e ∈ p.quadratics) :
    e.Below p.size := by
  rcases List.mem_cons.mp he with rfl | he
  · exact hp.objective_below.2
  · obtain ⟨c, hc, rfl⟩ := List.mem_map.mp he
    exact (hp.constraint_below c hc).2

/-- What a program can rely on. -/
structure Consistent (p : Problem α) : Prop where
  /-- A variable carries the index at which it stands. -/
  index_eq : ∀ i v, p.variableAt? i = some v → v.index = i
  /-- No two variables have the same name. -/
  variableNames_nodup : p.variableNames.Nodup
  /-- The index of a name is that of the variable with this name. -/
  variableIndex?_eq_some_iff : ∀ name i,
    p.variableIndex? name = some i ↔ ∃ v, p.variableAt? i = some v ∧ v.name = name
  /-- The table that a program keeps of the names tells the same indices. -/
  table_eq_some_iff : ∀ name i,
    (Builder.of p).variableIndex? name = some i ↔ ∃ v, p.variableAt? i = some v ∧ v.name = name
  /-- No range is empty. -/
  lower_le_upper : ∀ v ∈ p.vars, v.domain.lower ≤ v.domain.upper
  /-- Terms of degree one mention variables of the problem only, and none is zero. -/
  linear_stored : ∀ e ∈ p.linears, ∀ t ∈ e.toList, t.1 < p.size ∧ (t.2 == 0) = false
  /-- Terms of degree two mention variables of the problem only, the one with the smaller index
  first, and none is zero. -/
  quadratic_stored : ∀ e ∈ p.quadratics, ∀ t ∈ e.toList,
    t.1.low ≤ t.1.high ∧ t.1.high < p.size ∧ (t.2 == 0) = false
  /-- Every constraint has a name. -/
  constraint_named : ∀ c ∈ p.constraints, c.name ≠ ""
  /-- No two constraints have the same name. -/
  constraintNames_nodup : (p.constraints.map Constraint.name).Nodup

theorem WellFormed.consistent (hp : p.WellFormed) : p.Consistent where
  index_eq := hp.index_eq
  variableNames_nodup := hp.variableNames_nodup
  variableIndex?_eq_some_iff _ _ := hp.variableIndex?_eq_some_iff
  table_eq_some_iff name _ := by
    rw [Builder.variableIndex?_of hp name, hp.variableIndex?_eq_some_iff]
  lower_le_upper := hp.lower_le_upper
  linear_stored e he t ht := ⟨hp.linear_below he t ht, e.nonzero t ht⟩
  quadratic_stored e he t ht := ⟨t.1.low_le_high, hp.quadratic_below he t ht, e.nonzero t ht⟩
  constraint_named := hp.constraint_named
  constraintNames_nodup := hp.constraintNames_nodup

/-- **Reachable problems are consistent**, whichever operations, documents and stages a program has
used, and whichever operations were refused. -/
theorem consistent_of_reachable (hp : p.Reachable) : p.Consistent := hp.wellFormed.consistent

/-- Operations of which three are refused: a name that is there already, an empty range, and a
constraint on a variable that does not exist. -/
def draftSteps : List (BuildStep Rat) :=
  [.binaryVariable "x", .binaryVariable "x", .integerVariable "n" 3 1, .integerVariable "n" (-1) 3,
    .maximize 0 (Terms.ofList [(1, 2)]) (Quadratic.ofProducts [(1, 0, 1)]),
    .linearConstraint "" (Terms.ofList [(0, 1), (2, 1)]) .le 3,
    .linearConstraint "" (Terms.ofList [(0, 1), (1, 1)]) .le 3]

/-- What the operations leave, and what the stage for slack variables makes of it. -/
theorem draft_consistent :
    (draftSteps.foldl attempt (empty "draft")).variableNames = ["x", "n"] ∧
      ∃ q r, (Stage.inequalityToEquality).apply (draftSteps.foldl attempt (empty "draft")) =
        .ok (q, r) ∧ q.Consistent := by
  have hok : ((Stage.inequalityToEquality).apply
      (draftSteps.foldl attempt (empty "draft"))).isOk = true := by decide +kernel
  obtain ⟨⟨q, r⟩, hq⟩ := isOk_iff.mp hok
  exact ⟨by decide +kernel, q, r, hq,
    consistent_of_reachable (.stage (.attempts (.empty "draft") draftSteps) hq)⟩

end Problem

end QuboReduction

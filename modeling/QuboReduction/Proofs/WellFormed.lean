import Mathlib.Data.List.Nodup
import QuboReduction.Proofs.Outcome
import QuboReduction.Proofs.Polynomial
import QuboReduction.Stage.ClosedForm

/-!
# Well-formed problems

The steps by which a problem is built check what they are given, so every problem that can be built
is well-formed: variables stand at their index, names are not used twice, ranges are not empty and
no expression mentions a variable that does not exist. Conversely a well-formed problem can be
built: building it again from its own parts succeeds and gives the problem itself.

## Main definitions

* `QuboReduction.Problem.WellFormed` — what the steps of building guarantee.
* `QuboReduction.Problem.Built` — the problems that can be built step by step.
* `QuboReduction.Problem.declare` — a problem with one more variable.

## Main results

* `QuboReduction.Problem.addVariable_eq_ok_iff`, `QuboReduction.Problem.setObjective_eq_ok_iff`,
  `QuboReduction.Problem.addConstraint_eq_ok_iff` — when a step succeeds, and what it gives.
* `QuboReduction.Problem.built_iff_wellFormed` — the problems that can be built.
-/

namespace QuboReduction

namespace Problem

variable {α : Type} [Scalar α] {p q : Problem α} {n : Nat}

/-- What the steps of building guarantee of a problem. -/
structure WellFormed (p : Problem α) : Prop where
  /-- A variable stands at the place that its index tells. -/
  index_eq : ∀ i v, p.variableAt? i = some v → v.index = i
  /-- No two variables have the same name. -/
  variableNames_nodup : p.variableNames.Nodup
  /-- No range is empty. -/
  lower_le_upper : ∀ v ∈ p.vars, v.domain.lower ≤ v.domain.upper
  /-- The objective mentions variables of the problem only. -/
  objective_below : p.objective.polynomial.Below p.size
  /-- The constraints mention variables of the problem only. -/
  constraint_below : ∀ c ∈ p.constraints, c.Below p.size
  /-- Every constraint has a name. -/
  constraint_named : ∀ c ∈ p.constraints, c.name ≠ ""
  /-- No two constraints have the same name. -/
  constraintNames_nodup : (p.constraints.map Constraint.name).Nodup

/-- A problem that can be built from nothing, step by step. -/
inductive Built : Problem α → Prop
  /-- A problem without variables and constraints. -/
  | empty (name : String) : Built (empty name)
  /-- A problem with one more variable. -/
  | addVariable {p q : Problem α} {name : String} {domain : Domain} {index : Nat} (hp : Built p)
      (h : p.addVariable name domain = .ok (q, index)) : Built q
  /-- A problem with another objective. -/
  | setObjective {p q : Problem α} {objective : Objective α} (hp : Built p)
      (h : p.setObjective objective = .ok q) : Built q
  /-- A problem with one more constraint. -/
  | addConstraint {p q : Problem α} {c : Constraint α} (hp : Built p)
      (h : p.addConstraint c = .ok q) : Built q

/-! ### Single steps -/

/-- A problem with one more variable. -/
def declare (p : Problem α) (name : String) (domain : Domain) : Problem α :=
  { p with vars := p.vars ++ [⟨name, domain, p.size⟩] }

@[simp] theorem size_declare (name : String) (domain : Domain) :
    (p.declare name domain).size = p.size + 1 := by simp [declare, size]

@[simp] theorem variableNames_declare (name : String) (domain : Domain) :
    (p.declare name domain).variableNames = p.variableNames ++ [name] := by
  simp [declare, variableNames]

theorem variableAt?_lt {i : Nat} {v : Variable} (h : p.variableAt? i = some v) : i < p.size := by
  obtain ⟨hi, _⟩ := List.getElem?_eq_some_iff.mp h
  exact hi

theorem isBinaryAt_lt {i : Nat} (h : p.isBinaryAt i = true) : i < p.size := by
  obtain ⟨v, hv, -⟩ := (Option.any_eq_true _ _).mp h
  exact variableAt?_lt hv

theorem exists_variableAt? {i : Nat} (h : i < p.size) :
    ∃ v ∈ p.vars, p.variableAt? i = some v :=
  ⟨p.vars[i], List.getElem_mem h, List.getElem?_eq_getElem h⟩

theorem variableIndex?_isSome {name : String} :
    (p.variableIndex? name).isSome ↔ name ∈ p.variableNames := by
  simp [variableIndex?, variableNames]

theorem constraint?_isSome {name : String} :
    (p.constraint? name).isSome ↔ name ∈ p.constraints.map Constraint.name := by
  simp [constraint?]

theorem checkIndex_eq_ok_iff {index : Option Nat} :
    p.checkIndex index = .ok () ↔ ∀ i, index = some i → i < p.size := by
  cases index with
  | none => simp [checkIndex]
  | some i =>
    by_cases h : p.size ≤ i
    · simp [checkIndex, h]
    · simpa [checkIndex, h] using Nat.lt_of_not_le h

/-- A variable is added when its name is new and its range is not empty. -/
theorem addVariable_eq_ok_iff {name : String} {domain : Domain} {index : Nat} :
    p.addVariable name domain = .ok (q, index) ↔
      name ∉ p.variableNames ∧ domain.lower ≤ domain.upper ∧ q = p.declare name domain ∧
        index = p.size := by
  rw [addVariable]
  rw [← variableIndex?_isSome]
  split
  · rename_i h
    simp [h]
  · rename_i hname
    split
    · rename_i h
      simp [Int.not_le.mpr h]
    · rename_i hbounds
      simp [hname, Int.not_lt.mp hbounds, declare, eq_comm]

theorem addVariable_eq_error {name : String} {domain : Domain} {e : ProblemError}
    (h : p.addVariable name domain = .error e) (hbounds : domain.lower ≤ domain.upper) :
    name ∈ p.variableNames := by
  by_contra hname
  rw [addVariable_eq_ok_iff.mpr ⟨hname, hbounds, rfl, rfl⟩] at h
  contradiction

/-- The name of a variable is not given to another one. -/
theorem addVariable_of_mem {name : String} (h : name ∈ p.variableNames) (domain : Domain) :
    p.addVariable name domain = .error (.duplicateVariable name) := by
  rw [addVariable, if_pos (variableIndex?_isSome.mpr h)]

/-- An objective is accepted when it mentions variables of the problem only. -/
theorem setObjective_eq_ok_iff {o : Objective α} :
    p.setObjective o = .ok q ↔ o.polynomial.Below p.size ∧ q = { p with objective := o } := by
  rw [setObjective]
  rw [bind_eq_ok, Polynomial.below_iff]
  constructor
  · rintro ⟨_, hcheck, hq⟩
    exact ⟨checkIndex_eq_ok_iff.mp hcheck, (pure_eq_ok.mp hq).symm⟩
  · rintro ⟨hbelow, rfl⟩
    exact ⟨(), checkIndex_eq_ok_iff.mpr hbelow, rfl⟩

/-- A constraint is added when it mentions variables of the problem only and its name is new. -/
theorem addConstraint_eq_ok_iff {c : Constraint α} :
    p.addConstraint c = .ok q ↔
      c.Below p.size ∧ p.nameFor c ∉ p.constraints.map Constraint.name ∧
        q = { p with constraints := p.constraints ++ [{ c with name := p.nameFor c }] } := by
  rw [addConstraint]
  rw [bind_eq_ok, Constraint.below_iff, ← constraint?_isSome]
  constructor
  · rintro ⟨_, hcheck, hq⟩
    refine ⟨checkIndex_eq_ok_iff.mp hcheck, ?_⟩
    by_cases hname : (p.constraint? (p.nameFor c)).isSome
    · simp only [hname, if_true, throw_eq_error, error_bind, reduceCtorEq] at hq
    · simp only [hname, if_false, Bool.false_eq_true] at hq
      exact ⟨by simpa using hname, (pure_eq_ok.mp hq).symm⟩
  · rintro ⟨hbelow, hname, rfl⟩
    refine ⟨(), checkIndex_eq_ok_iff.mpr hbelow, ?_⟩
    simp only [hname, if_false, Bool.false_eq_true]
    rfl

theorem setObjective_ne_error {o : Objective α} (h : o.polynomial.Below p.size) (e : ProblemError) :
    p.setObjective o ≠ .error e := by
  rw [setObjective_eq_ok_iff.mpr ⟨h, rfl⟩]
  simp

theorem nameFor_of_named {c : Constraint α} (h : c.name ≠ "") : p.nameFor c = c.name := by
  simp [nameFor, h]

theorem nameFor_ne (p : Problem α) (c : Constraint α) : p.nameFor c ≠ "" := by
  rw [nameFor]
  split
  · simp
  · rename_i h
    simpa using h

/-- A constraint with a name of its own is added as it is. -/
theorem addConstraint_named_eq_ok_iff {c : Constraint α} (h : c.name ≠ "") :
    p.addConstraint c = .ok q ↔
      c.Below p.size ∧ c.name ∉ p.constraints.map Constraint.name ∧
        q = { p with constraints := p.constraints ++ [c] } := by
  rw [addConstraint_eq_ok_iff, nameFor_of_named h]

theorem addConstraint_ne_error {c : Constraint α} (hnamed : c.name ≠ "") (hbelow : c.Below p.size)
    (hnew : c.name ∉ p.constraints.map Constraint.name) (e : ProblemError) :
    p.addConstraint c ≠ .error e := by
  rw [(addConstraint_named_eq_ok_iff hnamed).mpr ⟨hbelow, hnew, rfl⟩]
  simp

/-! ### Steps keep problems well-formed -/

theorem wellFormed_empty (name : String) : (empty name : Problem α).WellFormed where
  index_eq i v h := by simp [empty, variableAt?] at h
  variableNames_nodup := by simp [empty, variableNames]
  lower_le_upper := by simp [empty]
  objective_below := Polynomial.below_zero
  constraint_below := by simp [empty]
  constraint_named := by simp [empty]
  constraintNames_nodup := by simp [empty]

/-- The variables of a well-formed problem alone are a well-formed problem. -/
theorem WellFormed.variablesOnly (hp : p.WellFormed) : p.variablesOnly.WellFormed where
  index_eq := hp.index_eq
  variableNames_nodup := hp.variableNames_nodup
  lower_le_upper := hp.lower_le_upper
  objective_below := Polynomial.below_zero
  constraint_below := by simp [Problem.variablesOnly]
  constraint_named := by simp [Problem.variablesOnly]
  constraintNames_nodup := by simp [Problem.variablesOnly]

theorem WellFormed.declare (hp : p.WellFormed) {name : String} {domain : Domain}
    (hname : name ∉ p.variableNames) (hbounds : domain.lower ≤ domain.upper) :
    (p.declare name domain).WellFormed where
  index_eq i v h := by
    rcases Nat.lt_or_ge i p.size with hi | hi
    · rw [variableAt?, Problem.declare, List.getElem?_append_left hi] at h
      exact hp.index_eq i v h
    · rw [variableAt?, Problem.declare, List.getElem?_append_right hi,
        List.getElem?_singleton] at h
      split at h
      · have hv : ⟨name, domain, p.size⟩ = v := Option.some.inj h
        have hlen : p.vars.length = p.size := rfl
        rw [← hv]
        dsimp only
        omega
      · contradiction
  variableNames_nodup := by
    rw [variableNames_declare]
    exact hp.variableNames_nodup.append (List.nodup_singleton _) (by simpa using hname)
  lower_le_upper v hv := by
    rcases List.mem_append.mp hv with hv | hv
    · exact hp.lower_le_upper v hv
    · rw [List.mem_singleton.mp hv]
      exact hbounds
  objective_below := hp.objective_below.mono (by simp)
  constraint_below c hc := (hp.constraint_below c hc).mono (by simp)
  constraint_named := hp.constraint_named
  constraintNames_nodup := hp.constraintNames_nodup

theorem WellFormed.of_addVariable (hp : p.WellFormed) {name : String} {domain : Domain}
    {index : Nat} (h : p.addVariable name domain = .ok (q, index)) : q.WellFormed := by
  obtain ⟨hname, hbounds, rfl, -⟩ := addVariable_eq_ok_iff.mp h
  exact hp.declare hname hbounds

theorem WellFormed.of_setObjective (hp : p.WellFormed) {o : Objective α}
    (h : p.setObjective o = .ok q) : q.WellFormed := by
  obtain ⟨hbelow, rfl⟩ := setObjective_eq_ok_iff.mp h
  exact { hp with objective_below := hbelow }

theorem WellFormed.of_addConstraint (hp : p.WellFormed) {c : Constraint α}
    (h : p.addConstraint c = .ok q) : q.WellFormed := by
  obtain ⟨hbelow, hname, rfl⟩ := addConstraint_eq_ok_iff.mp h
  refine { hp with constraint_below := ?_, constraint_named := ?_, constraintNames_nodup := ?_ }
  · intro d hd
    rcases List.mem_append.mp hd with hd | hd
    · exact hp.constraint_below d hd
    · rw [List.mem_singleton.mp hd]
      exact hbelow
  · intro d hd
    rcases List.mem_append.mp hd with hd | hd
    · exact hp.constraint_named d hd
    · rw [List.mem_singleton.mp hd]
      exact p.nameFor_ne c
  · rw [List.map_append]
    exact hp.constraintNames_nodup.append (List.nodup_singleton _) (by simpa using hname)

/-- Every problem that can be built is well-formed. -/
theorem Built.wellFormed (hp : p.Built) : p.WellFormed := by
  induction hp with
  | empty name => exact wellFormed_empty name
  | addVariable _ h ih => exact ih.of_addVariable h
  | setObjective _ h ih => exact ih.of_setObjective h
  | addConstraint _ h ih => exact ih.of_addConstraint h

/-! ### Several constraints at once -/

/-- Constraints with names of their own are added as they are, and this succeeds exactly when they
mention variables of the problem only and no name is used twice. -/
theorem addConstraints_eq_ok_iff {cs : List (Constraint α)} (hnamed : ∀ c ∈ cs, c.name ≠ "")
    (hnodup : (p.constraints.map Constraint.name).Nodup) :
    p.addConstraints cs = .ok q ↔
      (∀ c ∈ cs, c.Below p.size) ∧ ((p.constraints ++ cs).map Constraint.name).Nodup ∧
        q = { p with constraints := p.constraints ++ cs } := by
  rw [addConstraints]
  induction cs generalizing p with
  | nil =>
    rw [List.foldlM_nil, pure_eq_ok]
    simpa [eq_comm] using fun _ => hnodup
  | cons c cs ih =>
    have hc : c.name ≠ "" := hnamed c List.mem_cons_self
    have hsnoc : p.constraints ++ c :: cs = (p.constraints ++ [c]) ++ cs := by simp
    rw [List.foldlM_cons, bind_eq_ok]
    constructor
    · rintro ⟨p', hstep, hrest⟩
      obtain ⟨hbelow, hname, rfl⟩ := (addConstraint_named_eq_ok_iff hc).mp hstep
      have hnodup' : ((p.constraints ++ [c]).map Constraint.name).Nodup := by
        rw [List.map_append]
        exact hnodup.append (List.nodup_singleton _) (by simpa using hname)
      obtain ⟨hbelows, hnames, rfl⟩ :=
        (ih (fun d hd => hnamed d (List.mem_cons_of_mem _ hd)) hnodup').mp hrest
      exact ⟨List.forall_mem_cons.mpr ⟨hbelow, hbelows⟩, hsnoc ▸ hnames, by simp⟩
    · rintro ⟨hbelow, hnames, rfl⟩
      obtain ⟨hbelow, hbelows⟩ := List.forall_mem_cons.mp hbelow
      have hname : c.name ∉ p.constraints.map Constraint.name := by
        rw [List.map_append, List.nodup_append] at hnames
        exact fun hmem => hnames.2.2 _ hmem _ (by simp) rfl
      refine ⟨_, (addConstraint_named_eq_ok_iff hc).mpr ⟨hbelow, hname, rfl⟩, ?_⟩
      rw [hsnoc] at hnames
      have hnodup' : ((p.constraints ++ [c]).map Constraint.name).Nodup := by
        rw [List.map_append] at hnames
        exact (List.nodup_append.mp hnames).1
      have hrest := ih (p := { p with constraints := p.constraints ++ [c] })
        (fun d hd => hnamed d (List.mem_cons_of_mem _ hd)) hnodup'
      exact hrest.mpr ⟨hbelows, hnames, by simp⟩

theorem WellFormed.of_addConstraints (hp : p.WellFormed) {cs : List (Constraint α)}
    (h : p.addConstraints cs = .ok q) : q.WellFormed :=
  foldlM_ok_of_step (motive := fun _ q => q.WellFormed) hp
    (fun _ _ _ _ _ _ hs hstep => hs.of_addConstraint hstep) h

theorem objective_of_addConstraints {cs : List (Constraint α)} (h : p.addConstraints cs = .ok q) :
    q.objective = p.objective :=
  foldlM_ok_of_step (motive := fun _ q => q.objective = p.objective) rfl
    (fun _ _ _ _ _ _ hs hstep => by
      obtain ⟨-, -, rfl⟩ := addConstraint_eq_ok_iff.mp hstep
      exact hs) h

/-- Constraints are added without variables. -/
theorem vars_of_addConstraints {cs : List (Constraint α)} (h : p.addConstraints cs = .ok q) :
    q.vars = p.vars ∧ q.constraints.length = p.constraints.length + cs.length :=
  foldlM_ok_of_step (motive := fun before q => q.vars = p.vars ∧
      q.constraints.length = p.constraints.length + before.length) ⟨rfl, rfl⟩
    (fun _ _ _ _ _ _ hs hstep => by
      obtain ⟨-, -, rfl⟩ := addConstraint_eq_ok_iff.mp hstep
      exact ⟨hs.1, by simp [hs.2, Nat.add_assoc]⟩) h

/-! ### Building a problem again -/

/-- A variable of a well-formed problem is added after those before it, and becomes what it is. -/
theorem WellFormed.addVariable_eq (hp : p.WellFormed) {before after : List Variable} {v : Variable}
    (h : p.vars = before ++ v :: after) (o : Objective α) :
    (⟨p.name, before, o, []⟩ : Problem α).addVariable v.name v.domain =
      .ok (⟨p.name, before ++ [v], o, []⟩, before.length) := by
  have hindex : v.index = before.length :=
    hp.index_eq before.length v (by simp [variableAt?, h])
  have hname : v.name ∉ before.map fun v => v.name := by
    have hnodup := hp.variableNames_nodup
    rw [variableNames, h, List.map_append, List.nodup_append] at hnodup
    exact fun hv => hnodup.2.2 _ hv _ (by simp) rfl
  refine addVariable_eq_ok_iff.mpr ⟨hname, hp.lower_le_upper v (by simp [h]), ?_, rfl⟩
  simp only [Problem.declare, size, ← hindex]

private theorem addVariables_declarations (hp : p.WellFormed) (before after : List Variable)
    (h : p.vars = before ++ after) (o : Objective α) :
    (⟨p.name, before, o, []⟩ : Problem α).addVariables (after.map fun v => (v.name, v.domain)) =
      .ok ⟨p.name, p.vars, o, []⟩ := by
  induction after generalizing before with
  | nil => simp [addVariables, h, pure, Except.pure]
  | cons v after ih =>
    rw [List.map_cons, addVariables, List.foldlM_cons, hp.addVariable_eq h]
    exact ih (before ++ [v]) (by simpa using h)

/-- **Building again.** A well-formed problem is what its own parts are assembled to. -/
theorem WellFormed.assemble_eq (hp : p.WellFormed) :
    assemble p.name p.declarations p.objective p.constraints = .ok p := by
  have hvars := addVariables_declarations hp [] p.vars rfl Objective.zero
  have hobjective : (⟨p.name, p.vars, Objective.zero, []⟩ : Problem α).setObjective p.objective =
      .ok ⟨p.name, p.vars, p.objective, []⟩ :=
    setObjective_eq_ok_iff.mpr ⟨hp.objective_below, rfl⟩
  have hconstraints : (⟨p.name, p.vars, p.objective, []⟩ : Problem α).addConstraints p.constraints =
      .ok p :=
    (addConstraints_eq_ok_iff hp.constraint_named (by simp)).mpr
      ⟨hp.constraint_below, by simpa using hp.constraintNames_nodup, by simp⟩
  simp only [assemble, empty, declarations]
  rw [hvars, ok_bind, hobjective, ok_bind, hconstraints]

theorem Built.of_assemble {name : String} {declarations : List (String × Domain)}
    {objective : Objective α} {constraints : List (Constraint α)}
    (h : assemble name declarations objective constraints = .ok p) : p.Built := by
  obtain ⟨p₁, hvars, h⟩ := bind_eq_ok.mp h
  obtain ⟨p₂, hobjective, hconstraints⟩ := bind_eq_ok.mp h
  have h₁ : p₁.Built := by
    refine foldlM_ok_of_step (motive := fun _ p => p.Built) (.empty name) ?_ hvars
    intro _ d _ s s' _ hs hstep
    obtain ⟨⟨_, index⟩, hadd, rfl⟩ := map_eq_ok.mp hstep
    exact hs.addVariable hadd
  exact foldlM_ok_of_step (motive := fun _ p => p.Built) (h₁.setObjective hobjective)
    (fun _ _ _ _ _ _ hs hstep => hs.addConstraint hstep) hconstraints

/-- **The problems that can be built** are the well-formed ones. -/
theorem built_iff_wellFormed : p.Built ↔ p.WellFormed :=
  ⟨Built.wellFormed, fun hp => .of_assemble hp.assemble_eq⟩

/-- Whether a problem can be built is told by assembling its parts. -/
theorem built_iff_assemble_eq :
    p.Built ↔ assemble p.name p.declarations p.objective p.constraints = .ok p :=
  ⟨fun hp => hp.wellFormed.assemble_eq, .of_assemble⟩

end Problem

end QuboReduction

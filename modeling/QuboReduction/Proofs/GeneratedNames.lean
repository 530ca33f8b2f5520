import QuboReduction.Proofs.Names
import QuboReduction.Proofs.Reachable
import QuboReduction.Scalar.Double

/-!
# Generated names of constraints

A constraint without a name is named `c` and the number of constraints before it. That name is new
as long as no constraint has the name of a number that is still to come. Constraints that are added
without names keep it so, and so do names that are not a `c` and a number, but a constraint may be
named `c1` when it is the first one, and a stage that takes constraints away lowers the number that
comes next. The unnamed constraint that would get the name is then refused.

## Main definitions

* `QuboReduction.generatedName` — the name that a number gives.
* `QuboReduction.Problem.NumbersBehind` — no constraint has a name that is still to be generated.

## Main results

* `QuboReduction.Problem.NumbersBehind.attempts` — operations that keep generated names new.
* `QuboReduction.Problem.NumbersBehind.exists_addConstraints` — unnamed constraints that are never
  refused.
* `QuboReduction.Problem.assemble_duplicate` — parts that name a constraint twice.
* `QuboReduction.Problem.addConstraint_unnamed` — when unnamed constraints are refused.
-/

namespace QuboReduction

variable {α : Type} [Scalar α] {k l : Nat}

/-! ### Names from numbers -/

/-- The name of an unnamed constraint that `k` constraints stand before. -/
def generatedName (k : Nat) : String := "c" ++ toString k

theorem generatedName_injective (h : generatedName k = generatedName l) : k = l := by
  have hlist := congrArg String.toList h
  rw [generatedName, generatedName, String.toList_append, String.toList_append] at hlist
  exact Problem.toString_injective (String.toList_inj.mp (List.append_cancel_left hlist))

theorem generatedName_ne_empty (k : Nat) : generatedName k ≠ "" := by
  intro h
  have hlist := congrArg String.toList h
  simp [generatedName] at hlist

/-- The name of the constraint is not one that a number gives. -/
def Constraint.Numberless (c : Constraint α) : Prop := ∀ k, c.name ≠ generatedName k

theorem Constraint.numberless_of_unnamed {c : Constraint α} (h : c.name = "") : c.Numberless :=
  fun k hk => generatedName_ne_empty k (hk.symm.trans h)

/-- The constraint that an operation is to add. -/
def BuildStep.constraint? : BuildStep α → Option (Constraint α)
  | .addConstraint c => some c
  | .linearConstraint name linear relation rhs => some (.ofLinear name linear relation rhs)
  | _ => none

theorem BuildStep.constraint?_plain (step : BuildStep α) :
    step.plain.constraint? = step.constraint? := by
  cases step <;> rfl

namespace Problem

variable {p q : Problem α} {c : Constraint α}

theorem nameFor_of_unnamed (h : c.name = "") :
    p.nameFor c = generatedName p.constraints.length := by
  simp [nameFor, h, generatedName]

theorem checkIndex_ne_duplicate (index : Option Nat) (name : String) :
    p.checkIndex index ≠ .error (.duplicateConstraint name) := by
  cases index with
  | none => simp [checkIndex]
  | some i =>
    rw [checkIndex]
    split <;> simp

/-- A constraint is refused for its name when another one has it. -/
theorem addConstraint_eq_duplicate_iff {name : String} :
    p.addConstraint c = .error (.duplicateConstraint name) ↔
      c.Below p.size ∧ p.nameFor c = name ∧ name ∈ p.constraints.map Constraint.name := by
  rw [addConstraint, bind_eq_error, Constraint.below_iff, ← checkIndex_eq_ok_iff,
    ← constraint?_isSome]
  constructor
  · rintro (hcheck | ⟨_, hcheck, h⟩)
    · exact absurd hcheck (checkIndex_ne_duplicate _ _)
    · refine ⟨hcheck, ?_⟩
      by_cases hname : (p.constraint? (p.nameFor c)).isSome
      · simp only [hname, if_true, throw_eq_error, error_bind, Except.error.injEq,
          ProblemError.duplicateConstraint.injEq] at h
        exact ⟨h, h ▸ hname⟩
      · simp only [hname, if_false, Bool.false_eq_true] at h
        exact absurd h pure_ne_error
  · rintro ⟨hcheck, rfl, hname⟩
    refine Or.inr ⟨(), hcheck, ?_⟩
    simp only [hname, if_true, throw_eq_error, error_bind]

/-! ### Steps -/

/-- No constraint has the name of a number that is still to come. -/
def NumbersBehind (p : Problem α) : Prop :=
  ∀ k, p.constraints.length ≤ k → generatedName k ∉ p.constraints.map Constraint.name

theorem numbersBehind_of_constraints_eq_nil (h : p.constraints = []) : p.NumbersBehind := by
  intro k _
  rw [h]
  exact List.not_mem_nil

/-- A constraint without a number in its name keeps the numbers behind. -/
theorem NumbersBehind.of_addConstraint (hp : p.NumbersBehind) (hc : c.Numberless)
    (h : p.addConstraint c = .ok q) : q.NumbersBehind := by
  obtain ⟨-, -, rfl⟩ := addConstraint_eq_ok_iff.mp h
  intro k hk hmem
  simp only [List.length_append, List.length_singleton] at hk
  rw [List.map_append, List.mem_append, List.map_singleton, List.mem_singleton] at hmem
  rcases hmem with hmem | hname
  · exact hp k (by omega) hmem
  · by_cases hunnamed : c.name = ""
    · rw [nameFor_of_unnamed hunnamed] at hname
      have := generatedName_injective hname
      omega
    · exact hc k ((nameFor_of_named hunnamed).symm.trans hname.symm)

/-- An unnamed constraint is not refused while the numbers are behind. -/
theorem NumbersBehind.exists_addConstraint (hp : p.NumbersBehind) (hc : c.name = "")
    (hbelow : c.Below p.size) : ∃ q, p.addConstraint c = .ok q := by
  refine ⟨_, addConstraint_eq_ok_iff.mpr ⟨hbelow, ?_, rfl⟩⟩
  rw [nameFor_of_unnamed hc]
  exact hp _ le_rfl

/-- An operation keeps the numbers behind, whether it is refused or not. -/
theorem NumbersBehind.attempt {step : BuildStep α} (hp : p.NumbersBehind)
    (hstep : ∀ c, step.constraint? = some c → c.Numberless) : (p.attempt step).NumbersBehind := by
  rw [Problem.attempt, ← perform_plain]
  rw [← step.constraint?_plain] at hstep
  split
  · rename_i q h
    rcases step.plain_cases with ⟨name, domain, hplain⟩ | ⟨o, hplain⟩ | ⟨c, hplain⟩
    · rw [hplain] at h
      obtain ⟨⟨_, index⟩, hadd, rfl⟩ := map_eq_ok.mp h
      obtain ⟨-, -, rfl, -⟩ := addVariable_eq_ok_iff.mp hadd
      exact hp
    · rw [hplain] at h
      obtain ⟨-, rfl⟩ := setObjective_eq_ok_iff.mp h
      exact hp
    · rw [hplain] at h hstep
      exact hp.of_addConstraint (hstep c rfl) h
  · exact hp

/-- Operations one after another keep the numbers behind. -/
theorem NumbersBehind.attempts {steps : List (BuildStep α)} (hp : p.NumbersBehind)
    (hsteps : ∀ step ∈ steps, ∀ c, step.constraint? = some c → c.Numberless) :
    (steps.foldl Problem.attempt p).NumbersBehind := by
  induction steps generalizing p with
  | nil => exact hp
  | cons step steps ih =>
    exact ih (hp.attempt (hsteps step List.mem_cons_self)) fun s hs =>
      hsteps s (List.mem_cons_of_mem _ hs)

/-- Unnamed constraints are never refused while the numbers are behind. -/
theorem NumbersBehind.exists_addConstraints {cs : List (Constraint α)} (hp : p.NumbersBehind)
    (hcs : ∀ c ∈ cs, c.name = "" ∧ c.Below p.size) : ∃ q, p.addConstraints cs = .ok q := by
  induction cs generalizing p with
  | nil => exact ⟨p, rfl⟩
  | cons c cs ih =>
    obtain ⟨⟨hname, hbelow⟩, hcs⟩ := List.forall_mem_cons.mp hcs
    obtain ⟨q, hq⟩ := hp.exists_addConstraint hname hbelow
    have hsize : q.size = p.size := by
      obtain ⟨-, -, rfl⟩ := addConstraint_eq_ok_iff.mp hq
      rfl
    obtain ⟨r, hr⟩ := ih (hp.of_addConstraint (Constraint.numberless_of_unnamed hname) hq)
      (hsize ▸ hcs)
    refine ⟨r, ?_⟩
    rw [addConstraints, List.foldlM_cons, hq, ok_bind]
    exact hr

/-- Constraints that are there keep their names. -/
theorem names_subset_of_addConstraints {cs : List (Constraint α)}
    (h : p.addConstraints cs = .ok q) :
    p.constraints.map Constraint.name ⊆ q.constraints.map Constraint.name :=
  foldlM_ok_of_step
    (motive := fun _ q => p.constraints.map Constraint.name ⊆ q.constraints.map Constraint.name)
    (List.Subset.refl _)
    (fun _ _ _ _ _ _ hs hstep => by
      obtain ⟨-, -, rfl⟩ := addConstraint_eq_ok_iff.mp hstep
      rw [List.map_append]
      exact List.Subset.trans hs (List.subset_append_left _ _)) h

/-- If a constraint has the name of a number that is still to come, then an unnamed constraint is
refused when that number comes. -/
theorem numbersBehind_of_exists_addConstraints
    (h : ∀ cs : List (Constraint α), (∀ c ∈ cs, c.name = "" ∧ c.Below p.size) →
      ∃ q, p.addConstraints cs = .ok q) : p.NumbersBehind := by
  intro k hk hmem
  let unnamed : Constraint α := .ofLinear "" Terms.empty .le 0
  have hunnamed : ∀ c ∈ List.replicate (k - p.constraints.length) unnamed ++ [unnamed],
      c.name = "" ∧ c.Below p.size := by
    intro c hc
    rw [← List.replicate_succ'] at hc
    obtain rfl := List.eq_of_mem_replicate hc
    exact ⟨rfl, Terms.within_empty, Terms.within_empty⟩
  obtain ⟨q, hq⟩ := h _ hunnamed
  rw [addConstraints, List.foldlM_append, bind_eq_ok] at hq
  obtain ⟨r, hr, hq⟩ := hq
  obtain ⟨-, hlength⟩ := vars_of_addConstraints hr
  rw [List.length_replicate, Nat.add_sub_cancel' hk] at hlength
  rw [List.foldlM_cons, bind_eq_ok] at hq
  obtain ⟨_, hadd, -⟩ := hq
  have hnew := (addConstraint_eq_ok_iff.mp hadd).2.1
  rw [nameFor_of_unnamed rfl, hlength] at hnew
  exact hnew (names_subset_of_addConstraints hr hmem)

/-! ### Parts -/

theorem addVariables_ne_duplicate (declarations : List (String × Domain)) (name : String) :
    p.addVariables declarations ≠ .error (.duplicateConstraint name) := by
  intro h
  obtain ⟨_, d, _, s, -, -, hstep⟩ := foldlM_error_of_step (motive := fun _ _ => True) trivial
    (fun _ _ _ _ _ _ _ _ => trivial) h
  rw [addVariable] at hstep
  split_ifs at hstep <;> simp [Functor.map, Except.map] at hstep

theorem constraints_of_addVariables {declarations : List (String × Domain)}
    (h : p.addVariables declarations = .ok q) : q.constraints = p.constraints :=
  foldlM_ok_of_step (motive := fun _ q => q.constraints = p.constraints) rfl
    (fun _ _ _ _ _ _ hs hstep => by
      obtain ⟨⟨_, index⟩, hadd, rfl⟩ := map_eq_ok.mp hstep
      obtain ⟨-, -, rfl, -⟩ := addVariable_eq_ok_iff.mp hadd
      exact hs) h

theorem setObjective_ne_duplicate (objective : Objective α) (name : String) :
    p.setObjective objective ≠ .error (.duplicateConstraint name) := by
  rw [setObjective, ne_eq, bind_eq_error]
  rintro (hcheck | ⟨_, -, h⟩)
  · exact checkIndex_ne_duplicate _ _ hcheck
  · exact pure_ne_error h

/-- The constraints have the names that were given and names of numbers that are behind. -/
structure NamedFrom (given : List (Constraint α)) (p : Problem α) : Prop where
  /-- No constraint has the name of a number that is still to come. -/
  numbersBehind : p.NumbersBehind
  /-- Names are given or generated. -/
  name_cases : ∀ name ∈ p.constraints.map Constraint.name,
    name ∈ given.map Constraint.name ∨ ∃ k, name = generatedName k

theorem namedFrom_nil (h : p.constraints = []) : p.NamedFrom [] where
  numbersBehind := numbersBehind_of_constraints_eq_nil h
  name_cases := by simp [h]

theorem NamedFrom.of_addConstraint {given : List (Constraint α)} (hp : p.NamedFrom given)
    (hc : c.Numberless) (h : p.addConstraint c = .ok q) : q.NamedFrom (given ++ [c]) where
  numbersBehind := hp.numbersBehind.of_addConstraint hc h
  name_cases := by
    obtain ⟨-, -, rfl⟩ := addConstraint_eq_ok_iff.mp h
    intro name hname
    rw [List.map_append, List.mem_append, List.map_singleton, List.mem_singleton] at hname
    rw [List.map_append, List.mem_append, List.map_singleton, List.mem_singleton]
    rcases hname with hname | rfl
    · exact (hp.name_cases name hname).imp_left Or.inl
    · by_cases hunnamed : c.name = ""
      · exact Or.inr ⟨_, nameFor_of_unnamed hunnamed⟩
      · exact Or.inl (Or.inr (nameFor_of_named hunnamed))

/-- **Parts that name a constraint twice.** When no name is a `c` and a number, a problem is only
refused for the name of a constraint if two constraints are given it. -/
theorem assemble_duplicate {name n : String} {declarations : List (String × Domain)}
    {objective : Objective α} {cs : List (Constraint α)} (hcs : ∀ c ∈ cs, c.Numberless)
    (h : assemble name declarations objective cs = .error (.duplicateConstraint n)) :
    ∃ before c after, cs = before ++ c :: after ∧ c.name = n ∧ n ≠ "" ∧
      n ∈ before.map Constraint.name := by
  rw [assemble, bind_eq_error] at h
  rcases h with h | ⟨p, hp, h⟩
  · exact absurd h (addVariables_ne_duplicate _ _)
  rw [bind_eq_error] at h
  rcases h with h | ⟨q, hq, h⟩
  · exact absurd h (setObjective_ne_duplicate _ _)
  obtain ⟨-, rfl⟩ := setObjective_eq_ok_iff.mp hq
  have hnumberless : ∀ before c after, cs = before ++ c :: after → c.Numberless :=
    fun _ c _ heq => hcs c (heq ▸ List.mem_append_right _ List.mem_cons_self)
  have hstart : NamedFrom [] { p with objective } :=
    namedFrom_nil (constraints_of_addVariables hp)
  obtain ⟨before, c, after, s, heq, hnamed, hstep⟩ := foldlM_error_of_step hstart
    (fun _ _ _ _ _ heq hs hadd => hs.of_addConstraint (hnumberless _ _ _ heq) hadd) h
  obtain ⟨hbelow, hname, hmem⟩ := addConstraint_eq_duplicate_iff.mp hstep
  have hexplicit : c.name ≠ "" := by
    intro hunnamed
    obtain ⟨r, hr⟩ := hnamed.numbersBehind.exists_addConstraint hunnamed hbelow
    rw [hr] at hstep
    contradiction
  rw [nameFor_of_named hexplicit] at hname
  subst hname
  refine ⟨before, c, after, heq, rfl, hexplicit, (hnamed.name_cases _ hmem).resolve_right ?_⟩
  rintro ⟨k, hk⟩
  exact hnumberless _ _ _ heq k hk

/-- **Unnamed constraints.** A constraint without a name that mentions variables of the problem only
is added under the generated name, and refused when another constraint has that name. It is never
refused, however many are added before it, exactly when the numbers are behind. This they are after
operations whose names are not a `c` and a number, and parts with such names are only refused for a
name that two constraints are given. -/
theorem addConstraint_unnamed :
    (∀ (p : Problem α) (c : Constraint α), c.name = "" → c.Below p.size →
      p.addConstraint c =
        if generatedName p.constraints.length ∈ p.constraints.map Constraint.name then
          .error (.duplicateConstraint (generatedName p.constraints.length))
        else .ok { p with constraints := p.constraints ++
          [{ c with name := generatedName p.constraints.length }] }) ∧
      (∀ p : Problem α, p.NumbersBehind ↔ ∀ cs : List (Constraint α),
        (∀ c ∈ cs, c.name = "" ∧ c.Below p.size) → ∃ q, p.addConstraints cs = .ok q) ∧
      (∀ (name : String) (steps : List (BuildStep α)),
        (∀ step ∈ steps, ∀ c, step.constraint? = some c → c.Numberless) →
          (steps.foldl Problem.attempt (empty name)).NumbersBehind) ∧
      ∀ (name n : String) (declarations : List (String × Domain)) (objective : Objective α)
        (cs : List (Constraint α)), (∀ c ∈ cs, c.Numberless) →
          assemble name declarations objective cs = .error (.duplicateConstraint n) →
            ∃ before c after, cs = before ++ c :: after ∧ c.name = n ∧ n ≠ "" ∧
              n ∈ before.map Constraint.name := by
  refine ⟨fun p c hc hbelow => ?_, fun p => ⟨fun hp cs => hp.exists_addConstraints,
    numbersBehind_of_exists_addConstraints⟩, fun name steps => ?_,
    fun _ _ _ _ _ => assemble_duplicate⟩
  · split
    · rename_i hmem
      exact addConstraint_eq_duplicate_iff.mpr ⟨hbelow, nameFor_of_unnamed hc, hmem⟩
    · rename_i hnew
      rw [← nameFor_of_unnamed hc] at hnew ⊢
      exact addConstraint_eq_ok_iff.mpr ⟨hbelow, hnew, rfl⟩
  · exact (numbersBehind_of_constraints_eq_nil rfl).attempts

end Problem

/-- A constraint without a name and without terms. -/
def unnamed : Constraint Float := .ofLinear "" Terms.empty .le 1

theorem unnamed_below (n : Nat) : unnamed.Below n := ⟨Terms.within_empty, Terms.within_empty⟩

/-- A binary variable and a constraint of the name `total`. -/
def totalling : List (BuildStep Float) :=
  [.binaryVariable "x", .linearConstraint "total" (Terms.ofList [(0, 1)]) .le 1]

/-- After these operations unnamed constraints are added. -/
theorem totalling_unnamed :
    ∃ q, (totalling.foldl Problem.attempt (Problem.empty "totalling")).addConstraints
      [unnamed, unnamed] = .ok q := by
  obtain ⟨-, hbehind, hattempts, -⟩ := Problem.addConstraint_unnamed (α := Float)
  have htotal : ∀ k, "total" ≠ generatedName k := by
    intro k h
    have hlist := congrArg String.toList h
    simp [generatedName] at hlist
  have hnumberless : ∀ step ∈ totalling, ∀ c, step.constraint? = some c → c.Numberless := by
    simp only [totalling, List.forall_mem_cons, BuildStep.constraint?, Option.some.injEq,
      forall_eq', reduceCtorEq, false_imp_iff, implies_true, true_and]
    exact ⟨htotal, by simp⟩
  refine (hbehind _).mp (hattempts "totalling" totalling hnumberless) _ fun c hc => ?_
  obtain rfl : c = unnamed := by simpa using hc
  exact ⟨rfl, unnamed_below _⟩

/-- A binary variable and a constraint of the name `c1`, the first one. -/
def counting : Problem Float where
  name := "counting"
  vars := [⟨"x", .binary, 0⟩]
  objective := Objective.zero
  constraints := [.ofLinear "c1" (Terms.ofList [(0, 1)]) .le 1]

/-- Two binary variables and two unnamed constraints, `x + y ≤ 1` and `2 * x + y ≤ 2`. -/
def draining : Problem Float :=
  [.binaryVariable "x", .binaryVariable "y",
    .linearConstraint "" (Terms.ofList [(0, 1), (1, 1)]) .le 1,
    .linearConstraint "" (Terms.ofList [(0, 2), (1, 1)]) .le 2].foldl Problem.attempt
      (Problem.empty "draining")

/-- **Generated names that are taken.** The first constraint may have the name of the second one, be
it given, or be it generated before a stage takes the first of two constraints away. -/
theorem counting_refused :
    (counting.Reachable ∧ unnamed.name = "" ∧ unnamed.Below counting.size ∧
      counting.addConstraint unnamed = .error (.duplicateConstraint "c1")) ∧
    draining.Reachable ∧ ∃ q r, (Stage.linearInequalityToPenalty none).apply draining = .ok (q, r) ∧
      q.Reachable ∧ unnamed.Below q.size ∧
      q.addConstraint unnamed = .error (.duplicateConstraint "c1") := by
  have hdraining : draining.Reachable := (Problem.Reachable.empty _).attempts _
  have hcounting : counting.Reachable :=
    Problem.reachable_iff_built.mpr (Problem.built_iff_assemble_eq.mpr rfl)
  refine ⟨⟨hcounting, rfl, unnamed_below _, ?_⟩, hdraining, ?_⟩
  · exact Problem.addConstraint_eq_duplicate_iff.mpr ⟨unnamed_below _, by decide, by decide⟩
  · have hnames : ((Stage.linearInequalityToPenalty none).apply draining).toOption.map
        (fun q => q.1.constraints.map Constraint.name) = some ["c1"] := by decide +kernel
    cases h : (Stage.linearInequalityToPenalty none).apply draining with
    | error e => simp [h, Except.toOption] at hnames
    | ok result =>
      obtain ⟨q, r⟩ := result
      replace hnames : q.constraints.map Constraint.name = ["c1"] := by
        simpa [h, Except.toOption] using hnames
      have hlength : q.constraints.length = 1 := by
        rw [← List.length_map Constraint.name, hnames, List.length_singleton]
      refine ⟨q, r, rfl, hdraining.stage h, unnamed_below _, ?_⟩
      have hname : q.nameFor unnamed = "c1" := by
        rw [Problem.nameFor_of_unnamed rfl, hlength]
        rfl
      exact Problem.addConstraint_eq_duplicate_iff.mpr
        ⟨unnamed_below _, hname, hnames ▸ List.mem_singleton_self _⟩

end QuboReduction

import Mathlib.Order.Bounds.Basic
import QuboReduction.Proofs.Reachable

/-!
# Operations on a builder

Every operation on a builder makes all its checks before its first change, so one that is refused
leaves the builder as it was: the variables, the table of their names, the objective and the
constraints. One that succeeds changes the one part that it is about. Hence a refused operation can
be taken out of a sequence of operations, or put into it, without any other consequence than its own
answer.

## Main definitions

* `QuboReduction.Builder.run` — operations one after another.
* `QuboReduction.Builder.Reachable` — the builders that a program can get.
* `QuboReduction.Polynomial.indices`, `QuboReduction.Constraint.indices` — the indices that occur.
* `QuboReduction.Builder.Answers` — what an operation has to answer and to leave.

## Main results

* `QuboReduction.Polynomial.isGreatest_of_maxIndex?`,
  `QuboReduction.Constraint.isGreatest_of_maxIndex?` — the largest index.
* `QuboReduction.Builder.left_perform_of` — operations in place do to the problem what the steps of
  building do.
* `QuboReduction.Builder.reachable_iff` — the builders that a program can get are those of reachable
  problems.
* `QuboReduction.Builder.answers_perform` — what operations answer.
* `QuboReduction.Builder.Reachable.run_refused` — a refused operation in a sequence.
* `QuboReduction.Builder.perform_atomic` — operations change what they are about or nothing.
-/

namespace QuboReduction

variable {α : Type} [Scalar α]

/-! ### The indices that occur -/

/-- A number is the largest one of a list when the bounds above it are those above the list. -/
private theorem isGreatest_of_lt_iff {s : List Nat} {m : Nat}
    (h : ∀ n, m < n ↔ ∀ i ∈ s, i < n) : IsGreatest {i | i ∈ s} m := by
  have hbound : ∀ i ∈ s, i < m + 1 := (h (m + 1)).mp (Nat.lt_succ_self m)
  have hle : ∀ i ∈ s, i ≤ m := fun i hi => Nat.le_of_lt_succ (hbound i hi)
  refine ⟨?_, hle⟩
  by_contra hm
  -- otherwise all indices are below `m` itself
  have hlt : ∀ i ∈ s, i < m := fun i hi => lt_of_le_of_ne (hle i hi) fun heq => hm (heq ▸ hi)
  exact Nat.lt_irrefl m ((h m).mpr hlt)

/-- The indices in a linear and a quadratic expression. -/
def indicesIn (linear : Linear α) (quadratic : Quadratic α) : List Nat :=
  linear.keys ++ quadratic.keys.flatMap fun pair => [pair.low, pair.high]

/-- A pair is below a bound if its larger index is. -/
theorem forall_indicesIn_lt_iff {linear : Linear α} {quadratic : Quadratic α} {n : Nat} :
    (∀ i ∈ indicesIn linear quadratic, i < n) ↔ linear.Below n ∧ quadratic.Below n := by
  rw [Linear.Below, Quadratic.Below, Terms.within_iff_keys, Terms.within_iff_keys, indicesIn,
    List.forall_mem_append, List.forall_mem_flatMap]
  refine and_congr_right fun _ => forall₂_congr fun pair _ => ?_
  have hpair := pair.low_le_high
  simp only [List.forall_mem_cons, List.not_mem_nil, false_implies, implies_true, and_true]
  omega

namespace Polynomial

variable {f : Polynomial α}

/-- The indices that occur. -/
def indices (f : Polynomial α) : List Nat := indicesIn f.linear f.quadratic

theorem below_iff_indices {n : Nat} : f.Below n ↔ ∀ i ∈ f.indices, i < n :=
  forall_indicesIn_lt_iff.symm

theorem isGreatest_of_maxIndex? {i : Nat} (h : f.maxIndex? = some i) :
    IsGreatest {j | j ∈ f.indices} i :=
  isGreatest_of_lt_iff fun n => by rw [← below_iff_indices, below_iff, h]; simp

end Polynomial

namespace Constraint

variable {c : Constraint α}

/-- The indices that occur. -/
def indices (c : Constraint α) : List Nat := indicesIn c.linear c.quadratic

theorem below_iff_indices {n : Nat} : c.Below n ↔ ∀ i ∈ c.indices, i < n :=
  forall_indicesIn_lt_iff.symm

theorem isGreatest_of_maxIndex? {i : Nat} (h : c.maxIndex? = some i) :
    IsGreatest {j | j ∈ c.indices} i :=
  isGreatest_of_lt_iff fun n => by rw [← below_iff_indices, below_iff, h]; simp

end Constraint

/-- A largest index is refused if it is that of no variable. -/
theorem Problem.checkIndex_eq_error {p : Problem α} {index : Option Nat} {e : ProblemError}
    (h : p.checkIndex index = .error e) :
    ∃ i, index = some i ∧ p.size ≤ i ∧ e = .unknownVariable i p.size := by
  cases index with
  | none => contradiction
  | some i =>
    rw [checkIndex] at h
    split at h
    · rename_i hi
      exact ⟨i, rfl, hi, (Except.error.inj h).symm⟩
    · contradiction

/-! ### What the operations do -/

namespace Builder

variable {b b' : Builder α} {p : Problem α} {step : BuildStep α}
  {result result' : EStateM.Result ProblemError (Builder α) (Option Nat)}

/-- A change of the result is made when there is one. -/
theorem run_map {β γ : Type} (f : β → γ) (x : Building α β) :
    (f <$> x).run b =
      match x.run b with
      | .ok value b' => .ok (f value) b'
      | .error e b' => .error e b' := by
  change EStateM.map f x b = _
  rw [EStateM.map, show x b = x.run b from rfl]
  cases x.run b <;> rfl

/-- An operation goes on with the result of its first part and the builder that this leaves. -/
theorem run_bind {β γ : Type} (x : Building α β) (f : β → Building α γ) :
    (x >>= f).run b =
      match x.run b with
      | .ok value b' => (f value).run b'
      | .error e b' => .error e b' := by
  change EStateM.bind x f b = _
  rw [EStateM.bind, show x b = x.run b from rfl]
  cases x.run b <;> rfl

theorem run_get_bind {β : Type} (f : Builder α → Building α β) :
    (get >>= f).run b = (f b).run b := rfl

theorem run_checkIndex (index : Option Nat) :
    (checkIndex index).run b =
      match b.problem.checkIndex index with
      | .ok () => .ok () b
      | .error e => .error e b := by
  rw [checkIndex, run_get_bind]
  cases b.problem.checkIndex index <;> rfl

theorem run_addVariable (name : String) (domain : Domain) :
    (addVariable name domain).run b =
      if (b.variableIndex? name).isSome then .error (.duplicateVariable name) b
      else if domain.upper < domain.lower then
        .error (.invalidBounds name domain.lower domain.upper) b
      else .ok b.problem.size
        ⟨b.problem.declare name domain, (name, b.problem.size) :: b.table⟩ := by
  rw [addVariable, run_get_bind]
  split_ifs <;> rfl

theorem run_setObjective (o : Objective α) :
    (setObjective o).run b =
      match b.problem.checkIndex o.maxIndex? with
      | .ok () => .ok () { b with problem.objective := o }
      | .error e => .error e b := by
  rw [setObjective, run_bind, run_checkIndex]
  cases b.problem.checkIndex o.maxIndex? <;> rfl

theorem run_addConstraint (c : Constraint α) :
    (addConstraint c).run b =
      match b.problem.checkIndex c.maxIndex? with
      | .ok () =>
        if (b.problem.constraint? (b.problem.nameFor c)).isSome then
          .error (.duplicateConstraint (b.problem.nameFor c)) b
        else .ok () { b with
          problem.constraints := b.problem.constraints ++ [{ c with name := b.problem.nameFor c }] }
      | .error e => .error e b := by
  rw [addConstraint, run_bind, run_checkIndex]
  cases b.problem.checkIndex c.maxIndex? with
  | error e => rfl
  | ok _ =>
    dsimp only
    rw [run_get_bind, run_get_bind]
    split_ifs <;> rfl

theorem perform_plain (step : BuildStep α) : perform step.plain = perform step := by
  cases step <;> rfl

/-! ### What operations answer -/

/-- What an operation has to answer and to leave. There is one rule for each refusal and each
success of adding a variable, replacing the objective and adding a constraint. -/
inductive Answers (b : Builder α) :
    BuildStep α → EStateM.Result ProblemError (Builder α) (Option Nat) → Prop
  /-- The name of the variable is taken. -/
  | nameTaken {name : String} {domain : Domain} (htaken : name ∈ b.problem.variableNames) :
    Answers b (.addVariable name domain) (.error (.duplicateVariable name) b)
  /-- The name is new, and the range is empty. -/
  | emptyRange {name : String} {domain : Domain} (hname : name ∉ b.problem.variableNames)
    (hempty : domain.upper < domain.lower) :
    Answers b (.addVariable name domain)
      (.error (.invalidBounds name domain.lower domain.upper) b)
  /-- The variable is added, to the problem and to the table. -/
  | variableAdded {name : String} {domain : Domain} (hname : name ∉ b.problem.variableNames)
    (hrange : domain.lower ≤ domain.upper) :
    Answers b (.addVariable name domain)
      (.ok (some b.problem.size) { b with
        problem.vars := b.problem.vars ++ [⟨name, domain, b.problem.size⟩]
        table := (name, b.problem.size) :: b.table })
  /-- The objective mentions a variable that does not exist. -/
  | objectiveUnknown {o : Objective α} {i : Nat}
    (hgreatest : IsGreatest {j | j ∈ o.polynomial.indices} i) (hi : b.problem.size ≤ i) :
    Answers b (.setObjective o) (.error (.unknownVariable i b.problem.size) b)
  /-- The objective is replaced. -/
  | objectiveReplaced {o : Objective α} (hbelow : ∀ i ∈ o.polynomial.indices, i < b.problem.size) :
    Answers b (.setObjective o) (.ok none { b with problem.objective := o })
  /-- The constraint mentions a variable that does not exist. -/
  | constraintUnknown {c : Constraint α} {i : Nat}
    (hgreatest : IsGreatest {j | j ∈ c.indices} i) (hi : b.problem.size ≤ i) :
    Answers b (.addConstraint c) (.error (.unknownVariable i b.problem.size) b)
  /-- The name of the constraint, its own or the generated one, is taken. -/
  | constraintTaken {c : Constraint α} (hbelow : ∀ i ∈ c.indices, i < b.problem.size)
    (htaken : b.problem.nameFor c ∈ b.problem.constraints.map Constraint.name) :
    Answers b (.addConstraint c) (.error (.duplicateConstraint (b.problem.nameFor c)) b)
  /-- The constraint is added, under its name. -/
  | constraintAdded {c : Constraint α} (hbelow : ∀ i ∈ c.indices, i < b.problem.size)
    (hname : b.problem.nameFor c ∉ b.problem.constraints.map Constraint.name) :
    Answers b (.addConstraint c)
      (.ok none { b with
        problem.constraints := b.problem.constraints ++ [{ c with name := b.problem.nameFor c }] })

/-- The table has the names of the variables. -/
def Names (b : Builder α) : Prop :=
  ∀ name, (b.variableIndex? name).isSome ↔ name ∈ b.problem.variableNames

theorem answers_addVariable (hb : b.Names) (name : String) (domain : Domain) :
    Answers b (.addVariable name domain) ((perform (.addVariable name domain)).run b) := by
  rw [perform, run_map, run_addVariable]
  by_cases hname : name ∈ b.problem.variableNames
  · rw [if_pos ((hb name).mpr hname)]
    exact .nameTaken hname
  · rw [if_neg fun h => hname ((hb name).mp h)]
    by_cases hrange : domain.upper < domain.lower
    · rw [if_pos hrange]
      exact .emptyRange hname hrange
    · rw [if_neg hrange]
      exact .variableAdded hname (Int.not_lt.mp hrange)

theorem answers_setObjective (o : Objective α) :
    Answers b (.setObjective o) ((perform (.setObjective o)).run b) := by
  rw [perform, run_map, run_setObjective]
  cases hcheck : b.problem.checkIndex o.maxIndex? with
  | error e =>
    obtain ⟨i, hi, hsize, rfl⟩ := Problem.checkIndex_eq_error hcheck
    exact .objectiveUnknown (Polynomial.isGreatest_of_maxIndex? hi) hsize
  | ok _ =>
    refine .objectiveReplaced (Polynomial.below_iff_indices.mp (Polynomial.below_iff.mpr ?_))
    exact Problem.checkIndex_eq_ok_iff.mp hcheck

theorem answers_addConstraint (c : Constraint α) :
    Answers b (.addConstraint c) ((perform (.addConstraint c)).run b) := by
  rw [perform, run_map, run_addConstraint]
  cases hcheck : b.problem.checkIndex c.maxIndex? with
  | error e =>
    obtain ⟨i, hi, hsize, rfl⟩ := Problem.checkIndex_eq_error hcheck
    exact .constraintUnknown (Constraint.isGreatest_of_maxIndex? hi) hsize
  | ok _ =>
    have hbelow : ∀ i ∈ c.indices, i < b.problem.size := Constraint.below_iff_indices.mp
      (Constraint.below_iff.mpr (Problem.checkIndex_eq_ok_iff.mp hcheck))
    by_cases hname : b.problem.nameFor c ∈ b.problem.constraints.map Constraint.name
    · dsimp only
      rw [if_pos (Problem.constraint?_isSome.mpr hname)]
      exact .constraintTaken hbelow hname
    · dsimp only
      rw [if_neg fun h => hname (Problem.constraint?_isSome.mp h)]
      exact .constraintAdded hbelow hname

/-- **What operations answer.** -/
theorem answers_perform (hb : b.Names) (step : BuildStep α) :
    Answers b step.plain ((perform step).run b) := by
  rw [← perform_plain]
  rcases step.plain_cases with ⟨name, domain, hstep⟩ | ⟨o, hstep⟩ | ⟨c, hstep⟩
  · rw [hstep]
    exact answers_addVariable hb name domain
  · rw [hstep]
    exact answers_setObjective o
  · rw [hstep]
    exact answers_addConstraint c

/-- What bounds all numbers of a list is not below the largest one. -/
private theorem not_le_of_isGreatest {s : List Nat} {n i : Nat} (hbelow : ∀ j ∈ s, j < n)
    (hgreatest : IsGreatest {j | j ∈ s} i) : ¬n ≤ i :=
  Nat.not_le.mpr (hbelow i hgreatest.1)

/-- At most one rule applies, and it tells the answer. -/
theorem Answers.unique (h : Answers b step result) (h' : Answers b step result') :
    result = result' := by
  cases h with
  | nameTaken htaken => cases h' <;> first | rfl | contradiction
  | emptyRange hname hempty =>
    cases h' with
    | nameTaken htaken => contradiction
    | emptyRange => rfl
    | variableAdded _ hrange => exact absurd hempty (Int.not_lt.mpr hrange)
  | variableAdded hname hrange =>
    cases h' with
    | nameTaken htaken => contradiction
    | emptyRange _ hempty => exact absurd hempty (Int.not_lt.mpr hrange)
    | variableAdded => rfl
  | objectiveUnknown hgreatest hi =>
    cases h' with
    | objectiveUnknown hgreatest' => rw [hgreatest.unique hgreatest']
    | objectiveReplaced hbelow => exact absurd hi (not_le_of_isGreatest hbelow hgreatest)
  | objectiveReplaced hbelow =>
    cases h' with
    | objectiveUnknown hgreatest hi => exact absurd hi (not_le_of_isGreatest hbelow hgreatest)
    | objectiveReplaced => rfl
  | constraintUnknown hgreatest hi =>
    cases h' with
    | constraintUnknown hgreatest' => rw [hgreatest.unique hgreatest']
    | constraintTaken hbelow => exact absurd hi (not_le_of_isGreatest hbelow hgreatest)
    | constraintAdded hbelow => exact absurd hi (not_le_of_isGreatest hbelow hgreatest)
  | constraintTaken hbelow htaken =>
    cases h' with
    | constraintUnknown hgreatest hi => exact absurd hi (not_le_of_isGreatest hbelow hgreatest)
    | constraintTaken => rfl
    | constraintAdded => contradiction
  | constraintAdded hbelow hname =>
    cases h' with
    | constraintUnknown hgreatest hi => exact absurd hi (not_le_of_isGreatest hbelow hgreatest)
    | constraintTaken => contradiction
    | constraintAdded => rfl

/-- A refusal is the whole answer: the builder is what it was. -/
theorem Answers.eq_of_error {e : ProblemError} (h : Answers b step (.error e b')) : b' = b := by
  cases h <;> rfl

/-! ### Operations one after another -/

/-- What an operation answers, without the builder that it leaves. -/
def answer {ε σ β : Type} : EStateM.Result ε σ β → Except ε β
  | .ok value _ => .ok value
  | .error e _ => .error e

/-- The builder that an operation leaves, whether it is refused or not. -/
def left {ε σ β : Type} : EStateM.Result ε σ β → σ
  | .ok _ s => s
  | .error _ s => s

/-- Operations one after another, whatever they answer: their answers and the last builder. -/
def run : List (BuildStep α) → Builder α → List (Except ProblemError (Option Nat)) × Builder α
  | [], b => ([], b)
  | step :: steps, b =>
    let result := (perform step).run b
    let rest := run steps (left result)
    (answer result :: rest.1, rest.2)

theorem length_run (steps : List (BuildStep α)) (b : Builder α) :
    (run steps b).1.length = steps.length := by
  induction steps generalizing b with
  | nil => rfl
  | cons step steps ih => simp [run, ih]

theorem run_append (before later : List (BuildStep α)) (b : Builder α) :
    run (before ++ later) b =
      ((run before b).1 ++ (run later (run before b).2).1, (run later (run before b).2).2) := by
  induction before generalizing b with
  | nil => rfl
  | cons step before ih => simp [run, ih]

/-- A builder that a program can get from a new problem. -/
def Reachable (b : Builder α) : Prop := ∃ name steps, (run steps (start name)).2 = b

theorem Reachable.run (hb : b.Reachable) (steps : List (BuildStep α)) :
    (Builder.run steps b).2.Reachable := by
  obtain ⟨name, before, rfl⟩ := hb
  exact ⟨name, before ++ steps, by rw [run_append]⟩

/-! ### Builders and problems -/

/-- The table of a problem has the names of its variables. -/
theorem names_of (p : Problem α) : (of p).Names := fun _ => variableIndex?_of_isSome

/-- **In place.** What an operation does to the builder of a problem is what a step of building does
to the problem: a step that gives no problem leaves the builder as it was. -/
theorem left_perform_of (p : Problem α) (step : BuildStep α) :
    left ((perform step).run (of p)) = of (p.attempt step) := by
  have hanswers := answers_perform (names_of p) step
  rw [← Problem.attempt_plain]
  generalize step.plain = plain, (perform step).run (of p) = result at hanswers ⊢
  cases hanswers with
  | nameTaken htaken =>
    rw [Problem.attempt_of_refused fun q hq => ?_, left]
    obtain ⟨⟨_, _⟩, hadd, -⟩ := map_eq_ok.mp hq
    exact (Problem.addVariable_eq_ok_iff.mp hadd).1 htaken
  | emptyRange hname hempty =>
    rw [Problem.attempt_of_refused fun q hq => ?_, left]
    obtain ⟨⟨_, _⟩, hadd, -⟩ := map_eq_ok.mp hq
    exact absurd hempty (Int.not_lt.mpr (Problem.addVariable_eq_ok_iff.mp hadd).2.1)
  | variableAdded hname hrange =>
    rw [Problem.attempt_of_ok (map_eq_ok.mpr
      ⟨_, Problem.addVariable_eq_ok_iff.mpr ⟨hname, hrange, rfl, rfl⟩, rfl⟩)]
    simp [left, of, Problem.declare]
  | objectiveUnknown hgreatest hi =>
    rw [Problem.attempt_of_refused fun q hq => ?_, left]
    have hbelow := Polynomial.below_iff_indices.mp (Problem.setObjective_eq_ok_iff.mp hq).1
    exact not_le_of_isGreatest hbelow hgreatest hi
  | @objectiveReplaced o hbelow =>
    have hok : p.perform (.setObjective o) = .ok { p with objective := o } :=
      Problem.setObjective_eq_ok_iff.mpr ⟨Polynomial.below_iff_indices.mpr hbelow, rfl⟩
    rw [Problem.attempt_of_ok hok]
    rfl
  | constraintUnknown hgreatest hi =>
    rw [Problem.attempt_of_refused fun q hq => ?_, left]
    have hbelow := Constraint.below_iff_indices.mp (Problem.addConstraint_eq_ok_iff.mp hq).1
    exact not_le_of_isGreatest hbelow hgreatest hi
  | constraintTaken hbelow htaken =>
    rw [Problem.attempt_of_refused fun q hq => ?_, left]
    exact (Problem.addConstraint_eq_ok_iff.mp hq).2.1 htaken
  | @constraintAdded c hbelow hname =>
    have hok : p.perform (.addConstraint c) =
        .ok { p with constraints := p.constraints ++ [{ c with name := p.nameFor c }] } :=
      Problem.addConstraint_eq_ok_iff.mpr ⟨Constraint.below_iff_indices.mpr hbelow, hname, rfl⟩
    rw [Problem.attempt_of_ok hok]
    rfl

theorem run_of (p : Problem α) (steps : List (BuildStep α)) :
    (run steps (of p)).2 = of (steps.foldl Problem.attempt p) := by
  induction steps generalizing p with
  | nil => rfl
  | cons step steps ih => rw [run, List.foldl_cons, left_perform_of, ih]

/-- **The builders that a program can get** are those of the reachable problems, however it gets
these: by operations, from documents or by stages. -/
theorem reachable_iff : b.Reachable ↔ ∃ p : Problem α, p.Reachable ∧ of p = b := by
  constructor
  · rintro ⟨name, steps, rfl⟩
    exact ⟨_, .attempts (.empty name) steps, (run_of (.empty name) steps).symm⟩
  · rintro ⟨p, hp, rfl⟩
    have hattempt : ∀ (p : Problem α) (step : BuildStep α), (of p).Reachable →
        (of (p.attempt step)).Reachable := fun p step hp => by
      rw [← left_perform_of]
      exact hp.run [step]
    exact Problem.Built.attempt_induction (motive := fun p => (of p).Reachable)
      (fun name => ⟨name, [], rfl⟩) hattempt (Problem.reachable_iff_built.mp hp)

theorem Reachable.answers_perform (hb : b.Reachable) (step : BuildStep α) :
    Answers b step.plain ((perform step).run b) := by
  obtain ⟨p, -, rfl⟩ := reachable_iff.mp hb
  exact Builder.answers_perform (names_of p) step

/-! ### Refused operations -/

/-- **A refused operation in a sequence.** It leaves its own answer in its place and nothing else:
the answers before and after it and the last builder are those of the sequence without it. -/
theorem Reachable.run_refused (hb : b.Reachable) {before : List (BuildStep α)} {e : ProblemError}
    (h : (perform step).run (Builder.run before b).2 = .error e b') (later : List (BuildStep α)) :
    ∃ first rest last, first.length = before.length ∧
      Builder.run (before ++ later) b = (first ++ rest, last) ∧
      Builder.run (before ++ step :: later) b = (first ++ .error e :: rest, last) := by
  have hanswers := (hb.run before).answers_perform step
  rw [h] at hanswers
  refine ⟨(Builder.run before b).1, (Builder.run later (Builder.run before b).2).1,
    (Builder.run later (Builder.run before b).2).2, length_run before b, run_append before later b,
    ?_⟩
  rw [run_append, Builder.run, h, hanswers.eq_of_error]
  rfl

/-- **Operations change what they are about or nothing.** On every builder that a program can get,
each operation answers by the rules: the name of a variable that is taken comes before an empty
range, an index of no variable before the name of a constraint, and the largest index is told. A
refused operation leaves the whole builder as it was, so wherever it stands in a sequence, the other
answers and the last builder are as if it had never been issued. -/
theorem perform_atomic (hb : b.Reachable) :
    (∀ step result, (perform step).run b = result ↔ Answers b step.plain result) ∧
    (∀ step e b', (perform step).run b = .error e b' → b' = b) ∧
    ∀ before step later e b', (perform step).run (Builder.run before b).2 = .error e b' →
      ∃ first rest last, first.length = before.length ∧
        Builder.run (before ++ later) b = (first ++ rest, last) ∧
        Builder.run (before ++ step :: later) b = (first ++ .error e :: rest, last) := by
  refine ⟨fun step result => ⟨?_, fun h => (hb.answers_perform step).unique h⟩,
    fun step e b' h => ?_, fun before step later e b' h => hb.run_refused h later⟩
  · rintro rfl
    exact hb.answers_perform step
  · have hanswers := hb.answers_perform step
    rw [h] at hanswers
    exact hanswers.eq_of_error

/-- In a new problem there is no variable for `2·y + x·z`, and the largest index is told. The
operations of the draft leave the same builder without the second one, which is refused. -/
theorem draft_atomic :
    (perform (.minimize 0 (Terms.ofList [(1, 2)]) (Quadratic.ofProducts [(2, 0, 1)]))).run
        (start "draft" : Builder Rat) = .error (.unknownVariable 2 0) (start "draft") ∧
    (Builder.run (Problem.draftSteps.eraseIdx 1) (start "draft")).2 =
      (Builder.run Problem.draftSteps (start "draft")).2 := by
  have hstart : (start "draft" : Builder Rat).Reachable := ⟨"draft", [], rfl⟩
  obtain ⟨hrules, -, hsequence⟩ := perform_atomic hstart
  have hgreatest : IsGreatest
      {j | j ∈ (⟨0, Terms.ofList [(1, 2)], Quadratic.ofProducts [(2, 0, 1)]⟩ :
        Polynomial Rat).indices} 2 := by
    have hindices : (⟨0, Terms.ofList [(1, 2)], Quadratic.ofProducts [(2, 0, 1)]⟩ :
        Polynomial Rat).indices = [1, 0, 2] := by decide +kernel
    rw [hindices]
    refine ⟨by simp, fun j hj => ?_⟩
    simp only [Set.mem_ofPred_eq, List.mem_cons, List.not_mem_nil, or_false] at hj
    omega
  refine ⟨(hrules _ _).mpr (.objectiveUnknown hgreatest (Nat.zero_le 2)), ?_⟩
  obtain ⟨first, rest, last, -, hwithout, hwith⟩ := hsequence [.binaryVariable "x"]
    (.binaryVariable "x") (Problem.draftSteps.drop 2) _ _ rfl
  exact (congrArg Prod.snd hwithout).trans (congrArg Prod.snd hwith).symm

end Builder

end QuboReduction

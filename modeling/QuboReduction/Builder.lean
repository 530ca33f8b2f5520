import QuboReduction.Problem

/-!
# Building a problem in place

A program that builds a problem keeps it together with a table of the names of its variables, and
changes both in place. An operation checks what it is given and then changes one part after another.
When it is refused, the builder is left as it stands at that point, so whether the parts still fit
together depends on the order of checks and changes.

## Main definitions

* `QuboReduction.Builder` — a problem that is being built.
* `QuboReduction.Building` — operations on it, which may be refused.
* `QuboReduction.Builder.addVariable`, `QuboReduction.Builder.setObjective`,
  `QuboReduction.Builder.addConstraint` — the operations that change it.
* `QuboReduction.BuildStep` — the operations by which a program builds a problem.
* `QuboReduction.Builder.perform` — what an operation does.
-/

namespace QuboReduction

variable {α : Type} [Scalar α]

/-- A problem that is being built. -/
structure Builder (α : Type) [Scalar α] where
  /-- The problem. -/
  problem : Problem α
  /-- The index of the variable with a name. A later entry comes first and hides an earlier one. -/
  table : List (String × Nat)

/-- An operation on a builder. It gives a result or is refused, and leaves a builder either way. -/
abbrev Building (α : Type) [Scalar α] := EStateM ProblemError (Builder α)

namespace Builder

/-- The builder of a new problem. -/
def start (name : String) : Builder α := ⟨.empty name, []⟩

/-- The builder of a problem that is there already. -/
def of (p : Problem α) : Builder α := ⟨p, (p.vars.map fun v => (v.name, v.index)).reverse⟩

/-- The index of the variable with a name, as the table tells it. -/
def variableIndex? (b : Builder α) (name : String) : Option Nat := b.table.lookup name

/-! ### Operations -/

/-- Refuses an expression whose largest index is not that of a variable. -/
def checkIndex (index : Option Nat) : Building α Unit := do
  MonadExcept.ofExcept ((← get).problem.checkIndex index)

/-- Adds a variable, first to the table and then to the problem, and tells its index. -/
def addVariable (name : String) (domain : Domain) : Building α Nat := do
  if ((← get).variableIndex? name).isSome then throw (.duplicateVariable name)
  if domain.upper < domain.lower then
    throw (.invalidBounds name domain.lower domain.upper)
  let index := (← get).problem.size
  modify fun b => { b with table := (name, index) :: b.table }
  modify fun b => { b with problem.vars := b.problem.vars ++ [⟨name, domain, index⟩] }
  pure index

/-- Adds a binary variable. -/
def binaryVariable (name : String) : Building α Nat := addVariable name .binary

/-- Adds an integer variable with bounds. -/
def integerVariable (name : String) (lower upper : Int) : Building α Nat :=
  addVariable name (.integer lower upper)

/-- Replaces the objective. -/
def setObjective (objective : Objective α) : Building α Unit := do
  checkIndex objective.maxIndex?
  modify fun b => { b with problem.objective := objective }

/-- Replaces the objective by a polynomial to be minimized. -/
def minimize (constant : α) (linear : Linear α) (quadratic : Quadratic α) : Building α Unit :=
  setObjective ⟨.minimize, constant, linear, quadratic⟩

/-- Replaces the objective by a polynomial to be maximized. -/
def maximize (constant : α) (linear : Linear α) (quadratic : Quadratic α) : Building α Unit :=
  setObjective ⟨.maximize, constant, linear, quadratic⟩

/-- Adds a constraint, under a generated name when it has none. -/
def addConstraint (c : Constraint α) : Building α Unit := do
  checkIndex c.maxIndex?
  let name := (← get).problem.nameFor c
  if ((← get).problem.constraint? name).isSome then throw (.duplicateConstraint name)
  modify fun b =>
    { b with problem.constraints := b.problem.constraints ++ [{ c with name }] }

/-- Adds a constraint without terms of degree two. -/
def linearConstraint (name : String) (linear : Linear α) (relation : Relation) (rhs : α) :
    Building α Unit :=
  addConstraint (.ofLinear name linear relation rhs)

end Builder

/-- The operations by which a program builds a problem. -/
inductive BuildStep (α : Type) [Scalar α] where
  /-- Add a variable. -/
  | addVariable (name : String) (domain : Domain)
  /-- Add a binary variable. -/
  | binaryVariable (name : String)
  /-- Add an integer variable with bounds. -/
  | integerVariable (name : String) (lower upper : Int)
  /-- Replace the objective. -/
  | setObjective (objective : Objective α)
  /-- Replace the objective by a polynomial to be minimized. -/
  | minimize (constant : α) (linear : Linear α) (quadratic : Quadratic α)
  /-- Replace the objective by a polynomial to be maximized. -/
  | maximize (constant : α) (linear : Linear α) (quadratic : Quadratic α)
  /-- Add a constraint. -/
  | addConstraint (constraint : Constraint α)
  /-- Add a constraint without terms of degree two. -/
  | linearConstraint (name : String) (linear : Linear α) (relation : Relation) (rhs : α)

namespace Builder

/-- What an operation does. Adding a variable tells its index. -/
def perform : BuildStep α → Building α (Option Nat)
  | .addVariable name domain => some <$> addVariable name domain
  | .binaryVariable name => some <$> binaryVariable name
  | .integerVariable name lower upper => some <$> integerVariable name lower upper
  | .setObjective objective => (fun _ => none) <$> setObjective objective
  | .minimize constant linear quadratic => (fun _ => none) <$> minimize constant linear quadratic
  | .maximize constant linear quadratic => (fun _ => none) <$> maximize constant linear quadratic
  | .addConstraint c => (fun _ => none) <$> addConstraint c
  | .linearConstraint name linear relation rhs =>
    (fun _ => none) <$> linearConstraint name linear relation rhs

end Builder

end QuboReduction

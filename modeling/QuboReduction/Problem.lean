import QuboReduction.Constraint
import QuboReduction.Objective
import QuboReduction.Variable

/-!
# Problems

A problem has named variables, an objective and named constraints. It is built step by step, each
step being refused when it would name something twice, give a variable an empty range or mention a
variable that does not exist; a refused step gives no problem, so the old one stays as it was.

## Main definitions

* `QuboReduction.Problem` — problems.
* `QuboReduction.ProblemError` — why a step is refused, or a vector of values.
* `QuboReduction.Problem.addVariable`, `QuboReduction.Problem.setObjective`,
  `QuboReduction.Problem.addConstraint` — the steps.
* `QuboReduction.Problem.assemble` — a problem built from all its parts.
* `QuboReduction.Problem.evaluateObjective` — the objective at a vector of values.
-/

namespace QuboReduction

/-- Why a problem cannot be built or evaluated. -/
inductive ProblemError where
  /-- A variable of this name exists. -/
  | duplicateVariable (name : String)
  /-- A constraint of this name exists. -/
  | duplicateConstraint (name : String)
  /-- An expression mentions a variable that the problem does not have. -/
  | unknownVariable (index count : Nat)
  /-- The range of an integer variable is empty. -/
  | invalidBounds (name : String) (lower upper : Int)
  /-- A vector of values does not have one entry for each variable. -/
  | dimensionMismatch (expected actual : Nat)
deriving DecidableEq

/-- The text of an error. -/
def ProblemError.message : ProblemError → String
  | duplicateVariable name => "Duplicate variable name: " ++ name
  | duplicateConstraint name => "Duplicate constraint name: " ++ name
  | unknownVariable index count =>
    "Unknown variable index " ++ toString index ++ " (problem has " ++ toString count ++
      " variables)"
  | invalidBounds name lower upper =>
    "Invalid bounds for " ++ name ++ ": lower bound " ++ toString lower ++
      " exceeds upper bound " ++ toString upper
  | dimensionMismatch expected actual =>
    "Expected " ++ toString expected ++ " values but got " ++ toString actual

/-- Variables, an objective over them and constraints. -/
structure Problem (α : Type) [Scalar α] where
  /-- The name. -/
  name : String
  /-- The variables, in the order of their indices. -/
  vars : List Variable
  /-- What is to be optimized. -/
  objective : Objective α
  /-- What an assignment has to satisfy. -/
  constraints : List (Constraint α)

namespace Problem

variable {α : Type} [Scalar α]

/-- The problem of a name without variables and constraints. -/
def empty (name : String) : Problem α := ⟨name, [], Objective.zero, []⟩

/-! ### Looking up -/

/-- The number of variables. -/
def size (p : Problem α) : Nat := p.vars.length

/-- The variable with an index. -/
def variableAt? (p : Problem α) (index : Nat) : Option Variable := p.vars[index]?

/-- The index of the variable with a name. -/
def variableIndex? (p : Problem α) (name : String) : Option Nat :=
  p.vars.findIdx? fun v => v.name == name

/-- The names of the variables, in the order of their indices. -/
def variableNames (p : Problem α) : List String := p.vars.map fun v => v.name

/-- The constraint with a name. -/
def constraint? (p : Problem α) (name : String) : Option (Constraint α) :=
  p.constraints.find? fun c => c.name == name

/-- Whether an index belongs to a binary variable. -/
def isBinaryAt (p : Problem α) (index : Nat) : Bool := (p.variableAt? index).any Variable.isBinary

/-- Whether the problem is a quadratic unconstrained binary one: it has no constraints and all its
variables are binary. -/
def isQubo (p : Problem α) : Bool := p.constraints.isEmpty && p.vars.all Variable.isBinary

/-! ### Building -/

/-- Refuses an expression whose largest index is not that of a variable. -/
def checkIndex (p : Problem α) : Option Nat → Except ProblemError Unit
  | none => .ok ()
  | some index => if p.size ≤ index then .error (.unknownVariable index p.size) else .ok ()

/-- The problem with one more variable, and the index of that variable. -/
def addVariable (p : Problem α) (name : String) (domain : Domain) :
    Except ProblemError (Problem α × Nat) :=
  if (p.variableIndex? name).isSome then .error (.duplicateVariable name)
  else if domain.upper < domain.lower then
    .error (.invalidBounds name domain.lower domain.upper)
  else .ok ({ p with vars := p.vars ++ [⟨name, domain, p.size⟩] }, p.size)

/-- The problem with another objective. -/
def setObjective (p : Problem α) (objective : Objective α) : Except ProblemError (Problem α) := do
  p.checkIndex objective.maxIndex?
  pure { p with objective }

/-- The name under which a constraint is added: its own, or `c` and the number of constraints
before it when it has none. -/
def nameFor (p : Problem α) (c : Constraint α) : String :=
  if c.name.isEmpty then "c" ++ toString p.constraints.length else c.name

/-- The problem with one more constraint. -/
def addConstraint (p : Problem α) (c : Constraint α) : Except ProblemError (Problem α) := do
  p.checkIndex c.maxIndex?
  let name := p.nameFor c
  if (p.constraint? name).isSome then throw (.duplicateConstraint name)
  pure { p with constraints := p.constraints ++ [{ c with name }] }

/-- The problem with more variables, added one after another. -/
def addVariables (p : Problem α) (declarations : List (String × Domain)) :
    Except ProblemError (Problem α) :=
  declarations.foldlM (fun p d => Prod.fst <$> p.addVariable d.1 d.2) p

/-- The problem with more constraints, added one after another. -/
def addConstraints (p : Problem α) (constraints : List (Constraint α)) :
    Except ProblemError (Problem α) :=
  constraints.foldlM addConstraint p

/-- A problem with the given parts: its variables first, then the objective and the constraints. -/
def assemble (name : String) (declarations : List (String × Domain)) (objective : Objective α)
    (constraints : List (Constraint α)) : Except ProblemError (Problem α) := do
  let p ← (empty name).addVariables declarations
  let p ← p.setObjective objective
  p.addConstraints constraints

/-- The names and domains of the variables. -/
def declarations (p : Problem α) : List (String × Domain) :=
  p.vars.map fun v => (v.name, v.domain)

/-! ### Evaluating -/

/-- Refuses a vector that does not have one entry for each variable. -/
def checkLength (p : Problem α) (values : List α) : Except ProblemError Unit :=
  if values.length = p.size then .ok () else .error (.dimensionMismatch p.size values.length)

/-- The value of the objective at a vector. -/
def evaluateObjective (p : Problem α) (values : List α) : Except ProblemError α := do
  p.checkLength values
  pure (p.objective.evaluate (valueAt values))

/-- Whether two problems have the same variables and equal objectives and constraints. -/
def equal (p q : Problem α) : Bool :=
  p.name == q.name && p.vars == q.vars && p.objective.equal q.objective &&
    p.constraints.length == q.constraints.length &&
    (p.constraints.zip q.constraints).all fun c => c.1.equal c.2

end Problem

end QuboReduction

import QuboReduction.Document
import QuboReduction.Json.Reader

/-!
# Problems as documents

The form of a problem has its name, variables, objective and constraints. What is read is built step
by step, so the document of a problem that cannot be built is refused with the reason.

## Main definitions

* `QuboReduction.Problem.toJson`, `QuboReduction.Problem.ofJson` — the form of a problem.
* `QuboReduction.Problem.ofText` — a problem read from a text.
-/

namespace QuboReduction

variable {α : Type} [Scalar α]

/-! ### Expressions -/

namespace Linear

/-- The form of terms of degree one. -/
def termsToJson (terms : List (Nat × α)) : Json α :=
  .arr (terms.map fun t => .arr [.index t.1, .number t.2])

/-- The terms of degree one of a form. -/
def termsOfJson : Json α → Except DocumentError (List (Nat × α)) :=
  Json.toList (Json.toPair Json.toIndex Json.toScalar)

/-- The form of a linear expression. -/
def toJson (e : Linear α) : Json α := termsToJson e.toList

/-- The linear expression of a form. -/
def ofJson (v : Json α) : Except DocumentError (Linear α) := Terms.ofList <$> termsOfJson v

end Linear

namespace Quadratic

/-- The form of a quadratic expression. -/
def toJson (e : Quadratic α) : Json α :=
  .arr (e.toList.map fun t => .arr [.index t.1.low, .index t.1.high, .number t.2])

/-- The quadratic expression of a form. -/
def ofJson (v : Json α) : Except DocumentError (Quadratic α) :=
  ofProducts <$> Json.toList (Json.toTriple Json.toIndex Json.toIndex Json.toScalar) v

end Quadratic

/-! ### Variables -/

namespace Domain

/-- The form of a domain. -/
def toJson : Domain → Json α
  | binary => .str "binary"
  | integer lower upper =>
    .obj [("integer", .obj [("lower", .int lower), ("upper", .int upper)])]

/-- The domain of a form. -/
def ofJson (v : Json α) : Except DocumentError Domain := do
  match ← v.alternative with
  | ("binary", content) =>
    Json.noContent content
    pure binary
  | ("integer", some content) =>
    match ← content.members ["lower", "upper"] with
    | [lower, upper] =>
      let lower ← Json.required Json.toInteger lower
      let upper ← Json.required Json.toInteger upper
      pure (integer lower upper)
    | _ => throw .malformed
  | _ => throw .malformed

/-- The form of a variable. -/
def declarationToJson (d : String × Domain) : Json α :=
  .obj [("name", .str d.1), ("domain", d.2.toJson)]

/-- The name and domain of the form of a variable. -/
def declarationOfJson (v : Json α) : Except DocumentError (String × Domain) := do
  match ← v.members ["name", "domain"] with
  | [name, domain] =>
    let name ← Json.required Json.toText name
    let domain ← Json.required ofJson domain
    pure (name, domain)
  | _ => throw .malformed

end Domain

/-! ### Objectives -/

namespace Sense

/-- The name of a direction. -/
def code : Sense → String
  | minimize => "minimize"
  | maximize => "maximize"

/-- The direction of a form. -/
def ofJson : Json α → Except DocumentError Sense :=
  Json.choose [(code minimize, minimize), (code maximize, maximize)]

end Sense

namespace Objective

/-- The form of an objective. -/
def toJson (o : Objective α) : Json α :=
  .obj [("sense", .str o.sense.code), ("constant", .number o.polynomial.constant),
    ("linear", o.polynomial.linear.toJson), ("quadratic", o.polynomial.quadratic.toJson)]

/-- The objective of a form. -/
def ofJson (v : Json α) : Except DocumentError (Objective α) := do
  match ← v.members ["sense", "constant", "linear", "quadratic"] with
  | [sense, constant, linear, quadratic] =>
    let sense ← Json.required Sense.ofJson sense
    let constant ← Json.optional 0 Json.toScalar constant
    let linear ← Json.optional Terms.empty Linear.ofJson linear
    let quadratic ← Json.optional Terms.empty Quadratic.ofJson quadratic
    pure ⟨sense, constant, linear, quadratic⟩
  | _ => throw .malformed

end Objective

/-! ### Constraints -/

namespace Relation

/-- The relation of a form. -/
def ofJson : Json α → Except DocumentError Relation :=
  Json.choose [(symbol le, le), (symbol ge, ge), (symbol eq, eq)]

end Relation

namespace Constraint

/-- The form of a constraint. -/
def toJson (c : Constraint α) : Json α :=
  .obj [("name", .str c.name), ("linear", c.linear.toJson), ("quadratic", c.quadratic.toJson),
    ("sense", .str c.relation.symbol), ("rhs", .number c.rhs)]

/-- The constraint of a form. -/
def ofJson (v : Json α) : Except DocumentError (Constraint α) := do
  match ← v.members ["name", "linear", "quadratic", "sense", "rhs"] with
  | [name, linear, quadratic, relation, rhs] =>
    let name ← Json.optional "" Json.toText name
    let linear ← Json.optional Terms.empty Linear.ofJson linear
    let quadratic ← Json.optional Terms.empty Quadratic.ofJson quadratic
    let relation ← Json.required Relation.ofJson relation
    let rhs ← Json.required Json.toScalar rhs
    pure ⟨name, linear, quadratic, relation, rhs⟩
  | _ => throw .malformed

end Constraint

/-! ### Problems -/

/-- The parts of a problem as a document has them. -/
structure ProblemParts (α : Type) [Scalar α] where
  /-- The name. -/
  name : String
  /-- The names and domains of the variables. -/
  declarations : List (String × Domain)
  /-- The objective. -/
  objective : Objective α
  /-- The constraints. -/
  constraints : List (Constraint α)

namespace ProblemParts

/-- The parts of a problem. -/
def ofProblem (p : Problem α) : ProblemParts α :=
  ⟨p.name, p.declarations, p.objective, p.constraints⟩

/-- The problem with the given parts. -/
def build (parts : ProblemParts α) : Except ProblemError (Problem α) :=
  Problem.assemble parts.name parts.declarations parts.objective parts.constraints

/-- The form of the parts of a problem. -/
def toJson (parts : ProblemParts α) : Json α :=
  .obj [("name", .str parts.name),
    ("variables", .arr (parts.declarations.map Domain.declarationToJson)),
    ("objective", parts.objective.toJson),
    ("constraints", .arr (parts.constraints.map Constraint.toJson))]

/-- The parts of a problem of a form. -/
def ofJson (v : Json α) : Except DocumentError (ProblemParts α) := do
  match ← v.members ["name", "variables", "objective", "constraints"] with
  | [name, vars, objective, constraints] =>
    let name ← Json.optional "" Json.toText name
    let declarations ← Json.required (Json.toList Domain.declarationOfJson) vars
    let objective ← Json.optional Objective.zero Objective.ofJson objective
    let constraints ← Json.optional [] (Json.toList Constraint.ofJson) constraints
    pure ⟨name, declarations, objective, constraints⟩
  | _ => throw .malformed

end ProblemParts

namespace Problem

/-- The form of a problem. -/
def toJson (p : Problem α) : Json α := (ProblemParts.ofProblem p).toJson

/-- The problem of a form. The whole form is checked before anything is built. -/
def ofJson (v : Json α) : Except DocumentError (Problem α) := do
  let parts ← ProblemParts.ofJson v
  match parts.build with
  | .ok p => pure p
  | .error e => throw (.invalid e)

/-- The problem that a text has the form of. A problem that cannot be built is reported even if more
text follows its form. -/
def ofText (text : String) : Except DocumentError (Problem α) := do
  let r := Json.read text
  if r.isComplete then
    let p ← ofJson r.value
    if r.isClean then pure p else throw .malformed
  else throw .malformed

end Problem

end QuboReduction

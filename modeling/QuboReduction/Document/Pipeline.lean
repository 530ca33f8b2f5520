import QuboReduction.Document.Conversion

/-!
# Pipelines and shapes as documents

The form of a stage is an object with the name of its kind among its fields, or an array that starts
with that name. Only stages that use a penalty factor may have further fields; a factor that is not
given is `null`.

## Main definitions

* `QuboReduction.Stage.toJson`, `QuboReduction.Stage.ofJson` — the form of a stage.
* `QuboReduction.Stage.listToJson`, `QuboReduction.Stage.listOfJson` — the form of a pipeline.
* `QuboReduction.Shape.ofJson` — the shape of a form.
-/

namespace QuboReduction

variable {α : Type} [Scalar α]

namespace StageKind

/-- Whether a stage of this kind uses a penalty factor. -/
def usesFactor : StageKind → Bool
  | linearInequalityToPenalty => true
  | linearEqualityToPenalty => true
  | _ => false

/-- The kind with a name. -/
def ofCode? (name : String) : Option StageKind := all.find? fun k => k.code == name

end StageKind

namespace Stage

/-- The form of a penalty factor. -/
def factorToJson : Option α → Json α
  | some factor => .number factor
  | none => .null

/-- The penalty factor of a form. -/
def factorOfJson : Json α → Except DocumentError (Option α)
  | .null => .ok none
  | v => some <$> v.toScalar

/-- The form of a stage. -/
def toJson (s : Stage α) : Json α :=
  let stage := ("stage", s.kind.toJson)
  if s.kind.usesFactor then .obj [stage, ("penalty", factorToJson s.factor?)] else .obj [stage]

/-- How many arrays and objects may be nested in a field of a stage. -/
def nestingLimit : Nat := 124

mutual

/-- Whether a value is readable, its numbers are finite and at most `levels` arrays and objects are
nested in it. -/
def isBounded (levels : Nat) : Json α → Bool
  | .real x => Scalar.isFinite x
  | .arr items => 0 < levels && areBounded (levels - 1) items
  | .obj fields => 0 < levels && fieldsAreBounded (levels - 1) fields
  | .unreadable => false
  | _ => true

/-- `isBounded` for the items of an array. -/
def areBounded (levels : Nat) : List (Json α) → Bool
  | [] => true
  | v :: rest => isBounded levels v && areBounded levels rest

/-- `isBounded` for the fields of an object. -/
def fieldsAreBounded (levels : Nat) : List (String × Json α) → Bool
  | [] => true
  | (_, v) :: rest => isBounded levels v && fieldsAreBounded levels rest

end

/-- The kind of stages that a name in a form stands for. -/
def kindOfName (name : Json α) : Except DocumentError StageKind := do
  match StageKind.ofCode? (← name.toText) with
  | some kind => pure kind
  | none => throw .malformed

/-- The stage of a form. -/
def ofJson : Json α → Except DocumentError (Stage α)
  | .obj fields => do
    let kind ← Json.required kindOfName (← Json.member? "stage" fields)
    let others := fields.filter fun f => f.1 != "stage"
    if !fieldsAreBounded nestingLimit others then throw .malformed
    if kind.usesFactor then
      let factor ← Json.optional none factorOfJson (← Json.member? "penalty" others)
      pure (ofKind factor kind)
    else if others.isEmpty then pure (ofKind none kind)
    else throw .malformed
  | .arr (name :: rest) => do
    let kind ← kindOfName name
    match kind.usesFactor, rest with
    | true, [factor] => (fun f => ofKind f kind) <$> factorOfJson factor
    | false, [] => pure (ofKind none kind)
    | _, _ => throw .malformed
  | _ => .error .malformed

/-- The form of a pipeline. -/
def listToJson (stages : List (Stage α)) : Json α := .obj [("converters", .arr (stages.map toJson))]

/-- The pipeline of a form. -/
def listOfJson (v : Json α) : Except DocumentError (List (Stage α)) := do
  match ← v.members ["converters"] with
  | [stages] => Json.required (Json.toList ofJson) stages
  | _ => throw .malformed

/-- The pipeline that a text has the form of. -/
def listOfText (text : String) : Except DocumentError (List (Stage α)) :=
  match Json.ofText? text with
  | some v => listOfJson v
  | none => .error .malformed

end Stage

namespace Shape

/-- The two variables of the form of an implication. -/
def implicationOfJson (v : Json α) : Except DocumentError (Nat × Nat) := do
  match ← v.members ["x", "y"] with
  | [x, y] =>
    let x ← Json.required Json.toIndex x
    let y ← Json.required Json.toIndex y
    pure (x, y)
  | _ => throw .malformed

/-- The variables of the form of a bound on the number of ones. -/
def variablesOfJson (v : Json α) : Except DocumentError (List Nat) := do
  match ← v.members ["variables"] with
  | [vars] => Json.required (Json.toList Json.toIndex) vars
  | _ => throw .malformed

/-- The shape of a form. -/
def ofJson (v : Json α) : Except DocumentError Shape := do
  match ← v.alternative with
  | ("ImplicationLe", some content) =>
    (fun p => implicationLe p.1 p.2) <$> implicationOfJson content
  | ("ImplicationGe", some content) =>
    (fun p => implicationGe p.1 p.2) <$> implicationOfJson content
  | ("AtMostOne", some content) => atMostOne <$> variablesOfJson content
  | ("AtLeastNMinusOne", some content) => atMostOneZero <$> variablesOfJson content
  | ("Generic", content) =>
    Json.noContent content
    pure generic
  | _ => throw .malformed

end Shape

end QuboReduction

import QuboReduction.Document.Problem
import QuboReduction.Pipeline

/-!
# Conversions as documents

The form of a conversion has the converted problem and the records of the stages. Its fields are
read in the order in which they stand, so a problem that cannot be built is reported unless
something before it is already out of form.

## Main definitions

* `QuboReduction.Record.toJson`, `QuboReduction.Record.ofJson` — the form of a record.
* `QuboReduction.Conversion.toJson`, `QuboReduction.Conversion.ofJson` — the form of a conversion.
* `QuboReduction.Conversion.ofText` — a conversion read from a text.
-/

namespace QuboReduction

variable {α : Type} [Scalar α]

/-! ### Records -/

namespace StageKind

/-- The form of a kind of stages. -/
def toJson (k : StageKind) : Json α := .str k.code

/-- The kind of a form. -/
def ofJson : Json α → Except DocumentError StageKind :=
  Json.choose (all.map fun k => (k.code, k))

end StageKind

namespace Mapping

/-- The form of a mapping. -/
def toJson : Mapping α → Json α
  | identity i => .obj [("identity", .index i)]
  | affine offset terms =>
    .obj [("affine", .obj [("offset", .number offset), ("terms", Linear.termsToJson terms)])]

/-- The mapping of a form. -/
def ofJson (v : Json α) : Except DocumentError (Mapping α) := do
  match ← v.alternative with
  | ("identity", some content) => identity <$> content.toIndex
  | ("affine", some content) =>
    match ← content.members ["offset", "terms"] with
    | [offset, terms] =>
      let offset ← Json.required Json.toScalar offset
      let terms ← Json.required Linear.termsOfJson terms
      pure (affine offset terms)
    | _ => throw .malformed
  | _ => throw .malformed

end Mapping

namespace Record

/-- The name of the change of the objective. -/
def objectiveCode (isNegated : Bool) : String := if isNegated then "negated" else "unchanged"

/-- The form of a record. -/
def toJson (r : Record α) : Json α :=
  .obj [("stage", r.stage.toJson), ("source_len", .index r.sourceSize),
    ("target_len", .index r.targetSize), ("mappings", .arr (r.mappings.map Mapping.toJson)),
    ("auxiliary", .arr (r.auxiliary.map Json.index)),
    ("objective", .str (objectiveCode r.negatesObjective))]

/-- The record of a form. -/
def ofJson (v : Json α) : Except DocumentError (Record α) := do
  match ← v.members
    ["stage", "source_len", "target_len", "mappings", "auxiliary", "objective"] with
  | [stage, sourceSize, targetSize, mappings, auxiliary, objective] =>
    let stage ← Json.required StageKind.ofJson stage
    let sourceSize ← Json.required Json.toIndex sourceSize
    let targetSize ← Json.required Json.toIndex targetSize
    let mappings ← Json.required (Json.toList Mapping.ofJson) mappings
    let auxiliary ← Json.required (Json.toList Json.toIndex) auxiliary
    let negates ← Json.required
      (Json.choose [(objectiveCode false, false), (objectiveCode true, true)]) objective
    pure ⟨stage, sourceSize, targetSize, mappings, auxiliary, negates⟩
  | _ => throw .malformed

end Record

/-! ### Conversions -/

namespace Conversion

/-- The form of a conversion. -/
def toJson (c : Conversion α) : Json α :=
  .obj [("problem", c.problem.toJson), ("records", .arr (c.records.map Record.toJson))]

/-- What is known of a conversion after some of its fields. -/
structure Partial (α : Type) [Scalar α] where
  /-- The problem, if its field was read. -/
  problem : Option (Problem α)
  /-- The records, if their field was read. -/
  records : Option (List (Record α))

/-- What is known of a conversion after one more field. -/
def readField (c : Partial α) (field : String × Json α) : Except DocumentError (Partial α) :=
  if field.1 = "problem" then
    if c.problem.isSome then .error .malformed
    else do
      let p ← Problem.ofJson field.2
      pure { c with problem := some p }
  else if field.1 = "records" then
    if c.records.isSome then .error .malformed
    else do
      let rs ← field.2.toList Record.ofJson
      pure { c with records := some rs }
  else .ok c

/-- The fields of a form in their order. A surplus item of an array repeats the last field. -/
def fieldsOf : Json α → Except DocumentError (List (String × Json α))
  | .obj fields => .ok fields
  | .arr (problem :: rest) => .ok (("problem", problem) :: rest.map fun v => ("records", v))
  | _ => .error .malformed

/-- The conversion of the fields of a form. -/
def ofFields (isComplete : Bool) (fields : List (String × Json α)) :
    Except DocumentError (Conversion α) := do
  match ← fields.foldlM readField ⟨none, none⟩ with
  | ⟨some problem, some records⟩ =>
    if isComplete then pure ⟨problem, records⟩ else throw .malformed
  | _ => throw .malformed

/-- The conversion of a form. -/
def ofJson (v : Json α) : Except DocumentError (Conversion α) := do ofFields true (← fieldsOf v)

/-- The conversion that a text has the form of. -/
def ofText (text : String) : Except DocumentError (Conversion α) := do
  let r := Json.read text
  ofFields (r.isComplete && r.isClean) (← fieldsOf r.value)

/-- Whether two conversions have equal problems and records. -/
def equal (c d : Conversion α) : Bool :=
  c.problem.equal d.problem && c.records.length == d.records.length &&
    (c.records.zip d.records).all fun r => r.1.equal r.2

end Conversion

end QuboReduction

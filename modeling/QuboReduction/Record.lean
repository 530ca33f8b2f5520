import QuboReduction.ConversionError

/-!
# Conversion records

Each stage of a conversion leaves a record, by which values of the variables after the stage are
taken back to the variables before it. A record has one mapping for each variable before the stage;
the variables that the stage introduced are listed apart and are dropped.

## Main definitions

* `QuboReduction.StageKind` — the kinds of stages.
* `QuboReduction.Mapping` — how one variable is recovered.
* `QuboReduction.Record` — the record of one stage.
* `QuboReduction.Record.interpret` — a vector taken back through one stage.
* `QuboReduction.Record.interpretAll` — a vector taken back through a list of records.
-/

namespace QuboReduction

variable {α : Type} [Scalar α]

/-- The kinds of stages. -/
inductive StageKind where
  /-- Inequalities with a penalty in closed form go into the objective. -/
  | linearInequalityToPenalty
  /-- Inequalities become equalities with a slack variable. -/
  | inequalityToEquality
  /-- Integer variables become sums of binary ones. -/
  | integerToBinary
  /-- Linear equalities go into the objective. -/
  | linearEqualityToPenalty
  /-- The objective is to be minimized. -/
  | maximizeToMinimize
  /-- The objective is to be maximized. -/
  | minimizeToMaximize
  /-- Products of binary variables become variables. -/
  | quadraticToLinear
deriving DecidableEq

namespace StageKind

/-- All kinds of stages. -/
def all : List StageKind :=
  [linearInequalityToPenalty, inequalityToEquality, integerToBinary, linearEqualityToPenalty,
    maximizeToMinimize, minimizeToMaximize, quadraticToLinear]

/-- The words of the name of a kind. -/
def words : StageKind → List String
  | linearInequalityToPenalty => ["linear", "inequality", "to", "penalty"]
  | inequalityToEquality => ["inequality", "to", "equality"]
  | integerToBinary => ["integer", "to", "binary"]
  | linearEqualityToPenalty => ["linear", "equality", "to", "penalty"]
  | maximizeToMinimize => ["maximize", "to", "minimize"]
  | minimizeToMaximize => ["minimize", "to", "maximize"]
  | quadraticToLinear => ["quadratic", "to", "linear"]

/-- The name of a kind in reports. -/
def label (k : StageKind) : String := "-".intercalate k.words

/-- The name of a kind in documents. -/
def code (k : StageKind) : String := "_".intercalate k.words

end StageKind

/-! ### Mappings -/

/-- How a variable before a stage is recovered from the variables after it. -/
inductive Mapping (α : Type) where
  /-- It is the variable at an index. -/
  | identity (index : Nat)
  /-- It is `offset + Σ c·x`, the sum being over terms of an index and a coefficient. -/
  | affine (offset : α) (terms : List (Nat × α))

namespace Mapping

/-- The value of the recovered variable under an assignment. -/
def apply (m : Mapping α) (x : Nat → α) : α :=
  match m with
  | identity index => x index
  | affine offset terms => offset + Scalar.sum (terms.map fun t => t.2 * x t.1)

/-- The indices that a mapping refers to. -/
def indices : Mapping α → List Nat
  | identity index => [index]
  | affine _ terms => terms.map fun t => t.1

/-- Whether two mappings refer to the same indices with equal coefficients. -/
def equal : Mapping α → Mapping α → Bool
  | identity i, identity j => i == j
  | affine a s, affine b t =>
    a == b && s.length == t.length && (s.zip t).all fun p => p.1.1 == p.2.1 && p.1.2 == p.2.2
  | _, _ => false

end Mapping

/-! ### Records -/

/-- How the variables before a stage are recovered from those after it. -/
structure Record (α : Type) where
  /-- The kind of the stage. -/
  stage : StageKind
  /-- The number of variables before the stage. -/
  sourceSize : Nat
  /-- The number of variables after the stage. -/
  targetSize : Nat
  /-- One mapping for each variable before the stage. -/
  mappings : List (Mapping α)
  /-- The variables that the stage introduced. -/
  auxiliary : List Nat
  /-- Whether the stage negated the objective. -/
  negatesObjective : Bool

namespace Record

/-- The mappings that keep the first `size` variables in their places. -/
def keepAll (size : Nat) : List (Mapping α) := (List.range size).map .identity

/-- The record of a stage that keeps all variables in their places. -/
def identity (stage : StageKind) (size : Nat) : Record α :=
  ⟨stage, size, size, keepAll size, [], false⟩

/-- Whether every mapping refers to variables after the stage only. -/
def inRange (r : Record α) : Bool :=
  r.mappings.all fun m => m.indices.all fun i => i < r.targetSize

/-- A vector over the variables after a stage taken back to those before it. The position of the
record is reported when it does not fit. -/
def interpret (r : Record α) (position : Nat) (values : List α) :
    Except (ConversionError α) (List α) :=
  if values.length ≠ r.targetSize then .error (.mismatch position r.targetSize values.length)
  else if r.mappings.length ≠ r.sourceSize ∨ r.inRange = false then
    .error (.mismatch position r.sourceSize r.mappings.length)
  else .ok (r.mappings.map fun m => m.apply (valueAt values))

/-- A value of the objective after a stage taken back to the objective before it. -/
def interpretObjective (r : Record α) (value : α) : α :=
  if r.negatesObjective then -value else value

/-- Whether two records agree, with equal coefficients. -/
def equal (r s : Record α) : Bool :=
  r.stage == s.stage && r.sourceSize == s.sourceSize && r.targetSize == s.targetSize &&
    r.mappings.length == s.mappings.length &&
    ((r.mappings.zip s.mappings).all fun m => m.1.equal m.2) && r.auxiliary == s.auxiliary &&
    r.negatesObjective == s.negatesObjective

/-! ### Lists of records -/

/-- Refuses records of which one has another number of variables than the next one starts from; the
first record of the list stands at `position`. -/
def checkLinks (position : Nat) : List (Record α) → Except (ConversionError α) Unit
  | r :: s :: rest =>
    if r.targetSize ≠ s.sourceSize then
      .error (.mismatch (position + 1) r.targetSize s.sourceSize)
    else checkLinks (position + 1) (s :: rest)
  | _ => .ok ()

/-- A vector taken back through records, the last one first; the first record of the list stands at
`position`. -/
def interpretFrom (position : Nat) : List (Record α) → List α → Except (ConversionError α) (List α)
  | [], values => .ok values
  | r :: rest, values => do
    let values ← interpretFrom (position + 1) rest values
    r.interpret position values

/-- A vector over the variables after the last stage taken back to those before the first one. -/
def interpretAll (records : List (Record α)) (values : List α) :
    Except (ConversionError α) (List α) := do
  checkLinks 0 records
  interpretFrom 0 records values

/-- A value of the objective after the last stage taken back to the objective before the first
one. -/
def interpretObjectiveAll (records : List (Record α)) (value : α) : α :=
  records.foldr interpretObjective value

end Record

end QuboReduction

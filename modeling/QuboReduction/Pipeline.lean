import QuboReduction.Stage.Binarization
import QuboReduction.Stage.Direction
import QuboReduction.Stage.Products
import QuboReduction.Stage.Slack
import QuboReduction.Stage.SquaredDeviation

/-!
# Pipelines

A pipeline is a list of stages, each of which works on the problem that the stage before it has
left. The standard pipeline turns a problem with constraints and bounded integer variables into a
quadratic minimization over binary variables without constraints.

## Main definitions

* `QuboReduction.Stage` — the stages, with what they are told.
* `QuboReduction.Stage.apply` — one stage.
* `QuboReduction.Conversion` — the last problem with the records of all stages.
* `QuboReduction.convert` — a list of stages, one after another.
* `QuboReduction.quboStages` — the standard pipeline.
-/

namespace QuboReduction

variable {α : Type} [Scalar α]

/-- A stage of a pipeline. -/
inductive Stage (α : Type) where
  /-- Inequalities with a penalty in closed form go into the objective; the penalty factor is
  estimated unless it is given. -/
  | linearInequalityToPenalty (factor : Option α)
  /-- Inequalities become equalities with a slack variable. -/
  | inequalityToEquality
  /-- Integer variables become sums of binary ones. -/
  | integerToBinary
  /-- Linear equalities go into the objective; the penalty factor is estimated unless it is
  given. -/
  | linearEqualityToPenalty (factor : Option α)
  /-- The objective is to be minimized. -/
  | maximizeToMinimize
  /-- The objective is to be maximized. -/
  | minimizeToMaximize
  /-- Products of binary variables become variables. -/
  | quadraticToLinear
deriving DecidableEq

namespace Stage

/-- The kind of a stage. -/
def kind : Stage α → StageKind
  | linearInequalityToPenalty _ => .linearInequalityToPenalty
  | inequalityToEquality => .inequalityToEquality
  | integerToBinary => .integerToBinary
  | linearEqualityToPenalty _ => .linearEqualityToPenalty
  | maximizeToMinimize => .maximizeToMinimize
  | minimizeToMaximize => .minimizeToMaximize
  | quadraticToLinear => .quadraticToLinear

/-- The stage of a kind with a penalty factor, which only some stages use. -/
def ofKind (factor : Option α) : StageKind → Stage α
  | .linearInequalityToPenalty => linearInequalityToPenalty factor
  | .inequalityToEquality => inequalityToEquality
  | .integerToBinary => integerToBinary
  | .linearEqualityToPenalty => linearEqualityToPenalty factor
  | .maximizeToMinimize => maximizeToMinimize
  | .minimizeToMaximize => minimizeToMaximize
  | .quadraticToLinear => quadraticToLinear

/-- The penalty factor that a stage is given. -/
def factor? : Stage α → Option α
  | linearInequalityToPenalty factor => factor
  | linearEqualityToPenalty factor => factor
  | _ => none

/-- Refuses a stage with a penalty factor that is not a positive finite number. -/
def validate (s : Stage α) : Except (ConversionError α) Unit :=
  match s.factor? with
  | some factor => (fun _ => ()) <$> validateFactor factor
  | none => .ok ()

/-- The problem that a stage leaves, and its record. -/
def apply (s : Stage α) (p : Problem α) : Except (ConversionError α) (Problem α × Record α) :=
  match s with
  | linearInequalityToPenalty factor => p.foldShapes factor
  | inequalityToEquality => p.addSlacks
  | integerToBinary => p.binarize
  | linearEqualityToPenalty factor => p.foldEqualities factor
  | maximizeToMinimize => p.orient .minimize .maximizeToMinimize
  | minimizeToMaximize => p.orient .maximize .minimizeToMaximize
  | quadraticToLinear => p.linearize

end Stage

/-- A converted problem with the records of the stages that led to it. -/
structure Conversion (α : Type) [Scalar α] where
  /-- The problem after the last stage. -/
  problem : Problem α
  /-- The records of the stages, in order. -/
  records : List (Record α)

namespace Conversion

/-- A vector over the variables of the converted problem taken back to those of the source. -/
def interpret (c : Conversion α) (values : List α) : Except (ConversionError α) (List α) :=
  Record.interpretAll c.records values

/-- An objective value of the converted problem taken back to the source. -/
def interpretObjective (c : Conversion α) (value : α) : α :=
  Record.interpretObjectiveAll c.records value

end Conversion

/-- Applies stages one after another. -/
def runStages (p : Problem α) : List (Stage α) → Except (ConversionError α) (Conversion α)
  | [] => .ok ⟨p, []⟩
  | s :: rest => do
    let (q, record) ← s.apply p
    let c ← runStages q rest
    pure ⟨c.problem, record :: c.records⟩

/-- Converts a problem by stages, once the penalty factors of all of them are found valid. -/
def convert (p : Problem α) (stages : List (Stage α)) :
    Except (ConversionError α) (Conversion α) := do
  stages.forM Stage.validate
  runStages p stages

/-- The standard pipeline. Closed forms come first, since they need no slack; slacks are integers,
so integers become binary after that, and the equalities that are left go into the objective
last. -/
def quboStages (factor : Option α) : List (Stage α) :=
  [.linearInequalityToPenalty factor, .inequalityToEquality, .integerToBinary,
    .linearEqualityToPenalty factor, .maximizeToMinimize]

end QuboReduction

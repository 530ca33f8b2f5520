import QuboReduction.NumberText
import QuboReduction.Problem

/-!
# Reports of problems

A problem is written out line by line: its name, the objective, the constraints and the variables.
An expression shows its constant unless that is nearly zero, then the terms of degree two and then
those of degree one. A coefficient that is nearly one is left out, and the sign of every term but
the first stands between blanks.

## Main definitions

* `QuboReduction.Problem.expressionText` — the text of a polynomial over the variables of a problem.
* `QuboReduction.Problem.report` — the text of a problem.
-/

namespace QuboReduction

variable {α : Type} [Scalar α]

/-- Whether two scalars differ by at most a billionth of the larger one. -/
def Scalar.isClose (a b : α) : Bool :=
  Scalar.abs (a - b) ≤ Scalar.ofDecimal 1 (-9) * Scalar.greatest (Scalar.abs a) (Scalar.abs b)

/-- Whether a constant is too small to be shown. -/
def Scalar.isNegligible (a : α) : Bool := !decide (Scalar.ofDecimal 1 (-10) < Scalar.abs a)

variable [NumberText α]

/-- A term at the start of an expression. -/
def leadingTerm (coef : α) (label : String) : String :=
  if Scalar.isClose coef 1 then label
  else if Scalar.isClose coef (-1) then "-" ++ label
  else NumberText.plain coef ++ label

/-- A term after other terms, with its sign between blanks. -/
def followingTerm (coef : α) (label : String) : String :=
  let sign := if coef < 0 then "-" else "+"
  let size := Scalar.abs coef
  if Scalar.isClose size 1 then sign ++ " " ++ label
  else sign ++ " " ++ NumberText.plain size ++ label

/-- The parts of an expression whose terms are given by their coefficient and label. -/
def expressionParts (constant : α) (terms : List (α × String)) : List String :=
  let following := fun (t : α × String) => followingTerm t.1 t.2
  if Scalar.isNegligible constant then
    match terms with
    | [] => ["0"]
    | t :: rest => leadingTerm t.1 t.2 :: rest.map following
  else NumberText.plain constant :: terms.map following

/-- A text filled up with blanks at its end. -/
def padRight (width : Nat) (s : String) : String :=
  s ++ String.ofList (List.replicate (width - s.length) ' ')

/-- A text filled up with blanks at its start. -/
def padLeft (width : Nat) (s : String) : String :=
  String.ofList (List.replicate (width - s.length) ' ') ++ s

/-- Lines of text, each of them ended. -/
def unlines (lines : List String) : String := String.join (lines.map fun line => line ++ "\n")

namespace Problem

/-- The name under which a variable is shown. -/
def labelAt (p : Problem α) (index : Nat) : String :=
  match p.variableAt? index with
  | some v => v.name
  | none => "x" ++ toString index

/-- The label of a term of degree two. -/
def pairLabel (p : Problem α) (pair : Pair) : String :=
  if pair.isSquare then p.labelAt pair.low ++ "^2"
  else p.labelAt pair.low ++ " * " ++ p.labelAt pair.high

/-- The text of a constant, a linear and a quadratic expression together. -/
def expressionText (p : Problem α) (constant : α) (linear : Linear α) (quadratic : Quadratic α) :
    String :=
  let products := quadratic.toList.map fun t => (t.2, p.pairLabel t.1)
  let multiples := linear.toList.map fun t => (t.2, p.labelAt t.1)
  " ".intercalate (expressionParts constant (products ++ multiples))

/-- The line of a constraint. -/
def constraintLine (p : Problem α) (c : Constraint α) : String :=
  "  " ++ c.name ++ ": " ++ p.expressionText 0 c.linear c.quadratic ++ " " ++ c.relation.symbol ++
    " " ++ NumberText.plain c.rhs

/-- The line of a variable. -/
def variableLine (v : Variable) : String :=
  "  " ++ padRight 12 (v.domain.label ++ ":") ++
    match v.domain with
    | .binary => v.name
    | .integer lower upper => toString lower ++ " <= " ++ v.name ++ " <= " ++ toString upper

/-- The line of the direction of an objective. -/
def senseLine : Sense → String
  | .minimize => "Minimize"
  | .maximize => "Maximize"

/-- The lines of a section, or one line if there are none. -/
def orElse (lines : List String) (line : String) : List String :=
  if lines.isEmpty then [line] else lines

/-- The text of a problem. -/
def report (p : Problem α) : String :=
  let f := p.objective.polynomial
  unlines <|
    ["Problem name: " ++ p.name, "", senseLine p.objective.sense,
      "  " ++ p.expressionText f.constant f.linear f.quadratic, "", "Subject to"] ++
    orElse (p.constraints.map p.constraintLine) "  No constraints" ++
    ["", "Variables"] ++
    orElse (p.vars.map variableLine) "  No variables"

end Problem

end QuboReduction

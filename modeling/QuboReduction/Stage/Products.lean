import QuboReduction.Record
import QuboReduction.Stage.ClosedForm

/-!
# Products of binary variables as variables

Each product `x·y` of two different binary variables becomes a binary variable `z` of its own,
which is tied to the product by `z ≤ x`, `z ≤ y` and `z ≥ x + y - 1`. A square of a binary variable
becomes the variable. Products with an integer variable stay as they are.

## Main definitions

* `QuboReduction.ProductTable` — the variables for products.
* `QuboReduction.Problem.linearize` — the stage.
-/

namespace QuboReduction

variable {α : Type} [Scalar α]

/-- The variable for each product, in ascending order of the products. -/
abbrev ProductTable := List (Pair × Nat)

namespace ProductTable

/-- The variable for a product. -/
def indexOf? (t : ProductTable) (pair : Pair) : Option Nat :=
  (List.find? (fun e => e.1 == pair) t).map fun e => e.2

/-- The table with a variable for one more product. -/
def insert (pair : Pair) (index : Nat) : ProductTable → ProductTable
  | [] => [(pair, index)]
  | e :: rest =>
    if compare pair e.1 = .lt then (pair, index) :: e :: rest else e :: insert pair index rest

end ProductTable

namespace Problem

/-- Whether a pair is a product of two different binary variables. -/
def isProduct (p : Problem α) (pair : Pair) : Bool :=
  !pair.isSquare && p.isBinaryAt pair.low && p.isBinaryAt pair.high

/-- The name of a variable, and the empty text for an index without one. -/
def nameAt (p : Problem α) (index : Nat) : String :=
  match p.variableAt? index with
  | some v => v.name
  | none => ""

/-- The name of the variable for a product. -/
def productName (p : Problem α) (pair : Pair) : String :=
  "_and_" ++ p.nameAt pair.low ++ "_" ++ p.nameAt pair.high

/-- Adds a variable for a pair of `p` that is a product and has none yet. -/
def addProduct (p : Problem α) (state : Problem α × ProductTable) (pair : Pair) :
    Except (ConversionError α) (Problem α × ProductTable) := do
  let (q, table) := state
  if p.isProduct pair && (table.indexOf? pair).isNone then
    let (q, index) ← ofBuilding (q.addVariable (p.productName pair) .binary)
    pure (q, table.insert pair index)
  else pure state

/-- The pairs of the objective and then of the constraints. -/
def allPairs (p : Problem α) : List Pair :=
  p.objective.polynomial.quadratic.keys ++ p.constraints.flatMap fun c => c.quadratic.keys

/-- The constraints that tie a variable to the product of two others. -/
def productConstraints (name : String) (pair : Pair) (index : Nat) : List (Constraint α) :=
  [.ofLinear (name ++ "_1") (Terms.ofList [(index, 1), (pair.low, -1)]) .le 0,
    .ofLinear (name ++ "_2") (Terms.ofList [(index, 1), (pair.high, -1)]) .le 0,
    .ofLinear (name ++ "_3") (Terms.ofList [(index, 1), (pair.low, -1), (pair.high, -1)]) .ge (-1)]

/-- The term of degree one that a term of degree two becomes. -/
def linearized? (p : Problem α) (table : ProductTable) (t : Pair × α) : Option (Nat × α) :=
  match table.indexOf? t.1 with
  | some index => some (index, t.2)
  | none => if t.1.isSquare && p.isBinaryAt t.1.low then some (t.1.low, t.2) else none

/-- A linear expression with the terms of degree one that terms of degree two become. -/
def linearPart (p : Problem α) (table : ProductTable) (linear : Linear α)
    (quadratic : Quadratic α) : Linear α :=
  linear.addTerms (quadratic.toList.filterMap (p.linearized? table))

/-- The terms of degree two that stay. -/
def quadraticPart (p : Problem α) (table : ProductTable) (quadratic : Quadratic α) : Quadratic α :=
  Terms.ofList (quadratic.toList.filter fun t => (p.linearized? table t).isNone)

/-- The objective with variables for products. -/
def linearizedObjective (p : Problem α) (table : ProductTable) : Objective α :=
  let f := p.objective.polynomial
  ⟨p.objective.sense, f.constant, p.linearPart table f.linear f.quadratic,
    p.quadraticPart table f.quadratic⟩

/-- A constraint with variables for products. -/
def linearizedConstraint (p : Problem α) (table : ProductTable) (c : Constraint α) :
    Constraint α :=
  { c with
    linear := p.linearPart table c.linear c.quadratic
    quadratic := p.quadraticPart table c.quadratic }

/-- Replaces products of binary variables by variables. -/
def linearize (p : Problem α) : Except (ConversionError α) (Problem α × Record α) := do
  let (q, table) ← p.allPairs.foldlM p.addProduct (p.variablesOnly, [])
  let ties := table.flatMap fun e => productConstraints (q.nameAt e.2) e.1 e.2
  let q ← ofBuilding (q.addConstraints ties)
  let q ← ofBuilding (q.setObjective (p.linearizedObjective table))
  let q ← ofBuilding (q.addConstraints (p.constraints.map (p.linearizedConstraint table)))
  let introduced := table.map fun e => e.2
  pure (q, ⟨.quadraticToLinear, p.size, q.size, Record.keepAll p.size, introduced, false⟩)

end Problem

end QuboReduction

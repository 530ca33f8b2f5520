import QuboReduction.Record
import QuboReduction.Stage.ClosedForm

/-!
# Integer variables as sums of binary ones

An integer variable with the bounds `l` and `u` becomes `l + Σ wₖ·bₖ` with binary variables `bₖ`.
The weights are the powers of two below the range `u - l`, the last of them replaced by what is
missing to the range, so exactly the integers from `l` to `u` are reached. The sums are substituted
into every expression and multiplied out.

## Main definitions

* `QuboReduction.bitWeights` — the weights for a range.
* `QuboReduction.Substitution` — an affine expression for each variable.
* `QuboReduction.Problem.binarize` — the stage.
-/

namespace QuboReduction

variable {α : Type} [Scalar α]

/-- The weights of the binary variables for the range from zero to `range`. -/
def bitWeights (range : Nat) : List Nat :=
  if range = 0 then []
  else (List.range range.log2).map (Nat.pow 2) ++ [range - (Nat.pow 2 range.log2 - 1)]

/-! ### Substitution -/

/-- The affine expression that a mapping stands for: its offset and its terms. -/
def Mapping.affineForm : Mapping α → α × List (Nat × α)
  | identity index => (0, [(index, 1)])
  | affine offset terms => (offset, terms)

/-- An affine expression over new variables for each old variable. -/
abbrev Substitution (α : Type) := List (Mapping α)

namespace Substitution

/-- The expression for a variable. -/
def formAt (s : Substitution α) (index : Nat) : α × List (Nat × α) :=
  match s[index]? with
  | some m => m.affineForm
  | none => (0, [])

/-- The constants that come from the terms of degree one and then from those of degree two. -/
def constants (s : Substitution α) (linear : Linear α) (quadratic : Quadratic α) : List α :=
  linear.toList.map (fun t => t.2 * (s.formAt t.1).1) ++
    quadratic.toList.map fun t => t.2 * (s.formAt t.1.low).1 * (s.formAt t.1.high).1

/-- The terms of degree one that come from a term of degree two: each offset times the terms of the
other factor. -/
def crossTerms (s : Substitution α) (pair : Pair) (coef : α) : List (Nat × α) :=
  let (offsetLow, termsLow) := s.formAt pair.low
  let (offsetHigh, termsHigh) := s.formAt pair.high
  termsHigh.map (fun t => (t.1, coef * offsetLow * t.2)) ++
    termsLow.map fun t => (t.1, coef * offsetHigh * t.2)

/-- The terms of degree one. -/
def linearTerms (s : Substitution α) (linear : Linear α) (quadratic : Quadratic α) :
    List (Nat × α) :=
  linear.toList.flatMap (fun t => (s.formAt t.1).2.map fun u => (u.1, t.2 * u.2)) ++
    quadratic.toList.flatMap fun t => s.crossTerms t.1 t.2

/-- The terms of degree two. -/
def products (s : Substitution α) (quadratic : Quadratic α) : List (Nat × Nat × α) :=
  quadratic.toList.flatMap fun t =>
    (s.formAt t.1.low).2.flatMap fun u =>
      (s.formAt t.1.high).2.map fun v => (u.1, v.1, t.2 * u.2 * v.2)

/-- The polynomial that a linear and a quadratic expression become. -/
def expand (s : Substitution α) (linear : Linear α) (quadratic : Quadratic α) : Polynomial α where
  constant := (s.constants linear quadratic).foldl (fun total a => total + a) 0
  linear := Terms.ofList (s.linearTerms linear quadratic)
  quadratic := Quadratic.ofProducts (s.products quadratic)

/-- The objective over the new variables. -/
def objective (s : Substitution α) (o : Objective α) : Objective α :=
  let q := s.expand o.polynomial.linear o.polynomial.quadratic
  ⟨o.sense, { q with constant := o.polynomial.constant + q.constant }⟩

/-- The constraint over the new variables, in which constants are moved to the right-hand side. -/
def constraint (s : Substitution α) (c : Constraint α) : Constraint α :=
  let q := s.expand c.linear c.quadratic
  ⟨c.name, q.linear, q.quadratic, c.relation, c.rhs - q.constant⟩

end Substitution

/-! ### The stage -/

namespace Problem

/-- The name of a binary variable that stands for a part of an integer variable. -/
def bitName (v : Variable) (k : Nat) : String := v.name ++ "@" ++ toString k

/-- Adds binary variables with the given weights; `k` is the number of the first one. The result has
the terms of the new variables. -/
def addBits (q : Problem α) (v : Variable) (k : Nat) :
    List Nat → Except (ConversionError α) (Problem α × List (Nat × α))
  | [] => .ok (q, [])
  | w :: rest => do
    let (q, index) ← ofBuilding (q.addVariable (bitName v k) .binary)
    let (q, terms) ← addBits q v (k + 1) rest
    pure (q, (index, Scalar.ofInt w) :: terms)

/-- Adds the binary variables for a variable, and the mapping that recovers it. -/
def addBinarized (state : Problem α × Substitution α) (v : Variable) :
    Except (ConversionError α) (Problem α × Substitution α) := do
  let (q, s) := state
  match v.domain with
  | .binary =>
    let (q, index) ← ofBuilding (q.addVariable v.name .binary)
    pure (q, s ++ [.identity index])
  | .integer lower upper =>
    let (q, terms) ← q.addBits v 0 (bitWeights (upper - lower).toNat)
    pure (q, s ++ [.affine (Scalar.ofInt lower) terms])

/-- Replaces integer variables by sums of binary ones. -/
def binarize (p : Problem α) : Except (ConversionError α) (Problem α × Record α) := do
  let (q, s) ← p.vars.foldlM addBinarized (Problem.empty p.name, [])
  let q ← ofBuilding (q.setObjective (s.objective p.objective))
  let q ← ofBuilding (q.addConstraints (p.constraints.map s.constraint))
  pure (q, ⟨.integerToBinary, p.size, q.size, s, [], false⟩)

end Problem

end QuboReduction

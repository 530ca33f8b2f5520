import QuboReduction.Shape

/-!
# Penalties

A penalty is a polynomial that is zero where a constraint is satisfied and at least a given factor
where it is violated, so it can stand in the objective in place of the constraint. Shapes have a
penalty in closed form; a linear equality has the square of its deviation as a penalty.

## Main definitions

* `QuboReduction.Shape.penalty?` — the penalty of a shape.
* `QuboReduction.squaredDeviation` — the penalty of a linear equality.
* `QuboReduction.Objective.addPenalty` — an objective with a penalty.
-/

namespace QuboReduction

variable {α : Type} [Scalar α]

/-- The pairs of an earlier and a later element of a list. -/
def pairsOf {β : Type} : List β → List (β × β)
  | [] => []
  | b :: rest => rest.map (fun c => (b, c)) ++ pairsOf rest

/-- The products of an earlier and a later variable of a list, each with the same coefficient. -/
def productsOf (vars : List Nat) (coef : α) : Quadratic α :=
  Quadratic.ofProducts ((pairsOf vars).map fun p => (p.1, p.2, coef))

namespace Shape

/-- The penalty of a shape with the factor `P`:

* `P·(x - x·y)` for `x ≤ y` and `P·(y - x·y)` for `x ≥ y`;
* `P·Σ xᵢ·xⱼ` over the pairs `i < j` for at most one;
* `P·Σ (1 - xᵢ)·(1 - xⱼ)` over the pairs `i < j` for at most one zero.

There is none for a constraint of no particular shape. -/
def penalty? (s : Shape) (factor : α) : Option (Polynomial α) :=
  match s with
  | implicationLe x y =>
    some ⟨0, Terms.empty.addTerm x factor, Terms.empty.addTerm (.of x y) (-factor)⟩
  | implicationGe x y =>
    some ⟨0, Terms.empty.addTerm y factor, Terms.empty.addTerm (.of x y) (-factor)⟩
  | atMostOne vars => some ⟨0, Terms.empty, productsOf vars factor⟩
  | atMostOneZero vars =>
    let pairs := pairsOf vars
    some {
      constant := pairs.foldl (fun total _ => total + factor) 0
      linear := Terms.ofList (pairs.flatMap fun p => [(p.1, -factor), (p.2, -factor)])
      quadratic := productsOf vars factor }
  | generic => none

end Shape

/-- The terms of `(Σ aᵢ·xᵢ)²` times a factor, each square followed by its mixed products. -/
def squareTerms (factor : α) : List (Nat × α) → List (Nat × Nat × α)
  | [] => []
  | (i, a) :: rest =>
    (i, i, factor * a * a) ::
      (rest.map fun t => (i, t.1, Scalar.ofInt 2 * factor * a * t.2)) ++ squareTerms factor rest

/-- The penalty `P·(Σ aᵢ·xᵢ - b)²` of the equality `Σ aᵢ·xᵢ = b`. -/
def squaredDeviation (linear : Linear α) (rhs factor : α) : Polynomial α where
  constant := factor * rhs * rhs
  linear := Terms.ofList
    (linear.toList.map fun t => (t.1, Scalar.ofInt (-2) * factor * rhs * t.2))
  quadratic := Quadratic.ofProducts (squareTerms factor linear.toList)

/-- An objective with a penalty: a cost is added when minimizing and subtracted when maximizing. -/
def Objective.addPenalty (o : Objective α) (sign : α) (penalty : Polynomial α) : Objective α :=
  { o with polynomial := o.polynomial.addMultiple sign penalty }

end QuboReduction

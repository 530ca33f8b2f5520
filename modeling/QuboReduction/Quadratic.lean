import QuboReduction.Linear

/-!
# Quadratic expressions

A quadratic expression `Σ qᵢⱼ·xᵢ·xⱼ` is a sparse sum whose keys are unordered pairs of indices. A
pair is kept with its smaller index first, so `xᵢ·xⱼ` and `xⱼ·xᵢ` are one monomial, and a pair of
equal indices is a square.

## Main definitions

* `QuboReduction.Pair` — unordered pairs of indices, ordered by the smaller and then the larger one.
* `QuboReduction.Quadratic` — quadratic expressions.
* `QuboReduction.Quadratic.evaluate` — the value under an assignment.
* `QuboReduction.Quadratic.maxIndex?` — the largest index that occurs.
-/

namespace QuboReduction

variable {α : Type} [Scalar α]

/-! ### Unordered pairs -/

/-- An unordered pair of indices. -/
structure Pair where
  /-- The smaller index. -/
  low : Nat
  /-- The larger index. -/
  high : Nat
  /-- The smaller index is not above the larger one. -/
  low_le_high : low ≤ high
deriving DecidableEq

namespace Pair

/-- The pair of two indices, given in any order. -/
def of (i j : Nat) : Pair := ⟨min i j, max i j, by omega⟩

/-- Whether both indices are the same. -/
def isSquare (p : Pair) : Bool := p.low == p.high

instance : Ord Pair := ⟨compareLex (compareOn low) (compareOn high)⟩

instance : Std.TransOrd Pair :=
  inferInstanceAs (Std.TransCmp (compareLex (compareOn low) (compareOn high)))

instance : Std.LawfulEqOrd Pair where
  eq_of_compare {p q} h := by
    obtain ⟨hl, hh⟩ := Ordering.then_eq_eq.mp h
    cases p; cases q
    simp_all [compareOn]

end Pair

/-! ### Quadratic expressions -/

/-- A sum of scalar multiples of products of two variables. -/
abbrev Quadratic (α : Type) [Scalar α] := Terms Pair α

namespace Quadratic

/-- The value of a quadratic expression under an assignment. -/
def evaluate (e : Quadratic α) (x : Nat → α) : α := e.total fun p c => c * x p.low * x p.high

/-- The largest index with a term. -/
def maxIndex? (e : Quadratic α) : Option Nat := (e.keys.map fun p => p.high).max?

/-- The sum of a list of products, each given by its two factors in any order. -/
def ofProducts (terms : List (Nat × Nat × α)) : Quadratic α :=
  Terms.ofList (terms.map fun t => (Pair.of t.1 t.2.1, t.2.2))

end Quadratic

end QuboReduction

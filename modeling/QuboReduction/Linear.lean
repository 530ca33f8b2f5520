import QuboReduction.Terms

/-!
# Linear expressions

A linear expression `Σ aᵢ·xᵢ` is a sparse sum whose keys are the indices of the variables.

## Main definitions

* `QuboReduction.Linear` — linear expressions.
* `QuboReduction.Linear.evaluate` — the value under an assignment.
* `QuboReduction.Linear.maxIndex?` — the largest index that occurs.
* `QuboReduction.valueAt` — the assignment that a vector of values stands for.
-/

namespace QuboReduction

variable {α : Type} [Scalar α]

/-- The assignment given by a vector: the entry at an index, and zero past the end. -/
def valueAt (values : List α) (index : Nat) : α := values.getD index 0

/-- A sum of scalar multiples of variables, which are named by their index. -/
abbrev Linear (α : Type) [Scalar α] := Terms Nat α

namespace Linear

/-- The value of a linear expression under an assignment. -/
def evaluate (e : Linear α) (x : Nat → α) : α := e.total fun i c => c * x i

/-- The largest index with a term. -/
def maxIndex? (e : Linear α) : Option Nat := e.keys.getLast?

end Linear

end QuboReduction

import QuboReduction.Proofs.Reachable
import QuboReduction.Violation

/-!
# Looking up what is there

A look-up of a variable, a value or a mapping by its index gives a default when there is nothing at
the index, and a default would pass for a number or a name. Here every computation that looks
something up is stated once more as a *guarded* one, which has no default and stops without an
outcome where a look-up fails. Over the indices that the expressions of a well-formed problem
mention no look-up fails, so guarded computations have the outcomes of those with defaults: the
defaults are never used. This module is about vectors of values; stages follow in the next one.

## Main definitions

* `QuboReduction.Guarded` — computations that may be refused, and that stop at a failed look-up.
* `QuboReduction.Guarded.Finds` — a guarded computation has an outcome, and which.
* `QuboReduction.Constraint.evaluate?`, `QuboReduction.Problem.evaluateObjective?`,
  `QuboReduction.Problem.violations?`, `QuboReduction.Problem.isFeasible?` — guarded computations at
  a vector of values.

## Main results

* `QuboReduction.Guarded.Finds.bind`, `QuboReduction.Guarded.Finds.foldlM` — steps one after
  another.
* `QuboReduction.Problem.finds_evaluateObjective`, `QuboReduction.Problem.finds_violations`,
  `QuboReduction.Problem.finds_isFeasible` — no look-up fails at a vector of the right length.
-/

namespace QuboReduction

variable {α : Type} [Scalar α]

/-! ### Guarded computations -/

/-- A computation that gives a result or is refused, and that stops without either where it looks up
what is not there. -/
abbrev Guarded (ε β : Type) := ExceptT ε Option β

namespace Guarded

variable {ε β γ σ : Type}

/-- The result of a look-up. -/
def lookUp (x : Option β) : Guarded ε β := ExceptT.mk (x.map .ok)

/-- A computation without look-ups. -/
def of (y : Except ε β) : Guarded ε β := ExceptT.mk (some y)

/-- A guarded computation finds all that it looks up, and has the outcome `y`. -/
def Finds (x : Guarded ε β) (y : Except ε β) : Prop := x.run = some y

namespace Finds

variable {x : Guarded ε β} {y : Except ε β} {f : β → Guarded ε γ} {g : β → Except ε γ}

theorem pure (b : β) : Finds (Pure.pure b : Guarded ε β) (Pure.pure b) := rfl

theorem of (y : Except ε β) : Finds (Guarded.of y) y := rfl

theorem lookUp {o : Option β} {b : β} (h : o = some b) :
    Finds (Guarded.lookUp o : Guarded ε β) (.ok b) := by
  rw [h]
  rfl

/-- **One step after another.** The second step is only taken from a result of the first one. -/
theorem bind (hx : Finds x y) (hf : ∀ b, y = .ok b → Finds (f b) (g b)) :
    Finds (x >>= f) (y >>= g) := by
  rw [Finds] at hx ⊢
  rw [ExceptT.run_bind, hx]
  cases y with
  | ok b => exact hf b rfl
  | error e => rfl

/-- A look-up that finds something is passed. -/
theorem lookUp_bind {o : Option β} {b : β} {y : Except ε γ} (h : o = some b) (hf : Finds (f b) y) :
    Finds (Guarded.lookUp o >>= f) y := by
  rw [h]
  exact hf

/-- A decision without look-ups is the same in both computations. -/
theorem ite {c : Prop} [Decidable c] {x' : Guarded ε β} {y' : Except ε β} (hx : c → Finds x y)
    (hx' : ¬c → Finds x' y') : Finds (if c then x else x') (if c then y else y') := by
  split
  · exact hx ‹_›
  · exact hx' ‹_›

/-- A step without look-ups is the same in both computations. -/
theorem of_bind (y : Except ε β) (hf : ∀ b, y = .ok b → Finds (f b) (g b)) :
    Finds (Guarded.of y >>= f) (y >>= g) := (Finds.of y).bind hf

/-- **A run over a list** finds all that it looks up if each step does, from any state. -/
theorem foldlM {f : σ → β → Guarded ε σ} {g : σ → β → Except ε σ} {l : List β}
    (h : ∀ b ∈ l, ∀ s, Finds (f s b) (g s b)) (s : σ) :
    Finds (l.foldlM f s) (l.foldlM g s) := by
  induction l generalizing s with
  | nil => exact .pure s
  | cons b l ih =>
    obtain ⟨hb, hl⟩ := List.forall_mem_cons.mp h
    rw [List.foldlM_cons, List.foldlM_cons]
    exact (hb s).bind fun s' _ => ih hl s'

end Finds

end Guarded

/-- A look-up for each element of a list, each of which finds something. -/
theorem mapM_eq_some {β γ : Type} {f : β → Option γ} {g : β → γ} {l : List β}
    (h : ∀ b ∈ l, f b = some (g b)) : l.mapM f = some (l.map g) := by
  induction l with
  | nil => rfl
  | cons b l ih =>
    obtain ⟨hb, hl⟩ := List.forall_mem_cons.mp h
    rw [List.mapM_cons, hb, ih hl]
    rfl

theorem reduceOption_map_eq_filterMap {β γ : Type} (f : β → Option γ) (l : List β) :
    (l.map f).reduceOption = l.filterMap f := List.filterMap_map

/-! ### Values of expressions -/

/-- The value of a linear expression at a vector. -/
def Linear.evaluate? (e : Linear α) (values : List α) : Option α := do
  let products ← e.toList.mapM fun t => do return t.2 * (← values[t.1]?)
  return Scalar.sum products

/-- The value of a quadratic expression at a vector. -/
def Quadratic.evaluate? (e : Quadratic α) (values : List α) : Option α := do
  let products ← e.toList.mapM fun t => do
    return t.2 * (← values[t.1.low]?) * (← values[t.1.high]?)
  return Scalar.sum products

/-- The value of a polynomial at a vector. -/
def Polynomial.evaluate? (f : Polynomial α) (values : List α) : Option α := do
  return f.constant + (← f.linear.evaluate? values) + (← f.quadratic.evaluate? values)

namespace Constraint

/-- The left-hand side at a vector. -/
def evaluate? (c : Constraint α) (values : List α) : Option α := do
  return (← c.linear.evaluate? values) + (← c.quadratic.evaluate? values)

/-- How far the left-hand side at a vector is from satisfying the constraint. -/
def violation? (c : Constraint α) (values : List α) : Option α := do
  return c.relation.excess (← c.evaluate? values) c.rhs

end Constraint

section Values

variable {values : List α} {n : Nat}

theorem getElem?_eq_valueAt {i : Nat} (h : i < values.length) :
    values[i]? = some (valueAt values i) := by
  simp [valueAt, h]

theorem Linear.evaluate?_eq {e : Linear α} (h : e.Below values.length) :
    e.evaluate? values = some (e.evaluate (valueAt values)) := by
  have hproducts := mapM_eq_some (l := e.toList)
    (f := fun t => do return t.2 * (← values[t.1]?)) (g := fun t => t.2 * valueAt values t.1)
    fun t ht => by rw [getElem?_eq_valueAt (h t ht)]; rfl
  rw [Linear.evaluate?, hproducts]
  rfl

/-- Without a value at its index a term has no value, while the look-up with a default gives it. -/
example : Linear.evaluate? (Terms.ofList [(1, 2)]) [(5 : Rat)] = none ∧
    Linear.evaluate (Terms.ofList [(1, 2)]) (valueAt [(5 : Rat)]) = 0 := by decide +kernel

theorem Quadratic.evaluate?_eq {e : Quadratic α} (h : e.Below values.length) :
    e.evaluate? values = some (e.evaluate (valueAt values)) := by
  have hproducts := mapM_eq_some (l := e.toList)
    (f := fun t => do return t.2 * (← values[t.1.low]?) * (← values[t.1.high]?))
    (g := fun t => t.2 * valueAt values t.1.low * valueAt values t.1.high) fun t ht => by
      have hhigh : t.1.high < values.length := h t ht
      rw [getElem?_eq_valueAt (t.1.low_le_high.trans_lt hhigh), getElem?_eq_valueAt hhigh]
      rfl
  rw [Quadratic.evaluate?, hproducts]
  rfl

theorem Polynomial.evaluate?_eq {f : Polynomial α} (h : f.Below values.length) :
    f.evaluate? values = some (f.evaluate (valueAt values)) := by
  rw [Polynomial.evaluate?, Linear.evaluate?_eq h.1, Quadratic.evaluate?_eq h.2]
  rfl

theorem Constraint.evaluate?_eq {c : Constraint α} (h : c.Below values.length) :
    c.evaluate? values = some (c.evaluate (valueAt values)) := by
  rw [Constraint.evaluate?, Linear.evaluate?_eq h.1, Quadratic.evaluate?_eq h.2]
  rfl

theorem Constraint.violation?_eq {c : Constraint α} (h : c.Below values.length) :
    c.violation? values = some (c.violation (valueAt values)) := by
  rw [Constraint.violation?, Constraint.evaluate?_eq h]
  rfl

end Values

/-! ### Reports -/

namespace Problem

open Guarded

/-- The value of the objective at a vector. -/
def evaluateObjective? (p : Problem α) (values : List α) : Guarded ProblemError α := do
  of (p.checkLength values)
  lookUp (p.objective.polynomial.evaluate? values)

/-- What is wrong with the value of a variable, if anything is. -/
def domainViolation? (values : List α) (tolerance : α) (v : Variable) :
    Option (Option (Violation α)) := do
  let value ← values[v.index]?
  return if v.domain.contains value tolerance then none else some (.ofVariable v value)

/-- What is wrong with the left-hand side of a constraint, if anything is. -/
def constraintViolation? (values : List α) (tolerance : α) (c : Constraint α) :
    Option (Option (Violation α)) := do
  let amount ← c.violation? values
  if tolerance < amount then
    let actual ← c.evaluate? values
    return some ⟨c.name, .related c.relation c.rhs, c.rhs, actual, amount⟩
  else return none

/-- All violations of a vector of values, the largest amount first. -/
def violations? (p : Problem α) (values : List α) (tolerance : α) :
    Guarded ProblemError (List (Violation α)) := do
  of (p.checkLength values)
  let ofVariables ← lookUp (p.vars.mapM (domainViolation? values tolerance))
  let ofConstraints ← lookUp (p.constraints.mapM (constraintViolation? values tolerance))
  return (ofVariables.reduceOption ++ ofConstraints.reduceOption).mergeSort
    fun v w => !decide (v.amount < w.amount)

/-- Whether a vector of values violates nothing. -/
def isFeasible? (p : Problem α) (values : List α) (tolerance : α) : Guarded ProblemError Bool := do
  return (← p.violations? values tolerance).isEmpty

variable {p : Problem α} {values : List α}

/-- The objective is evaluated without a default. -/
theorem finds_evaluateObjective (hp : p.WellFormed) (hlen : values.length = p.size) :
    Finds (p.evaluateObjective? values) (p.evaluateObjective values) := by
  refine Finds.of_bind _ fun _ _ => Finds.lookUp ?_
  exact Polynomial.evaluate?_eq (hlen ▸ hp.objective_below)

/-- Violations are found without a default: variables stand at their index, and constraints mention
variables of the problem only. -/
theorem finds_violations (hp : p.WellFormed) (hlen : values.length = p.size) (tolerance : α) :
    Finds (p.violations? values tolerance) (p.violations values tolerance) := by
  have hvariables := mapM_eq_some (l := p.vars) (f := domainViolation? values tolerance)
    (g := fun v => if v.domain.contains (valueAt values v.index) tolerance then none
      else some (Violation.ofVariable v (valueAt values v.index))) fun v hv => by
        obtain ⟨i, hi, rfl⟩ := List.getElem_of_mem hv
        have hindex : p.vars[i].index = i := hp.index_eq i _ (List.getElem?_eq_getElem hi)
        rw [domainViolation?, getElem?_eq_valueAt (by rw [hindex, hlen]; exact hi)]
        rfl
  have hconstraints := mapM_eq_some (l := p.constraints)
    (f := constraintViolation? values tolerance)
    (g := fun c => if tolerance < c.violation (valueAt values) then
      some (Violation.ofConstraint c (valueAt values)) else none) fun c hc => by
        have hbelow : c.Below values.length := hlen ▸ hp.constraint_below c hc
        rw [constraintViolation?, Constraint.violation?_eq hbelow, Constraint.evaluate?_eq hbelow]
        simp only [Option.bind_eq_bind, Option.bind_some]
        split <;> rfl
  refine Finds.of_bind _ fun _ _ => ?_
  refine Finds.lookUp_bind hvariables (Finds.lookUp_bind hconstraints ?_)
  rw [reduceOption_map_eq_filterMap, reduceOption_map_eq_filterMap]
  exact Finds.pure _

/-- Feasibility is decided without a default. -/
theorem finds_isFeasible (hp : p.WellFormed) (hlen : values.length = p.size) (tolerance : α) :
    Finds (p.isFeasible? values tolerance) (p.isFeasible values tolerance) := by
  rw [isFeasible, map_eq_pure_bind]
  exact (finds_violations hp hlen tolerance).bind fun _ _ => Finds.pure _

end Problem

end QuboReduction

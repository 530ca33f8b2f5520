import QuboReduction.Proofs.GuardedLookups
import QuboReduction.Proofs.ProductTable

/-!
# Stages that look up what is there

The stages look up the bounds, magnitudes and names of variables and the mappings that stand for
them. Each stage is stated here as a guarded computation, which stops where such a look-up fails.
A stage looks up what the expressions of its source mention, and the stage for products also the
variables of its table. Sources are well-formed along a whole pipeline that starts from a reachable
problem, so no look-up fails, and a pipeline has the outcome that it has with defaults.

## Main definitions

* `QuboReduction.Problem.rangeOf?`, `QuboReduction.Problem.estimatedFactor?`,
  `QuboReduction.Problem.productName?`, `QuboReduction.Substitution.expand?` — guarded computations
  on expressions.
* `QuboReduction.Stage.run?`, `QuboReduction.convert?` — guarded stages and pipelines.

## Main results

* `QuboReduction.Stage.finds_apply` — no look-up of a stage fails.
* `QuboReduction.finds_runStages` — no look-up of a pipeline fails.
* `QuboReduction.lookups_find` — defaults are not used on reachable problems.
-/

namespace QuboReduction

variable {α : Type} [Scalar α]

open Guarded

namespace Problem

variable {p q : Problem α} {c : Constraint α} {table : ProductTable}

/-! ### Ranges of left-hand sides -/

/-- The range of a variable. -/
def boundsAt? (p : Problem α) (index : Nat) : Option (Interval α) := do
  let v ← p.variableAt? index
  return ⟨Scalar.ofInt v.domain.lower, Scalar.ofInt v.domain.upper⟩

/-- The range of a term of degree two. -/
def pairRange? (p : Problem α) (pair : Pair) (coef : α) : Option (Interval α) := do
  if pair.isSquare then return (← p.boundsAt? pair.low).square.scale coef
  else return (← p.boundsAt? pair.low).scaleProduct coef (← p.boundsAt? pair.high)

/-- The range of the left-hand side of a constraint. -/
def rangeOf? (p : Problem α) (c : Constraint α) : Option (Interval α) := do
  let linear ← c.linear.toList.mapM fun t => do return (← p.boundsAt? t.1).scale t.2
  let quadratic ← c.quadratic.toList.mapM fun t => p.pairRange? t.1 t.2
  return (linear ++ quadratic).foldl Interval.add ⟨0, 0⟩

theorem boundsAt?_eq {i : Nat} (h : i < p.size) : p.boundsAt? i = some (p.boundsAt i) := by
  obtain ⟨v, -, hv⟩ := exists_variableAt? h
  rw [boundsAt?, boundsAt, hv]
  rfl

theorem pairRange?_eq {pair : Pair} (h : pair.high < p.size) (coef : α) :
    p.pairRange? pair coef = some (p.pairRange pair coef) := by
  rw [pairRange?, pairRange, boundsAt?_eq h, boundsAt?_eq (pair.low_le_high.trans_lt h)]
  split <;> rfl

theorem rangeOf?_eq (h : c.Below p.size) : p.rangeOf? c = some (p.rangeOf c) := by
  have hlinear := mapM_eq_some (l := c.linear.toList)
    (f := fun t => do return (← p.boundsAt? t.1).scale t.2)
    (g := fun t => (p.boundsAt t.1).scale t.2) fun t ht => by
      rw [boundsAt?_eq (h.1 t ht)]
      rfl
  have hquadratic := mapM_eq_some (l := c.quadratic.toList)
    (f := fun t => p.pairRange? t.1 t.2) (g := fun t => p.pairRange t.1 t.2)
    fun t ht => pairRange?_eq (h.2 t ht) t.2
  rw [rangeOf?, hlinear, hquadratic]
  rfl

/-! ### Slack variables -/

/-- The slack of an inequality, or none if no assignment violates it. -/
def slackFor? (p : Problem α) (c : Constraint α) :
    Guarded (ConversionError α) (Option (Slack α)) := do
  if c.coefficients.any fun a => !Scalar.isIntegral a then
    throw (.unsupported c.name .fractionalCoefficient)
  if c.coefficients.any fun a => exactLimit < Scalar.abs a then
    throw (.unsupported c.name .largeCoefficient)
  let divisor : α := Scalar.ofInt c.divisor
  let range ← lookUp (p.rangeOf? c)
  let lower := range.lower / divisor
  let upper := range.upper / divisor
  let bound := c.rhs / divisor
  match c.relation with
  | .ge =>
    let rhs := Scalar.ceil bound
    if upper < rhs then throw (.infeasibleBounds c.name lower upper bound)
    if rhs ≤ lower then return none
    return some ⟨divisor, rhs, ← of (slackUpper c (upper - rhs)), -1⟩
  | _ =>
    let rhs := Scalar.floor bound
    if rhs < lower then throw (.infeasibleBounds c.name lower upper bound)
    if upper ≤ rhs then return none
    return some ⟨divisor, rhs, ← of (slackUpper c (rhs - lower)), 1⟩

/-- Adds a constraint of `p` to the problem under construction, as an equality. -/
def addTightened? (p : Problem α) (state : Problem α × List Nat) (c : Constraint α) :
    Guarded (ConversionError α) (Problem α × List Nat) := do
  let (q, slacks) := state
  if c.relation = .eq then return (← of (ofBuilding (q.addConstraint c)), slacks)
  match ← p.slackFor? c with
  | none => return state
  | some s =>
    let equality := c.tightened s
    if 0 < s.upper then
      let (q, index) ← of (ofBuilding (q.addVariable (slackName c) (.integer 0 s.upper)))
      let equality := { equality with linear := equality.linear.addTerm index s.sign }
      return (← of (ofBuilding (q.addConstraint equality)), slacks ++ [index])
    else return (← of (ofBuilding (q.addConstraint equality)), slacks)

/-- Turns inequalities into equalities with slack variables. -/
def addSlacks? (p : Problem α) : Guarded (ConversionError α) (Problem α × Record α) := do
  let q ← of (ofBuilding (p.variablesOnly.setObjective p.objective))
  let (q, slacks) ← p.constraints.foldlM p.addTightened? (q, [])
  pure (q, ⟨.inequalityToEquality, p.size, q.size, Record.keepAll p.size, slacks, false⟩)

theorem finds_slackFor (h : c.Below p.size) : Finds (p.slackFor? c) (p.slackFor c) := by
  refine Finds.ite (fun _ => rfl) fun _ => Finds.ite (fun _ => rfl) fun _ => ?_
  refine Finds.lookUp_bind (rangeOf?_eq h) ?_
  cases c.relation
  all_goals
    refine Finds.ite (fun _ => rfl) fun _ => Finds.ite (fun _ => Finds.pure _) fun _ => ?_
    exact Finds.of_bind _ fun _ _ => Finds.pure _

theorem finds_addTightened (h : c.Below p.size) (state : Problem α × List Nat) :
    Finds (p.addTightened? state c) (p.addTightened state c) := by
  refine Finds.ite (fun _ => Finds.of_bind _ fun _ _ => Finds.pure _) fun _ => ?_
  refine (finds_slackFor h).bind fun slack? _ => ?_
  cases slack? with
  | none => exact Finds.pure _
  | some slack =>
    refine Finds.ite (fun _ => ?_) fun _ => Finds.of_bind _ fun _ _ => Finds.pure _
    exact Finds.of_bind _ fun _ _ => Finds.of_bind _ fun _ _ => Finds.pure _

theorem finds_addSlacks (hp : p.WellFormed) : Finds p.addSlacks? p.addSlacks := by
  refine Finds.of_bind _ fun q _ => ?_
  refine (Finds.foldlM (fun c hc => finds_addTightened (hp.constraint_below c hc)) _).bind ?_
  exact fun _ _ => Finds.pure _

/-! ### Penalty factors -/

/-- The largest magnitude of a variable. -/
def magnitudeAt? (p : Problem α) (index : Nat) : Option α := do
  let v ← p.variableAt? index
  return Scalar.ofInt v.domain.magnitude

/-- A bound on the change of the objective between two assignments, with a margin. -/
def objectiveBound? (p : Problem α) : Option α := do
  let f := p.objective.polynomial
  let linear ← f.linear.toList.mapM fun t => do
    return Scalar.abs t.2 * (← p.magnitudeAt? t.1)
  let quadratic ← f.quadratic.toList.mapM fun t => do
    return Scalar.abs t.2 * (← p.magnitudeAt? t.1.low) * (← p.magnitudeAt? t.1.high)
  return Scalar.sum linear + Scalar.sum quadratic + penaltyMargin

/-- A penalty factor for the constraints of a problem. -/
def estimatedFactor? (p : Problem α) : Option α := do
  let bound ← p.objectiveBound?
  return if (p.constraints.any fun c => c.isFractional) && bound < fractionalFactor then
    fractionalFactor else bound

/-- The factor that is given, if it is valid, or else the estimated one. -/
def penaltyFactor? (p : Problem α) (given : Option α) : Guarded (ConversionError α) α :=
  match given with
  | some factor => of (validateFactor factor)
  | none => lookUp p.estimatedFactor?

/-- Replaces the constraints that have a shape by their penalties in the objective. -/
def foldShapes? (p : Problem α) (given : Option α) :
    Guarded (ConversionError α) (Problem α × Record α) := do
  let factor ← p.penaltyFactor? given
  let q ← of (ofBuilding (p.variablesOnly.setObjective (p.withShapePenalties factor)))
  let q ← of (ofBuilding (q.addConstraints p.genericConstraints))
  pure (q, Record.identity .linearInequalityToPenalty p.size)

/-- Replaces linear equalities by their squared deviations in the objective. -/
def foldEqualities? (p : Problem α) (given : Option α) :
    Guarded (ConversionError α) (Problem α × Record α) := do
  let factor ← p.penaltyFactor? given
  of (p.constraints.forM p.checkEquality)
  let q ← of (ofBuilding (p.variablesOnly.setObjective (p.withSquaredDeviations factor)))
  pure (q, Record.identity .linearEqualityToPenalty p.size)

theorem magnitudeAt?_eq {i : Nat} (h : i < p.size) :
    p.magnitudeAt? i = some (p.magnitudeAt i) := by
  obtain ⟨v, -, hv⟩ := exists_variableAt? h
  rw [magnitudeAt?, magnitudeAt, hv]
  rfl

theorem objectiveBound?_eq (hp : p.WellFormed) : p.objectiveBound? = some p.objectiveBound := by
  have hlinear := mapM_eq_some (l := p.objective.polynomial.linear.toList)
    (f := fun t => do return Scalar.abs t.2 * (← p.magnitudeAt? t.1))
    (g := fun t => Scalar.abs t.2 * p.magnitudeAt t.1) fun t ht => by
      rw [magnitudeAt?_eq (hp.objective_below.1 t ht)]
      rfl
  have hquadratic := mapM_eq_some (l := p.objective.polynomial.quadratic.toList)
    (f := fun t => do
      return Scalar.abs t.2 * (← p.magnitudeAt? t.1.low) * (← p.magnitudeAt? t.1.high))
    (g := fun t => Scalar.abs t.2 * p.magnitudeAt t.1.low * p.magnitudeAt t.1.high) fun t ht => by
      have hhigh : t.1.high < p.size := hp.objective_below.2 t ht
      rw [magnitudeAt?_eq (t.1.low_le_high.trans_lt hhigh), magnitudeAt?_eq hhigh]
      rfl
  rw [objectiveBound?, hlinear, hquadratic]
  rfl

theorem estimatedFactor?_eq (hp : p.WellFormed) :
    p.estimatedFactor? = some p.estimatedFactor := by
  rw [estimatedFactor?, objectiveBound?_eq hp]
  rfl

theorem finds_penaltyFactor (hp : p.WellFormed) (given : Option α) :
    Finds (p.penaltyFactor? given) (p.penaltyFactor given) := by
  cases given with
  | some factor => exact Finds.of _
  | none => exact Finds.lookUp (estimatedFactor?_eq hp)

theorem finds_foldShapes (hp : p.WellFormed) (given : Option α) :
    Finds (p.foldShapes? given) (p.foldShapes given) := by
  refine (finds_penaltyFactor hp given).bind fun _ _ => ?_
  exact Finds.of_bind _ fun _ _ => Finds.of_bind _ fun _ _ => Finds.pure _

theorem finds_foldEqualities (hp : p.WellFormed) (given : Option α) :
    Finds (p.foldEqualities? given) (p.foldEqualities given) := by
  refine (finds_penaltyFactor hp given).bind fun _ _ => ?_
  exact Finds.of_bind _ fun _ _ => Finds.of_bind _ fun _ _ => Finds.pure _

end Problem

/-! ### Substitution -/

namespace Substitution

variable {s : Substitution α} {n : Nat}

/-- The expression for a variable. -/
def formAt? (s : Substitution α) (index : Nat) : Option (α × List (Nat × α)) :=
  s[index]?.map Mapping.affineForm

/-- The polynomial that a linear and a quadratic expression become. -/
def expand? (s : Substitution α) (linear : Linear α) (quadratic : Quadratic α) :
    Option (Polynomial α) := do
  let linearForms ← linear.toList.mapM fun t => do return (t.2, ← s.formAt? t.1)
  let pairForms ← quadratic.toList.mapM fun t => do
    return (t.2, ← s.formAt? t.1.low, ← s.formAt? t.1.high)
  let constants := linearForms.map (fun f => f.1 * f.2.1) ++
    pairForms.map fun f => f.1 * f.2.1.1 * f.2.2.1
  let linearTerms := linearForms.flatMap (fun f => f.2.2.map fun u => (u.1, f.1 * u.2)) ++
    pairForms.flatMap fun f => f.2.2.2.map (fun u => (u.1, f.1 * f.2.1.1 * u.2)) ++
      f.2.1.2.map fun u => (u.1, f.1 * f.2.2.1 * u.2)
  let products := pairForms.flatMap fun f =>
    f.2.1.2.flatMap fun u => f.2.2.2.map fun v => (u.1, v.1, f.1 * u.2 * v.2)
  return ⟨constants.foldl (fun total a => total + a) 0, Terms.ofList linearTerms,
    Quadratic.ofProducts products⟩

/-- The objective over the new variables. -/
def objective? (s : Substitution α) (o : Objective α) : Option (Objective α) := do
  let f ← s.expand? o.polynomial.linear o.polynomial.quadratic
  return ⟨o.sense, { f with constant := o.polynomial.constant + f.constant }⟩

/-- The constraint over the new variables. -/
def constraint? (s : Substitution α) (c : Constraint α) : Option (Constraint α) := do
  let f ← s.expand? c.linear c.quadratic
  return ⟨c.name, f.linear, f.quadratic, c.relation, c.rhs - f.constant⟩

theorem formAt?_eq {i : Nat} (h : i < s.length) : s.formAt? i = some (s.formAt i) := by
  rw [formAt?, formAt, List.getElem?_eq_getElem h]
  rfl

theorem expand?_eq {linear : Linear α} {quadratic : Quadratic α} (hlinear : linear.Below s.length)
    (hquadratic : quadratic.Below s.length) :
    s.expand? linear quadratic = some (s.expand linear quadratic) := by
  have hlinearForms := mapM_eq_some (l := linear.toList)
    (f := fun t => do return (t.2, ← s.formAt? t.1)) (g := fun t => (t.2, s.formAt t.1))
    fun t ht => by
      rw [formAt?_eq (hlinear t ht)]
      rfl
  have hpairForms := mapM_eq_some (l := quadratic.toList)
    (f := fun t => do return (t.2, ← s.formAt? t.1.low, ← s.formAt? t.1.high))
    (g := fun t => (t.2, s.formAt t.1.low, s.formAt t.1.high)) fun t ht => by
      have hhigh : t.1.high < s.length := hquadratic t ht
      rw [formAt?_eq (t.1.low_le_high.trans_lt hhigh), formAt?_eq hhigh]
      rfl
  rw [expand?, hlinearForms, hpairForms]
  simp only [Option.bind_eq_bind, Option.bind_some, List.map_map, List.flatMap_map]
  rfl

theorem objective?_eq {o : Objective α} (h : o.polynomial.Below s.length) :
    s.objective? o = some (s.objective o) := by
  rw [objective?, expand?_eq h.1 h.2]
  rfl

theorem constraint?_eq {c : Constraint α} (h : c.Below s.length) :
    s.constraint? c = some (s.constraint c) := by
  rw [constraint?, expand?_eq h.1 h.2]
  rfl

end Substitution

namespace Problem

variable {p q : Problem α} {table : ProductTable}

/-- Replaces integer variables by sums of binary ones. -/
def binarize? (p : Problem α) : Guarded (ConversionError α) (Problem α × Record α) := do
  let (q, s) ← of (p.vars.foldlM addBinarized (Problem.empty p.name, []))
  let objective ← lookUp (s.objective? p.objective)
  let q ← of (ofBuilding (q.setObjective objective))
  let constraints ← lookUp (p.constraints.mapM s.constraint?)
  let q ← of (ofBuilding (q.addConstraints constraints))
  pure (q, ⟨.integerToBinary, p.size, q.size, s, [], false⟩)

/-- There is a mapping for each variable. -/
theorem length_of_addBinarized {s : Substitution α}
    (h : p.vars.foldlM addBinarized (Problem.empty p.name, []) = .ok (q, s)) :
    s.length = p.size :=
  (foldlM_ok_of_step (motive := fun (done : List Variable) (state : Problem α × Substitution α) =>
      (Problem.empty p.name).Grows state.1 (state.2.flatMap Mapping.indices) ∧
        state.2.length = done.length) ⟨.refl, rfl⟩
    (fun _ _ _ _ _ _ hs hstep => by
      obtain ⟨hgrows, hlen⟩ := hs.1.addBinarized hstep
      exact ⟨hgrows, by rw [hlen, hs.2, List.length_append, List.length_singleton]⟩) h).2

theorem finds_binarize (hp : p.WellFormed) : Finds p.binarize? p.binarize := by
  refine Finds.of_bind _ fun ⟨q, s⟩ hrun => ?_
  have hlen : s.length = p.size := length_of_addBinarized hrun
  have hobjective := Substitution.objective?_eq (hlen ▸ hp.objective_below)
  have hconstraints : p.constraints.mapM s.constraint? = some (p.constraints.map s.constraint) :=
    mapM_eq_some fun c hc => Substitution.constraint?_eq (hlen ▸ hp.constraint_below c hc)
  refine Finds.lookUp_bind hobjective (Finds.of_bind _ fun _ _ => ?_)
  refine Finds.lookUp_bind hconstraints (Finds.of_bind _ fun _ _ => ?_)
  exact Finds.pure _

/-! ### Products -/

/-- The name of a variable. -/
def nameAt? (p : Problem α) (index : Nat) : Option String :=
  (p.variableAt? index).map Variable.name

/-- The name of the variable for a product. -/
def productName? (p : Problem α) (pair : Pair) : Option String := do
  return "_and_" ++ (← p.nameAt? pair.low) ++ "_" ++ (← p.nameAt? pair.high)

/-- Adds a variable for a pair of `p` that is a product and has none yet. -/
def addProduct? (p : Problem α) (state : Problem α × ProductTable) (pair : Pair) :
    Guarded (ConversionError α) (Problem α × ProductTable) := do
  let (q, table) := state
  if p.isProduct pair && (table.indexOf? pair).isNone then
    let name ← lookUp (p.productName? pair)
    let (q, index) ← of (ofBuilding (q.addVariable name .binary))
    pure (q, table.insert pair index)
  else pure state

/-- The constraints that tie all variables of a table to their products. -/
def ties? (q : Problem α) (table : ProductTable) : Option (List (Constraint α)) := do
  let ties ← table.mapM fun e => do return productConstraints (← q.nameAt? e.2) e.1 e.2
  return ties.flatten

/-- Replaces products of binary variables by variables. -/
def linearize? (p : Problem α) : Guarded (ConversionError α) (Problem α × Record α) := do
  let (q, table) ← p.allPairs.foldlM p.addProduct? (p.variablesOnly, [])
  let ties ← lookUp (q.ties? table)
  let q ← of (ofBuilding (q.addConstraints ties))
  let q ← of (ofBuilding (q.setObjective (p.linearizedObjective table)))
  let q ← of (ofBuilding (q.addConstraints (p.constraints.map (p.linearizedConstraint table))))
  let introduced := table.map fun e => e.2
  pure (q, ⟨.quadraticToLinear, p.size, q.size, Record.keepAll p.size, introduced, false⟩)

theorem nameAt?_eq {i : Nat} (h : i < p.size) : p.nameAt? i = some (p.nameAt i) := by
  obtain ⟨v, -, hv⟩ := exists_variableAt? h
  rw [nameAt?, nameAt, hv]
  rfl

theorem productName?_eq {pair : Pair} (h : p.isProduct pair = true) :
    p.productName? pair = some (p.productName pair) := by
  obtain ⟨hlow, hhigh⟩ := isProduct_isBinaryAt h
  rw [productName?, nameAt?_eq (isBinaryAt_lt hlow), nameAt?_eq (isBinaryAt_lt hhigh)]
  rfl

/-- Only the names of binary variables are looked up. -/
theorem finds_addProduct (state : Problem α × ProductTable) (pair : Pair) :
    Finds (p.addProduct? state pair) (p.addProduct state pair) := by
  refine Finds.ite (fun hnew => ?_) fun _ => Finds.pure _
  have hproduct : p.isProduct pair = true := (Bool.and_eq_true_iff.mp hnew).1
  refine Finds.lookUp_bind (productName?_eq hproduct) (Finds.of_bind _ fun _ _ => ?_)
  exact Finds.pure _

theorem ties?_eq (h : ∀ e ∈ table, e.2 < q.size) : q.ties? table = some (q.ties table) := by
  have hties := mapM_eq_some (l := table)
    (f := fun e => do return (productConstraints (← q.nameAt? e.2) e.1 e.2 : List (Constraint α)))
    (g := fun e => productConstraints (q.nameAt e.2) e.1 e.2) fun e he => by
      rw [nameAt?_eq (h e he)]
      rfl
  rw [ties?, hties]
  rfl

theorem finds_linearize (p : Problem α) : Finds p.linearize? p.linearize := by
  refine (Finds.foldlM (fun pair _ state => finds_addProduct state pair) _).bind ?_
  intro ⟨q, table⟩ hrun
  have hlisted := listed_of_run hrun
  refine Finds.lookUp_bind (ties?_eq fun e he => hlisted.index_lt he) ?_
  exact Finds.of_bind _ fun _ _ => Finds.of_bind _ fun _ _ => Finds.of_bind _ fun _ _ =>
    Finds.pure _

end Problem

/-! ### Pipelines -/

/-- The problem that a stage leaves, and its record. -/
def Stage.run? (s : Stage α) (p : Problem α) :
    Guarded (ConversionError α) (Problem α × Record α) :=
  match s with
  | linearInequalityToPenalty factor => p.foldShapes? factor
  | inequalityToEquality => p.addSlacks?
  | integerToBinary => p.binarize?
  | linearEqualityToPenalty factor => p.foldEqualities? factor
  | maximizeToMinimize => of (p.orient .minimize .maximizeToMinimize)
  | minimizeToMaximize => of (p.orient .maximize .minimizeToMaximize)
  | quadraticToLinear => p.linearize?

/-- Applies stages one after another. -/
def runStages? (p : Problem α) : List (Stage α) → Guarded (ConversionError α) (Conversion α)
  | [] => pure ⟨p, []⟩
  | s :: rest => do
    let (q, record) ← s.run? p
    let c ← runStages? q rest
    pure ⟨c.problem, record :: c.records⟩

/-- Converts a problem by stages, once the penalty factors of all of them are found valid. -/
def convert? (p : Problem α) (stages : List (Stage α)) :
    Guarded (ConversionError α) (Conversion α) := do
  of (stages.forM Stage.validate)
  runStages? p stages

variable {p : Problem α}

/-- **A stage** finds all that it looks up. -/
theorem Stage.finds_apply (hp : p.WellFormed) (s : Stage α) :
    Finds (s.run? p) (s.apply p) := by
  cases s with
  | linearInequalityToPenalty factor => exact Problem.finds_foldShapes hp factor
  | inequalityToEquality => exact Problem.finds_addSlacks hp
  | integerToBinary => exact Problem.finds_binarize hp
  | linearEqualityToPenalty factor => exact Problem.finds_foldEqualities hp factor
  | maximizeToMinimize => exact Finds.of _
  | minimizeToMaximize => exact Finds.of _
  | quadraticToLinear => exact Problem.finds_linearize p

/-- **A run of stages** finds all that it looks up: each stage leaves a well-formed problem to the
next one. -/
theorem finds_runStages (hp : p.WellFormed) (stages : List (Stage α)) :
    Finds (runStages? p stages) (runStages p stages) := by
  induction stages generalizing p with
  | nil => exact Finds.pure _
  | cons s rest ih =>
    refine (s.finds_apply hp).bind fun ⟨q, r⟩ hq => ?_
    exact (ih (s.wellFormed_of_apply hp hq)).bind fun _ _ => Finds.pure _

/-- **Defaults are not used.** A reachable problem is converted by any stages, and evaluated and
checked at any vector of the right length, with the same outcome whether a failed look-up gives a
default or has no outcome at all. -/
theorem lookups_find (hp : p.Reachable) :
    (∀ stages, Finds (convert? p stages) (convert p stages)) ∧
      ∀ values, values.length = p.size →
        Finds (p.evaluateObjective? values) (p.evaluateObjective values) ∧
          ∀ tolerance,
            Finds (p.violations? values tolerance) (p.violations values tolerance) ∧
              Finds (p.isFeasible? values tolerance) (p.isFeasible values tolerance) := by
  have hwellFormed := hp.wellFormed
  refine ⟨fun stages => Finds.of_bind _ fun _ _ => finds_runStages hwellFormed stages, ?_⟩
  intro values hlen
  exact ⟨Problem.finds_evaluateObjective hwellFormed hlen, fun tolerance =>
    ⟨Problem.finds_violations hwellFormed hlen tolerance,
      Problem.finds_isFeasible hwellFormed hlen tolerance⟩⟩

/-- Operations for a problem with a product of binary variables and an integer variable. -/
def haulSteps : List (BuildStep Rat) :=
  [.binaryVariable "x", .binaryVariable "y", .integerVariable "n" (-1) 3,
    .maximize 1 (Terms.ofList [(0, 2), (2, 1)]) (Quadratic.ofProducts [(0, 1, 3)]),
    .addConstraint ⟨"load", Terms.ofList [(0, 1), (2, 1)], Quadratic.ofProducts [(0, 1, 1)],
      .le, 3⟩]

/-- Stages that look up names, bounds, mappings and magnitudes. -/
def haulStages : List (Stage Rat) :=
  [.quadraticToLinear, .inequalityToEquality, .integerToBinary, .linearEqualityToPenalty none,
    .maximizeToMinimize]

/-- Without a default the problem is converted to one of binary variables and no constraints, and
`[1, 1, 3]` has the value nine and is not feasible. -/
theorem haul_lookups :
    let p := haulSteps.foldl Problem.attempt (Problem.empty "haul")
    (∃ c, Finds (convert? p haulStages) (.ok c) ∧ c.problem.isQubo = true) ∧
      Finds (p.evaluateObjective? [1, 1, 3]) (.ok 9) ∧
      (∃ violations, Finds (p.violations? [1, 1, 3] 0) (.ok violations) ∧
        violations.length = 1) ∧
      Finds (p.isFeasible? [1, 1, 3] 0) (.ok false) := by
  intro p
  obtain ⟨hconvert, hvalues⟩ := lookups_find (.attempts (.empty "haul") haulSteps)
  obtain ⟨hobjective, hchecks⟩ := hvalues [1, 1, 3] (by decide +kernel)
  obtain ⟨hviolations, hfeasible⟩ := hchecks 0
  have hqubo : (convert p haulStages).toOption.map (fun c => c.problem.isQubo) = some true := by
    decide +kernel
  have hvalue : (p.evaluateObjective [1, 1, 3]).toOption = some 9 := by decide +kernel
  have hlength : (p.violations [1, 1, 3] 0).toOption.map List.length = some 1 := by decide +kernel
  have hdecision : (p.isFeasible [1, 1, 3] 0).toOption = some false := by decide +kernel
  obtain ⟨c, hc, hc'⟩ := Option.map_eq_some_iff.mp hqubo
  obtain ⟨violations, hv, hv'⟩ := Option.map_eq_some_iff.mp hlength
  rw [toOption_eq_some_iff] at hc hv hvalue hdecision
  exact ⟨⟨c, hc ▸ hconvert haulStages, hc'⟩, hvalue ▸ hobjective,
    ⟨violations, hv ▸ hviolations, hv'⟩, hdecision ▸ hfeasible⟩

end QuboReduction

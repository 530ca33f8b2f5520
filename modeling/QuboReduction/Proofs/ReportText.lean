import QuboReduction.Proofs.ReportLines

/-!
# Reports tell problems

A report is a list of lines in three sections, of which the second one ends at an empty line. If the
names in a problem are identifiers and its numbers are finite, if each coefficient is a unit or far
from units and the constant is zero or large enough to be shown, then the lines tell all parts of
the problem: the name, the direction, the terms of each expression with their variables, the
constraints and the variables with their bounds. So two such problems with the same report are
equal.

## Main definitions

* `QuboReduction.Problem.IsLegible` — what is required of a problem.
* `QuboReduction.Problem.reportLines` — the lines of a report.

## Main results

* `QuboReduction.unlines_inj` — a text tells its lines.
* `QuboReduction.Problem.IsLegible.texts_of_report_eq` — a report tells the lines of its sections.
* `QuboReduction.Problem.equal_of_report_eq` — reports tell problems.
-/

namespace QuboReduction

open Binary64 (value)

/-! ### Lines -/

theorem toList_unlines (lines : List String) :
    (unlines lines).toList = lines.flatMap fun line => line.toList ++ ['\n'] := by
  rw [unlines, String.toList_join, List.flatMap_map]
  simp

/-- **A text tells its lines**, none of which has a line break. -/
theorem unlines_inj {lines lines' : List String} (h : ∀ line ∈ lines, '\n' ∉ line.toList)
    (h' : ∀ line ∈ lines', '\n' ∉ line.toList) (heq : unlines lines = unlines lines') :
    lines = lines' := by
  have hlist := congrArg String.toList heq
  rw [toList_unlines, toList_unlines] at hlist
  clear heq
  induction lines generalizing lines' with
  | nil =>
    cases lines' with
    | nil => rfl
    | cons line' lines' => simp at hlist
  | cons line lines ih =>
    obtain ⟨hline, h⟩ := List.forall_mem_cons.mp h
    cases lines' with
    | nil => simp at hlist
    | cons line' lines' =>
      obtain ⟨hline', h'⟩ := List.forall_mem_cons.mp h'
      simp only [List.flatMap_cons, List.append_assoc, List.singleton_append] at hlist
      obtain ⟨hfirst, hlist⟩ := append_inj_of_class (P := fun c => c ≠ '\n')
        (fun c hc heq => hline (heq ▸ hc)) (fun c hc heq => hline' (heq ▸ hc)) (by simp) (by simp)
        hlist
      rw [String.toList_inj.mp hfirst, ih h h' (List.cons.inj hlist).2]

/-- A section with a line of its own for being empty. -/
theorem orElse_inj {lines lines' : List String} {line : String} (h : line ∉ lines)
    (h' : line ∉ lines') (heq : Problem.orElse lines line = Problem.orElse lines' line) :
    lines = lines' := by
  cases lines with
  | nil =>
    cases lines' with
    | nil => rfl
    | cons l' lines' =>
      have hfirst : line = l' := (List.cons.inj heq).1
      exact absurd (hfirst ▸ List.mem_cons_self) h'
  | cons l lines =>
    cases lines' with
    | nil =>
      have hfirst : l = line := (List.cons.inj heq).1
      exact absurd (hfirst ▸ List.mem_cons_self) h
    | cons l' lines' => exact heq

namespace Problem

variable {p q : Problem Float} {linear : Linear Float} {quadratic : Quadratic Float}

/-! ### Legible problems -/

/-- What is required of a problem for its report to tell all its parts. -/
@[mk_iff]
structure IsLegible (p : Problem Float) : Prop where
  /-- The name has no line break. -/
  name : '\n' ∉ p.name.toList
  /-- The names of variables are identifiers. -/
  variableNames : ∀ v ∈ p.vars, isIdentifier v.name.toList = true
  /-- The names of constraints are identifiers. -/
  constraintNames : ∀ c ∈ p.constraints, isIdentifier c.name.toList = true
  /-- All numbers are finite. -/
  allFinite : p.AllFinite
  /-- Each coefficient of a term of degree one is a unit or far from units. -/
  linear : ∀ e ∈ p.linears, ∀ a ∈ e.coefficients, Binary64.IsLegible a
  /-- Each coefficient of a term of degree two is a unit or far from units. -/
  quadratic : ∀ e ∈ p.quadratics, ∀ a ∈ e.coefficients, Binary64.IsLegible a
  /-- The constant of the objective is zero or large enough to be shown. -/
  constant : (p.objective.polynomial.constant == 0) = true ∨
    Scalar.ofDecimal 1 (-10) < Scalar.abs p.objective.polynomial.constant

instance (p : Problem Float) : Decidable p.IsLegible := decidable_of_iff _ (isLegible_iff p).symm

theorem IsLegible.isIdentifier_labelAt (h : p.IsLegible) {i : Nat} (hi : i < p.size) :
    isIdentifier (p.labelAt i).toList = true := by
  obtain ⟨v, hv, hat⟩ := exists_variableAt? hi
  rw [labelAt_of_variableAt? hat]
  exact h.variableNames v hv

theorem IsLegible.isNamed_productLabel (h : p.IsLegible) {pair : Pair} (hi : pair.high < p.size) :
    (p.productLabel pair).IsNamed := by
  have hlow := h.isIdentifier_labelAt (pair.low_le_high.trans_lt hi)
  rw [productLabel]
  split
  · exact hlow
  · exact ⟨hlow, h.isIdentifier_labelAt hi⟩

theorem IsLegible.legibleTerms (h : p.IsLegible) (hlinear : linear.Below p.size)
    (hquadratic : quadratic.Below p.size) (hfinite : linear.AllFinite)
    (hfinite' : quadratic.AllFinite) (hlegible : ∀ a ∈ linear.coefficients, Binary64.IsLegible a)
    (hlegible' : ∀ a ∈ quadratic.coefficients, Binary64.IsLegible a) :
    p.LegibleTerms linear quadratic where
  linear_below := hlinear
  quadratic_below := hquadratic
  legible t ht := by
    rcases List.mem_append.mp ht with ht | ht
    · obtain ⟨s, hs, rfl⟩ := List.mem_map.mp ht
      exact ⟨hfinite' s hs, hlegible' _ (List.mem_map_of_mem hs),
        h.isNamed_productLabel (hquadratic s hs)⟩
    · obtain ⟨s, hs, rfl⟩ := List.mem_map.mp ht
      exact ⟨hfinite s hs, hlegible _ (List.mem_map_of_mem hs),
        h.isIdentifier_labelAt (hlinear s hs)⟩

theorem IsLegible.objective (h : p.IsLegible) (hp : p.WellFormed) :
    p.LegibleTerms p.objective.polynomial.linear p.objective.polynomial.quadratic :=
  h.legibleTerms hp.objective_below.1 hp.objective_below.2 h.allFinite.objective.linear
    h.allFinite.objective.quadratic (h.linear _ List.mem_cons_self)
    (h.quadratic _ List.mem_cons_self)

theorem IsLegible.constraint (h : p.IsLegible) (hp : p.WellFormed) {c : Constraint Float}
    (hc : c ∈ p.constraints) : p.LegibleConstraint c where
  name := h.constraintNames c hc
  terms := h.legibleTerms (hp.constraint_below c hc).1 (hp.constraint_below c hc).2
    (h.allFinite.constraints c hc).linear (h.allFinite.constraints c hc).quadratic
    (h.linear _ (List.mem_cons_of_mem _ (List.mem_map_of_mem hc)))
    (h.quadratic _ (List.mem_cons_of_mem _ (List.mem_map_of_mem hc)))
  rhs := (h.allFinite.constraints c hc).rhs

/-! ### Reports -/

/-- The lines of a report. -/
def reportLines {α : Type} [Scalar α] [NumberText α] (p : Problem α) : List String :=
  let f := p.objective.polynomial
  ("Problem name: " ++ p.name) :: "" :: senseLine p.objective.sense ::
    ("  " ++ p.expressionText f.constant f.linear f.quadratic) :: "" :: "Subject to" ::
      (orElse (p.constraints.map p.constraintLine) "  No constraints" ++
        "" :: "Variables" :: orElse (p.vars.map variableLine) "  No variables")

theorem report_eq_unlines {α : Type} [Scalar α] [NumberText α] (p : Problem α) :
    p.report = unlines p.reportLines := by
  simp only [report, reportLines, List.cons_append, List.nil_append, List.append_assoc]

theorem forall_mem_orElse {P : String → Prop} {lines : List String} {line : String}
    (h : ∀ l ∈ lines, P l) (hline : P line) : ∀ l ∈ orElse lines line, P l := by
  rw [orElse]
  split
  · simpa using hline
  · exact h

/-- No line of a report has a line break. -/
theorem IsLegible.newline_notMem_reportLines (hp : p.WellFormed) (h : p.IsLegible) :
    ∀ line ∈ p.reportLines, '\n' ∉ line.toList := by
  have hname : '\n' ∉ ("Problem name: " ++ p.name).toList := by
    rw [String.toList_append, List.mem_append, not_or]
    exact ⟨by decide, h.name⟩
  have hsense : '\n' ∉ (senseLine p.objective.sense).toList := by
    cases p.objective.sense <;> decide
  have hobjective : '\n' ∉ ("  " ++ p.expressionText p.objective.polynomial.constant
      p.objective.polynomial.linear p.objective.polynomial.quadratic).toList := by
    rw [String.toList_append, List.mem_append, not_or, toList_expressionText]
    exact ⟨by decide, Wording.newline_notMem
      (Wording.isProper_ofTerms h.allFinite.objective.constant (h.objective hp).legible)⟩
  have hconstraints : ∀ line ∈ p.constraints.map p.constraintLine, '\n' ∉ line.toList := by
    intro line hline
    obtain ⟨c, hc, rfl⟩ := List.mem_map.mp hline
    exact (h.constraint hp hc).newline_notMem
  have hvariables : ∀ line ∈ p.vars.map variableLine, '\n' ∉ line.toList := by
    intro line hline
    obtain ⟨v, hv, rfl⟩ := List.mem_map.mp hline
    exact newline_notMem_variableLine (h.variableNames v hv)
  simp only [reportLines, List.forall_mem_cons, List.forall_mem_append]
  exact ⟨hname, by decide, hsense, hobjective, by decide, by decide,
    forall_mem_orElse hconstraints (by decide), by decide, by decide,
    forall_mem_orElse hvariables (by decide)⟩

theorem IsLegible.noConstraints_notMem (hp : p.WellFormed) (h : p.IsLegible) :
    "  No constraints" ∉ p.constraints.map p.constraintLine := by
  intro hmem
  obtain ⟨c, hc, hline⟩ := List.mem_map.mp hmem
  exact (h.constraint hp hc).line_ne hline

theorem noVariables_notMem (vars : List Variable) :
    "  No variables" ∉ vars.map variableLine := by
  intro hmem
  obtain ⟨v, -, hline⟩ := List.mem_map.mp hmem
  have hlist := congrArg String.toList hline
  rw [toList_variableLine] at hlist
  cases hdomain : v.domain <;> rw [hdomain] at hlist <;> simp at hlist

/-- No line of the section of constraints is empty. -/
theorem constraintLines_ne_empty (p : Problem Float) :
    ∀ line ∈ orElse (p.constraints.map p.constraintLine) "  No constraints", line ≠ "" := by
  refine forall_mem_orElse (fun line hline hempty => ?_) (by decide)
  obtain ⟨c, -, rfl⟩ := List.mem_map.mp hline
  have hlist := congrArg String.toList hempty
  rw [LegibleConstraint.toList_line] at hlist
  simp at hlist

/-- The lines of variables tell the variables, whose indices are their positions. -/
theorem WellFormed.vars_eq_of_lines (hp : p.WellFormed) (hq : q.WellFormed)
    (hp' : ∀ v ∈ p.vars, isIdentifier v.name.toList = true)
    (hq' : ∀ v ∈ q.vars, isIdentifier v.name.toList = true)
    (h : p.vars.map variableLine = q.vars.map variableLine) : p.vars = q.vars := by
  refine List.ext_getElem? fun i => ?_
  have hline := congrArg (fun lines => lines[i]?) h
  simp only [List.getElem?_map] at hline
  cases hv : p.vars[i]? with
  | none =>
    rw [hv, Option.map_none] at hline
    rw [Option.map_eq_none_iff.mp hline.symm]
  | some v =>
    rw [hv, Option.map_some] at hline
    obtain ⟨w, hw, hline⟩ := Option.map_eq_some_iff.mp hline.symm
    obtain ⟨hname, hdomain⟩ := variableLine_inj (hq' w (List.mem_of_getElem? hw))
      (hp' v (List.mem_of_getElem? hv)) hline
    have hindex : w.index = v.index := (hq.index_eq i w hw).trans (hp.index_eq i v hv).symm
    rw [hw, Option.some.injEq]
    obtain ⟨name, domain, index⟩ := v
    obtain ⟨name', domain', index'⟩ := w
    exact (Variable.mk.injEq ..).mpr ⟨hname.symm, hdomain.symm, hindex.symm⟩

theorem senseLine_inj {s s' : Sense} (h : senseLine s = senseLine s') : s = s' := by
  revert h
  cases s <;> cases s' <;> decide

/-- The texts in a report that tell the parts of a problem. -/
theorem IsLegible.texts_of_report_eq (hp : p.WellFormed) (hq : q.WellFormed) (hp' : p.IsLegible)
    (hq' : q.IsLegible) (h : p.report = q.report) :
    p.name = q.name ∧ p.objective.sense = q.objective.sense ∧
      p.expressionText p.objective.polynomial.constant p.objective.polynomial.linear
        p.objective.polynomial.quadratic =
      q.expressionText q.objective.polynomial.constant q.objective.polynomial.linear
        q.objective.polynomial.quadratic ∧
      p.constraints.map p.constraintLine = q.constraints.map q.constraintLine ∧
      p.vars.map variableLine = q.vars.map variableLine := by
  have cancel : ∀ {s t t' : String}, s ++ t = s ++ t' → t = t' := fun {s t t'} heq => by
    have hlist := congrArg String.toList heq
    rw [String.toList_append, String.toList_append] at hlist
    exact String.toList_inj.mp (List.append_cancel_left hlist)
  rw [report_eq_unlines, report_eq_unlines] at h
  have hlines := unlines_inj (hp'.newline_notMem_reportLines hp)
    (hq'.newline_notMem_reportLines hq) h
  simp only [reportLines, List.cons.injEq, true_and] at hlines
  obtain ⟨hname, hsense, hobjective, hsections⟩ := hlines
  -- the empty line ends the constraints
  obtain ⟨hconstraints, hvariables⟩ := append_inj_of_class (P := fun line => line ≠ "")
    p.constraintLines_ne_empty q.constraintLines_ne_empty (by simp) (by simp) hsections
  simp only [List.cons.injEq, true_and] at hvariables
  exact ⟨cancel hname, senseLine_inj hsense, cancel hobjective,
    orElse_inj (hp'.noConstraints_notMem hp) (hq'.noConstraints_notMem hq) hconstraints,
    orElse_inj (noVariables_notMem _) (noVariables_notMem _) hvariables⟩

theorem IsLegible.constant_cases (h : p.IsLegible) :
    value p.objective.polynomial.constant = 0 ∨
      Scalar.isNegligible p.objective.polynomial.constant = false := by
  refine h.constant.imp (fun hzero => ?_) fun hlarge => ?_
  · rw [← Binary64.value_zero]
    exact (Binary64.beq_iff_value_eq h.allFinite.objective.constant Binary64.isFinite_zero).mp
      hzero
  · rw [Scalar.isNegligible, Bool.not_eq_false', decide_eq_true_iff]
    exact hlarge

/-- The text of an objective tells its polynomial. -/
theorem IsLegible.polynomial_equal (hp : p.WellFormed) (hq : q.WellFormed) (hp' : p.IsLegible)
    (hq' : q.IsLegible) (hvars : p.vars = q.vars)
    (h : p.expressionText p.objective.polynomial.constant p.objective.polynomial.linear
        p.objective.polynomial.quadratic =
      q.expressionText q.objective.polynomial.constant q.objective.polynomial.linear
        q.objective.polynomial.quadratic) :
    p.objective.polynomial.equal q.objective.polynomial = true := by
  have hfinite := hp'.allFinite.objective.constant
  have hfinite' := hq'.allFinite.objective.constant
  have hlist := congrArg String.toList h
  rw [toList_expressionText, toList_expressionText, ← shownTerms_congr hvars] at hlist
  obtain ⟨⟨hconstant, hlinear, hquadratic⟩, -⟩ := LegibleTerms.text_append_inj hp
    (hp'.objective hp) ((hq'.objective hq).congr hvars) hfinite hfinite' hp'.constant_cases
    hq'.constant_cases (Or.inl rfl) (Or.inl rfl) (congrArg (fun text => text ++ []) hlist)
  have hconstant : (p.objective.polynomial.constant == q.objective.polynomial.constant) = true :=
    (Binary64.beq_iff_value_eq hfinite hfinite').mpr hconstant
  rw [Polynomial.equal, hconstant, hlinear, hquadratic]
  rfl

/-- **Reports tell problems:** two problems with the same report are equal, if their names are
identifiers and without line breaks, their numbers are finite, their coefficients are units or far
from units and the constants of their objectives are zero or large enough to be shown. -/
theorem equal_of_report_eq (hp : p.Reachable) (hq : q.Reachable) (hp' : p.IsLegible)
    (hq' : q.IsLegible) (h : p.report = q.report) : p.equal q = true := by
  have hwf := hp.wellFormed
  have hwf' := hq.wellFormed
  obtain ⟨hname, hsense, hobjective, hconstraints, hvariables⟩ :=
    hp'.texts_of_report_eq hwf hwf' hq' h
  have hvars := hwf.vars_eq_of_lines hwf' hp'.variableNames hq'.variableNames hvariables
  have hpolynomial := hp'.polynomial_equal hwf hwf' hq' hvars hobjective
  obtain ⟨hlength, hall⟩ := all_zip_of_map_eq (R := Constraint.equal) hconstraints
    fun c hc d hd hline => by
      rw [← LegibleConstraint.line_congr hvars d] at hline
      exact LegibleConstraint.line_inj hwf (hp'.constraint hwf hc)
        ((hq'.constraint hwf' hd).congr hvars) hline
  rw [equal, Objective.equal, hname, hvars, hsense, hpolynomial, hlength, hall]
  simp

end Problem

/-- Operations for a problem with a square, a product and a constraint. -/
def crossingSteps : List (BuildStep Float) :=
  [.binaryVariable "x", .integerVariable "n" (-2) 4,
    .minimize 0.0 (Terms.ofList [(0, 1.0), (1, -2.5)])
      (Quadratic.ofProducts [(0, 1, -1.0), (1, 1, 0.5)]),
    .linearConstraint "cap" (Terms.ofList [(0, 1.5), (1, -1.0)]) .le 3.0]

/-- Operations for the same problem, with a negative zero and with terms in another order. -/
def recrossingSteps : List (BuildStep Float) :=
  [.binaryVariable "x", .integerVariable "n" (-2) 4,
    .linearConstraint "cap" (Terms.ofList [(1, -1.0), (0, 1.0), (0, 0.5)]) .le 3.0,
    .minimize (-0.0) (Terms.ofList [(1, -2.5), (0, 1.0)])
      (Quadratic.ofProducts [(1, 1, 0.5), (1, 0, -1.0)])]

/-- Both are legible and have the same report, and so they are equal. -/
theorem crossing_reports :
    let p := crossingSteps.foldl Problem.attempt (Problem.empty "crossing")
    let q := recrossingSteps.foldl Problem.attempt (Problem.empty "crossing")
    p.IsLegible ∧ q.IsLegible ∧ p.report = q.report ∧ p.equal q = true := by
  intro p q
  have hp : p.IsLegible := by decide +kernel
  have hq : q.IsLegible := by decide +kernel
  have hreport : p.report = q.report := by decide +kernel
  exact ⟨hp, hq, hreport, Problem.equal_of_report_eq (.attempts (.empty _) crossingSteps)
    (.attempts (.empty _) recrossingSteps) hp hq hreport⟩

end QuboReduction

import QuboReduction.Proofs.Documents
import QuboReduction.Proofs.Reachable
import QuboReduction.Proofs.ReportExpressions

/-!
# Lines of reports

The line of a variable tells its name and its domain, and the line of a constraint its name, its
terms, its relation and its right-hand side. Terms are told by their labels, since the variables of
a problem have different names, and those of degree two are told from those of degree one. So the
lines of constraints can only be compared between problems with the same variables.

## Main definitions

* `QuboReduction.Problem.shownTerms` — the terms of an expression with their labels.
* `QuboReduction.Problem.LegibleTerms`, `QuboReduction.Problem.LegibleConstraint` — what is required
  of an expression and of a constraint.

## Main results

* `QuboReduction.Problem.LegibleTerms.text_append_inj` — expressions.
* `QuboReduction.Problem.variableLine_inj`, `QuboReduction.Problem.LegibleConstraint.line_inj` — the
  lines of variables and constraints.
-/

namespace QuboReduction

open Binary64 (value reportText)

/-- Elements of two lists are compared one by one by what they are told by. -/
theorem all_zip_of_map_eq {β γ : Type} {f g : β → γ} {R : β → β → Bool} {l l' : List β}
    (h : l.map f = l'.map g) (hR : ∀ a ∈ l, ∀ b ∈ l', f a = g b → R a b = true) :
    l.length = l'.length ∧ (l.zip l').all (fun p => R p.1 p.2) = true := by
  induction l generalizing l' with
  | nil =>
    cases l' with
    | nil => exact ⟨rfl, rfl⟩
    | cons b l' => contradiction
  | cons a l ih =>
    cases l' with
    | nil => contradiction
    | cons b l' =>
      rw [List.map_cons, List.map_cons, List.cons.injEq] at h
      obtain ⟨hlength, hall⟩ := ih h.2 fun a ha b hb =>
        hR a (List.mem_cons_of_mem _ ha) b (List.mem_cons_of_mem _ hb)
      refine ⟨congrArg Nat.succ hlength, ?_⟩
      rw [List.zip_cons_cons, List.all_cons, hall,
        hR a List.mem_cons_self b List.mem_cons_self h.1]
      rfl

/-- Sums with the same numbers and labels are equal. -/
theorem Terms.equal_of_map_eq {κ : Type} [Ord κ] [Std.LawfulEqOrd κ] {label : κ → Label}
    {e f : Terms κ Float} (he : e.AllFinite) (hf : f.AllFinite)
    (hlabel : ∀ s ∈ e.toList, ∀ t ∈ f.toList, label s.1 = label t.1 → s.1 = t.1)
    (h : (e.toList.map fun t => (Binary64.value t.2, label t.1)) =
      f.toList.map fun t => (Binary64.value t.2, label t.1)) : e.equal f = true := by
  obtain ⟨hlength, hall⟩ := all_zip_of_map_eq (R := fun s t => compare s.1 t.1 == .eq && s.2 == t.2)
    h fun s hs t ht heq => by
      rw [Prod.mk.injEq] at heq
      rw [Bool.and_eq_true, beq_iff_eq, Std.LawfulEqOrd.compare_eq_iff_eq]
      exact ⟨hlabel s hs t ht heq.2, (Binary64.beq_iff_value_eq (he s hs) (hf t ht)).mpr heq.1⟩
  rw [Terms.equal, Terms.size, Terms.size, hlength, beq_self_eq_true, Bool.true_and]
  exact hall

namespace Problem

/-! ### Labels -/

section Labels

variable {α : Type} [Scalar α] {p : Problem α}

/-- The label of a term of degree one. -/
def multipleLabel (p : Problem α) (index : Nat) : Label := .multiple (p.labelAt index).toList

/-- The label of a term of degree two. -/
def productLabel (p : Problem α) (pair : Pair) : Label :=
  if pair.isSquare then .square (p.labelAt pair.low).toList
  else .product (p.labelAt pair.low).toList (p.labelAt pair.high).toList

/-- The terms of an expression in the order of its text. -/
def shownTerms (p : Problem α) (linear : Linear α) (quadratic : Quadratic α) : List (α × Label) :=
  quadratic.toList.map (fun t => (t.2, p.productLabel t.1)) ++
    linear.toList.map fun t => (t.2, p.multipleLabel t.1)

theorem ofList_multipleLabel (p : Problem α) (index : Nat) :
    String.ofList (p.multipleLabel index).text = p.labelAt index := by
  simp [multipleLabel, Label.text, Label.first, Label.suffix]

theorem ofList_productLabel (p : Problem α) (pair : Pair) :
    String.ofList (p.productLabel pair).text = p.pairLabel pair := by
  rw [← String.toList_inj, String.toList_ofList, productLabel, pairLabel]
  split <;> simp [Label.text, Label.first, Label.suffix]

theorem toList_expressionText [NumberText α] (p : Problem α) (constant : α) (linear : Linear α)
    (quadratic : Quadratic α) :
    (p.expressionText constant linear quadratic).toList =
      (Wording.ofTerms constant (p.shownTerms linear quadratic)).text := by
  rw [← toList_expression, expressionText, labelled, shownTerms, List.map_append, List.map_map,
    List.map_map]
  simp only [Function.comp_def, ofList_multipleLabel, ofList_productLabel]

theorem labelAt_of_variableAt? {i : Nat} {v : Variable} (h : p.variableAt? i = some v) :
    p.labelAt i = v.name := by
  rw [labelAt, h]

/-- Variables of a well-formed problem have different labels. -/
theorem WellFormed.labelAt_inj (hp : p.WellFormed) {i j : Nat} (hi : i < p.size) (hj : j < p.size)
    (h : (p.labelAt i).toList = (p.labelAt j).toList) : i = j := by
  obtain ⟨v, -, hv⟩ := exists_variableAt? hi
  obtain ⟨w, -, hw⟩ := exists_variableAt? hj
  rw [labelAt_of_variableAt? hv, labelAt_of_variableAt? hw, String.toList_inj] at h
  have hi' := hp.variableIndex?_eq_some_iff.mpr ⟨v, hv, rfl⟩
  have hj' := hp.variableIndex?_eq_some_iff.mpr ⟨w, hw, rfl⟩
  rw [h, hj', Option.some.injEq] at hi'
  exact hi'.symm

theorem WellFormed.multipleLabel_inj (hp : p.WellFormed) {i j : Nat} (hi : i < p.size)
    (hj : j < p.size) (h : p.multipleLabel i = p.multipleLabel j) : i = j :=
  hp.labelAt_inj hi hj (Label.multiple.inj h)

private theorem pair_eq {a b : Pair} (hlow : a.low = b.low) (hhigh : a.high = b.high) : a = b := by
  cases a
  cases b
  rw [Pair.mk.injEq]
  exact ⟨hlow, hhigh⟩

theorem WellFormed.productLabel_inj (hp : p.WellFormed) {a b : Pair} (ha : a.high < p.size)
    (hb : b.high < p.size) (h : p.productLabel a = p.productLabel b) : a = b := by
  have ha' := a.low_le_high.trans_lt ha
  have hb' := b.low_le_high.trans_lt hb
  rw [productLabel, productLabel] at h
  split at h <;> split at h
  · rename_i hsquare hsquare'
    have hlow := hp.labelAt_inj ha' hb' (Label.square.inj h)
    rw [Pair.isSquare, beq_iff_eq] at hsquare hsquare'
    exact pair_eq hlow (by rw [← hsquare, hlow, hsquare'])
  · contradiction
  · contradiction
  · obtain ⟨hlow, hhigh⟩ := Label.product.inj h
    exact pair_eq (hp.labelAt_inj ha' hb' hlow) (hp.labelAt_inj ha hb hhigh)

/-- Labels only depend on the variables. -/
theorem labelAt_congr {q : Problem α} (h : p.vars = q.vars) : p.labelAt = q.labelAt := by
  funext i
  rw [labelAt, labelAt, variableAt?, variableAt?, h]

theorem shownTerms_congr {q : Problem α} (h : p.vars = q.vars) (linear : Linear α)
    (quadratic : Quadratic α) : p.shownTerms linear quadratic = q.shownTerms linear quadratic := by
  have hmultiple : p.multipleLabel = q.multipleLabel := by
    funext i
    rw [multipleLabel, multipleLabel, labelAt_congr h]
  have hproduct : p.productLabel = q.productLabel := by
    funext pair
    rw [productLabel, productLabel, labelAt_congr h]
  rw [shownTerms, shownTerms, hmultiple, hproduct]

end Labels

/-! ### Expressions -/

variable {p q : Problem Float} {linear linear' : Linear Float}
  {quadratic quadratic' : Quadratic Float}

/-- What is required of an expression for its text to tell its terms. -/
structure LegibleTerms (p : Problem Float) (linear : Linear Float) (quadratic : Quadratic Float) :
    Prop where
  /-- The terms of degree one mention variables of the problem. -/
  linear_below : linear.Below p.size
  /-- The terms of degree two mention variables of the problem. -/
  quadratic_below : quadratic.Below p.size
  /-- Each term is legible. -/
  legible : ∀ t ∈ p.shownTerms linear quadratic, Legible t

theorem LegibleTerms.linear_allFinite (h : p.LegibleTerms linear quadratic) :
    linear.AllFinite := fun t ht => by
  have hmem : (t.2, p.multipleLabel t.1) ∈ p.shownTerms linear quadratic :=
    List.mem_append_right _ (List.mem_map.mpr ⟨t, ht, rfl⟩)
  exact (h.legible _ hmem).isFinite

theorem LegibleTerms.quadratic_allFinite (h : p.LegibleTerms linear quadratic) :
    quadratic.AllFinite := fun t ht => by
  have hmem : (t.2, p.productLabel t.1) ∈ p.shownTerms linear quadratic :=
    List.mem_append_left _ (List.mem_map.mpr ⟨t, ht, rfl⟩)
  exact (h.legible _ hmem).isFinite

theorem productLabel_ne_multiple (p : Problem Float) (pair : Pair) (name : List Char) :
    p.productLabel pair ≠ .multiple name := by
  rw [productLabel]
  split <;> simp

/-- **The numbers and labels of the terms** tell the terms, those of degree two being told from
those of degree one by their labels. -/
theorem LegibleTerms.equal_of_map_eq (hp : p.WellFormed) (h : p.LegibleTerms linear quadratic)
    (h' : p.LegibleTerms linear' quadratic')
    (heq : ((p.shownTerms linear quadratic).map fun t => (value t.1, t.2)) =
      (p.shownTerms linear' quadratic').map fun t => (value t.1, t.2)) :
    linear.equal linear' = true ∧ quadratic.equal quadratic' = true := by
  have hproducts : ∀ e : Quadratic Float, ∀ t ∈
      e.toList.map fun t => (value t.2, p.productLabel t.1), ∀ name, t.2 ≠ .multiple name := by
    intro e t ht name
    obtain ⟨s, -, rfl⟩ := List.mem_map.mp ht
    exact p.productLabel_ne_multiple s.1 name
  have hmultiples : ∀ e : Linear Float, ∀ t ∈
      (e.toList.map fun t => (value t.2, p.multipleLabel t.1)).head?,
      ¬∀ name, t.2 ≠ .multiple name := by
    intro e t ht hall
    obtain ⟨s, -, rfl⟩ := List.mem_map.mp (List.mem_of_mem_head? ht)
    exact hall _ rfl
  rw [shownTerms, shownTerms, List.map_append, List.map_append, List.map_map, List.map_map,
    List.map_map, List.map_map] at heq
  obtain ⟨hquadratic, hlinear⟩ := append_inj_of_class (hproducts quadratic) (hproducts quadratic')
    (hmultiples linear) (hmultiples linear') heq
  constructor
  · exact Terms.equal_of_map_eq h.linear_allFinite h'.linear_allFinite
      (fun s hs t ht => hp.multipleLabel_inj (h.linear_below s hs) (h'.linear_below t ht)) hlinear
  · exact Terms.equal_of_map_eq h.quadratic_allFinite h'.quadratic_allFinite
      (fun s hs t ht => hp.productLabel_inj (h.quadratic_below s hs) (h'.quadratic_below t ht))
      hquadratic

theorem LegibleTerms.congr (h : q.LegibleTerms linear quadratic) (hvars : p.vars = q.vars) :
    p.LegibleTerms linear quadratic where
  linear_below := by
    rw [size, hvars]
    exact h.linear_below
  quadratic_below := by
    rw [size, hvars]
    exact h.quadratic_below
  legible := by
    rw [shownTerms_congr hvars]
    exact h.legible

/-- **The text of an expression** tells its constant and its terms. -/
theorem LegibleTerms.text_append_inj (hp : p.WellFormed) (h : p.LegibleTerms linear quadratic)
    (h' : p.LegibleTerms linear' quadratic') {a b : Float} (ha : a.isFinite = true)
    (hb : b.isFinite = true) (ha' : value a = 0 ∨ Scalar.isNegligible a = false)
    (hb' : value b = 0 ∨ Scalar.isNegligible b = false) {r r' : List Char}
    (hr : EndsExpression r) (hr' : EndsExpression r')
    (htext : (Wording.ofTerms a (p.shownTerms linear quadratic)).text ++ r =
      (Wording.ofTerms b (p.shownTerms linear' quadratic')).text ++ r') :
    (value a = value b ∧ linear.equal linear' = true ∧ quadratic.equal quadratic' = true) ∧
      r = r' := by
  obtain ⟨hwords, hrest⟩ := Wording.text_append_inj (Wording.isProper_ofTerms ha h.legible)
    (Wording.isProper_ofTerms hb h'.legible) hr hr' htext
  obtain ⟨hvalue, hterms⟩ := Wording.ofTerms_inj ha hb ha' hb' h.legible h'.legible hwords
  exact ⟨⟨hvalue, LegibleTerms.equal_of_map_eq hp h h' hterms⟩, hrest⟩

/-! ### Lines of variables -/

/-- The text of the line of a variable. -/
theorem toList_variableLine (v : Variable) :
    (variableLine v).toList =
      match v.domain with
      | .binary => "  binary:     ".toList ++ v.name.toList
      | .integer lower upper =>
        "  integer:    ".toList ++ ((toString lower).toList ++ (" <= ".toList ++
          (v.name.toList ++ (" <= ".toList ++ (toString upper).toList)))) := by
  have hbinary : padRight 12 "binary:" = "binary:     " := by decide +kernel
  have hinteger : padRight 12 "integer:" = "integer:    " := by decide +kernel
  rw [variableLine]
  cases v.domain with
  | binary => simp [Domain.label, hbinary]
  | integer lower upper => simp [Domain.label, hinteger]

/-- **The line of a variable** tells its name and its domain. -/
theorem variableLine_inj {v w : Variable} (hv : isIdentifier v.name.toList = true)
    (hw : isIdentifier w.name.toList = true) (h : variableLine v = variableLine w) :
    v.name = w.name ∧ v.domain = w.domain := by
  have hlist := congrArg String.toList h
  rw [toList_variableLine, toList_variableLine] at hlist
  cases hdomain : v.domain with
  | binary =>
    cases hdomain' : w.domain with
    | binary =>
      rw [hdomain, hdomain'] at hlist
      exact ⟨String.toList_inj.mp (List.append_cancel_left hlist), rfl⟩
    | integer lower' upper' =>
      rw [hdomain, hdomain'] at hlist
      exact absurd hlist (by simp)
  | integer lower upper =>
    cases hdomain' : w.domain with
    | binary =>
      rw [hdomain, hdomain'] at hlist
      exact absurd hlist (by simp)
    | integer lower' upper' =>
      rw [hdomain, hdomain'] at hlist
      obtain ⟨hlower, hrest⟩ := append_inj_of_class (P := fun c => isNumeric c = true)
        (fun _ => isNumeric_of_mem_toString) (fun _ => isNumeric_of_mem_toString) (by simp; decide)
        (by simp; decide) (List.append_cancel_left hlist)
      obtain ⟨hname, hrest⟩ := name_append_inj hv hw (by simp; decide) (by simp; decide)
        (List.append_cancel_left hrest)
      have hupper := List.append_cancel_left hrest
      have hlower : lower = lower' := Int.repr_inj.mp (String.toList_inj.mp hlower)
      have hupper : upper = upper' := Int.repr_inj.mp (String.toList_inj.mp hupper)
      exact ⟨String.toList_inj.mp hname, by rw [hlower, hupper]⟩

theorem newline_notMem_variableLine {v : Variable} (h : isIdentifier v.name.toList = true) :
    '\n' ∉ (variableLine v).toList := by
  have hname := newline_notMem_of_isIdentifier h
  have hbound : ∀ n : Int, '\n' ∉ (toString n).toList := fun n =>
    newline_notMem_of_isNumeric fun _ => isNumeric_of_mem_toString
  rw [toList_variableLine]
  cases v.domain with
  | binary =>
    simp only [List.mem_append, not_or]
    exact ⟨by decide, hname⟩
  | integer lower upper =>
    simp only [List.mem_append, not_or]
    exact ⟨by decide, hbound lower, by decide, hname, by decide, hbound upper⟩

/-! ### Lines of constraints -/

/-- What is required of a constraint for its line to tell its parts. -/
structure LegibleConstraint (p : Problem Float) (c : Constraint Float) : Prop where
  /-- The name is an identifier. -/
  name : isIdentifier c.name.toList = true
  /-- The terms are legible. -/
  terms : p.LegibleTerms c.linear c.quadratic
  /-- The right-hand side is finite. -/
  rhs : c.rhs.isFinite = true

namespace LegibleConstraint

variable {c d : Constraint Float}

theorem toList_line (p : Problem Float) (c : Constraint Float) :
    (p.constraintLine c).toList =
      "  ".toList ++ (c.name.toList ++ (": ".toList ++
        ((Wording.ofTerms 0 (p.shownTerms c.linear c.quadratic)).text ++ (" ".toList ++
          (c.relation.symbol.toList ++ (" ".toList ++ (reportText c.rhs).toList)))))) := by
  simp only [constraintLine, String.toList_append, toList_expressionText, List.append_assoc]
  rfl

theorem congr (h : q.LegibleConstraint c) (hvars : p.vars = q.vars) : p.LegibleConstraint c :=
  ⟨h.name, h.terms.congr hvars, h.rhs⟩

theorem line_congr (h : p.vars = q.vars) (c : Constraint Float) :
    p.constraintLine c = q.constraintLine c := by
  rw [← String.toList_inj, toList_line, toList_line, shownTerms_congr h]

/-- **The line of a constraint** tells its name, its terms, its relation and its right-hand
side. -/
theorem line_inj (hp : p.WellFormed) (hc : p.LegibleConstraint c) (hd : p.LegibleConstraint d)
    (h : p.constraintLine c = p.constraintLine d) : c.equal d = true := by
  have hzero : value (0 : Float) = 0 ∨ Scalar.isNegligible (0 : Float) = false :=
    Or.inl Binary64.value_zero
  have hlist := congrArg String.toList h
  rw [toList_line, toList_line] at hlist
  obtain ⟨hname, hlist⟩ := name_append_inj hc.name hd.name (by simp; decide) (by simp; decide)
    (List.append_cancel_left hlist)
  obtain ⟨⟨-, hlinear, hquadratic⟩, hlist⟩ := LegibleTerms.text_append_inj hp hc.terms hd.terms
    Binary64.isFinite_zero Binary64.isFinite_zero hzero hzero (Relation.endsExpression_symbol _ _)
    (Relation.endsExpression_symbol _ _) (List.append_cancel_left hlist)
  obtain ⟨hrelation, hlist⟩ := Relation.symbol_append_inj (List.append_cancel_left hlist)
  have hrhs : (c.rhs == d.rhs) = true := Binary64.beq_of_reportText_eq hc.rhs hd.rhs
    (String.toList_inj.mp (List.append_cancel_left hlist))
  rw [Constraint.equal, String.toList_inj.mp hname, hlinear, hquadratic, hrelation, hrhs]
  simp

theorem newline_notMem (h : p.LegibleConstraint c) : '\n' ∉ (p.constraintLine c).toList := by
  have hname := newline_notMem_of_isIdentifier h.name
  have hterms := Wording.newline_notMem
    (Wording.isProper_ofTerms Binary64.isFinite_zero h.terms.legible)
  have hrhs := newline_notMem_of_isNumeric fun _ => isNumeric_of_mem_reportText h.rhs
  rw [toList_line]
  simp only [List.mem_append, not_or]
  exact ⟨by decide, hname, by decide, hterms, by decide, c.relation.newline_notMem_symbol,
    by decide, hrhs⟩

/-- The line for no constraints is none of a constraint, since a name is followed by a colon. -/
theorem line_ne (h : p.LegibleConstraint c) : p.constraintLine c ≠ "  No constraints" := by
  intro hline
  have hlist : _ = "  ".toList ++ ("No".toList ++ " constraints".toList) :=
    congrArg String.toList hline
  rw [toList_line] at hlist
  obtain ⟨-, hrest⟩ := name_append_inj h.name (by decide) (by simp; decide) (by simp; decide)
    (List.append_cancel_left hlist)
  simp at hrest

end LegibleConstraint

end Problem

end QuboReduction

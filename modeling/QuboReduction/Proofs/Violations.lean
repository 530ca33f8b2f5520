import Mathlib.Data.List.Nodup
import QuboReduction.Proofs.Assignment
import QuboReduction.Proofs.ExtendedOrder
import QuboReduction.Proofs.Reachable
import QuboReduction.Violation

/-!
# Reports of violations

What is wrong with a vector is found in two passes, one over the variables and one over the
constraints, and is then sorted by amounts. The sort is stable: findings of the same amount stay in
the order in which they were found. In doubles the comparison of amounts is not an order, since an
amount may be the value that is not a number; it is one as soon as the amounts that were found are
numbers, and then the report is in order.

## Main definitions

* `QuboReduction.Compares` — a comparison that is an order among some elements.
* `QuboReduction.Problem.findings` — what is wrong, in the order in which it is found.

## Main results

* `QuboReduction.Compares.pairwise_mergeSort`, `QuboReduction.Compares.filter_mergeSort` — a stable
  sort of elements among which the comparison is an order.
* `QuboReduction.Problem.WellFormed.violations_eq`, `QuboReduction.Problem.WellFormed.perm_findings`
  — the report is made of the findings.
* `QuboReduction.Problem.violations_worst_first` — the order of a report.
-/

namespace QuboReduction

/-! ### Sorting by a comparison that is not always an order -/

/-- A comparison that is transitive and total among the elements with a property. -/
structure Compares {β : Type} (le : β → β → Bool) (S : β → Prop) : Prop where
  /-- What is before an element is before all that the element is before. -/
  trans : ∀ a b c, S a → S b → S c → le a b = true → le b c = true → le a c = true
  /-- Of two elements one is before the other. -/
  total : ∀ a b, S a → S b → (le a b || le b a) = true

namespace Compares

variable {β : Type} {le : β → β → Bool} {S : β → Prop} {l : List β}

/-- A list of elements with a property is sorted as a list over the type of these elements. -/
private theorem mergeSort_eq_map (hl : ∀ b ∈ l, S b) :
    l.mergeSort le =
      ((l.attachWith S hl).mergeSort fun a b => le a.1 b.1).map Subtype.val := by
  rw [List.map_mergeSort (s := le) fun _ _ _ _ => rfl, List.attachWith_map_subtype_val]

/-- The sorted list is in order. -/
theorem pairwise_mergeSort (h : Compares le S) (hl : ∀ b ∈ l, S b) :
    (l.mergeSort le).Pairwise fun a b => le a b = true := by
  rw [mergeSort_eq_map hl, List.pairwise_map]
  exact List.pairwise_mergeSort (fun a b c : Subtype S => h.trans a b c a.2 b.2 c.2)
    (fun a b : Subtype S => h.total a b a.2 b.2) _

/-- Elements that are before one another in both directions stay in their order. -/
theorem filter_mergeSort (h : Compares le S) (hl : ∀ b ∈ l, S b) {P : β → Bool}
    (htied : ∀ a b, S a → S b → P a = true → P b = true → le a b = true) :
    (l.mergeSort le).filter P = l.filter P := by
  have hsublist : (l.filter P).Sublist (l.mergeSort le) := by
    have hselected : l.filter P =
        ((l.attachWith S hl).filter (P ∘ Subtype.val)).map Subtype.val := by
      rw [← List.filter_map, List.attachWith_map_subtype_val]
    rw [hselected, mergeSort_eq_map hl]
    refine (List.sublist_mergeSort (fun a b c : Subtype S => h.trans a b c a.2 b.2 c.2)
      (fun a b : Subtype S => h.total a b a.2 b.2) ?_ List.filter_sublist).map _
    exact List.pairwise_of_forall_mem_list fun a ha b hb =>
      htied a b a.2 b.2 (List.mem_filter.mp ha).2 (List.mem_filter.mp hb).2
  have hfiltered : (l.filter P).Sublist ((l.mergeSort le).filter P) := by
    simpa using hsublist.filter P
  exact (hfiltered.eq_of_length ((List.mergeSort_perm l le).filter P).length_eq.symm).symm

end Compares

/-! ### What is found -/

namespace Problem

section Scalars

variable {α : Type} [Scalar α] {p : Problem α} {values : List α} {tolerance : α}

/-- What is wrong with a vector, in the order in which it is found: first the values that are not
admissible, in the order of the variables, and then the constraints that are violated by more than
the tolerance, in their order. -/
def findings (p : Problem α) (values : List α) (tolerance : α) : List (Violation α) :=
  ((p.vars.zip values).filter fun q => !q.1.domain.contains q.2 tolerance).map
      (fun q => .ofVariable q.1 q.2) ++
    (p.constraints.filter fun c => tolerance < c.violation (valueAt values)).map
      fun c => .ofConstraint c (valueAt values)

/-- A variable has the value that stands at its place. -/
theorem WellFormed.zip_values (hp : p.WellFormed) (hlength : values.length = p.size) :
    p.vars.zip values = p.vars.map fun v => (v, valueAt values v.index) := by
  refine List.ext_getElem (by simp [hlength, size]) fun i hi hi' => ?_
  have hvars : i < p.vars.length := by simpa using hi'
  have hindex : p.vars[i].index = i := hp.index_eq i _ (List.getElem?_eq_getElem hvars)
  have hvalues : i < values.length := by rwa [hlength]
  simp [hindex, valueAt_of_lt hvalues]

theorem WellFormed.domainViolations_eq (hp : p.WellFormed) (hlength : values.length = p.size) :
    p.domainViolations (valueAt values) tolerance =
      ((p.vars.zip values).filter fun q => !q.1.domain.contains q.2 tolerance).map
        fun q => .ofVariable q.1 q.2 := by
  rw [hp.zip_values hlength, domainViolations]
  induction p.vars with
  | nil => rfl
  | cons v vars ih =>
    rw [List.filterMap_cons, List.map_cons, List.filter_cons, ih]
    cases v.domain.contains (valueAt values v.index) tolerance <;> rfl

theorem constraintViolations_eq {x : Nat → α} :
    p.constraintViolations x tolerance =
      (p.constraints.filter fun c => tolerance < c.violation x).map fun c =>
        .ofConstraint c x := by
  rw [constraintViolations]
  induction p.constraints with
  | nil => rfl
  | cons c constraints ih =>
    rw [List.filterMap_cons, List.filter_cons, ih]
    by_cases h : tolerance < c.violation x <;> simp [h]

/-- The report has the findings, sorted by their amounts. -/
theorem WellFormed.violations_eq (hp : p.WellFormed) (hlength : values.length = p.size) :
    p.violations values tolerance = .ok ((p.findings values tolerance).mergeSort
      fun v w => !decide (v.amount < w.amount)) := by
  rw [violations, checkLength, if_pos hlength, ok_bind, findings,
    ← hp.domainViolations_eq hlength, ← constraintViolations_eq]
  rfl

/-- Nothing that is found gets lost in the report, and nothing is added. -/
theorem WellFormed.perm_findings (hp : p.WellFormed) (hlength : values.length = p.size)
    {report : List (Violation α)} (h : p.violations values tolerance = .ok report) :
    report.Perm (p.findings values tolerance) := by
  rw [hp.violations_eq hlength, Except.ok.injEq] at h
  exact h ▸ List.mergeSort_perm _ _

/-- No finding is there twice: names are distinct among variables and among constraints, and what
is required of a variable is not required of a constraint. -/
theorem WellFormed.findings_nodup (hp : p.WellFormed) (hlength : values.length = p.size) :
    (p.findings values tolerance).Nodup := by
  refine List.nodup_append.mpr ⟨.of_map Violation.name ?_, .of_map Violation.name ?_, ?_⟩
  · refine hp.variableNames_nodup.sublist ?_
    have hnames : p.variableNames = (p.vars.zip values).map fun q => q.1.name := by
      rw [hp.zip_values hlength, List.map_map]
      rfl
    rw [hnames, List.map_map]
    exact List.filter_sublist.map _
  · rw [List.map_map]
    exact hp.constraintNames_nodup.sublist (List.filter_sublist.map _)
  · intro v hv w hw heq
    obtain ⟨q, -, rfl⟩ := List.mem_map.mp hv
    obtain ⟨c, -, rfl⟩ := List.mem_map.mp hw
    have hrequirement := congrArg Violation.requirement heq
    contradiction

end Scalars

/-! ### Reports in doubles -/

/-- The comparison by amounts is an order among findings whose amounts are numbers. -/
theorem compares_amounts : Compares (fun v w : Violation Float => !decide (v.amount < w.amount))
    fun v => v.amount.isNaN = false where
  trans u v w hu hv hw := by
    simp only [Bool.not_eq_true', decide_eq_false_iff_not, Binary64.lt_iff_extended_lt hu hv,
      Binary64.lt_iff_extended_lt hv hw, Binary64.lt_iff_extended_lt hu hw, not_lt]
    exact fun hvu hwv => hwv.trans hvu
  total v w hv hw := by
    simp only [Bool.or_eq_true, Bool.not_eq_true', decide_eq_false_iff_not,
      Binary64.lt_iff_extended_lt hv hw, Binary64.lt_iff_extended_lt hw hv, not_lt]
    exact (le_total _ _).symm

/-- Of two numbers that are equal to a third one neither is below the other. -/
private theorem not_lt_of_beq {x y z : Float} (hx : x.isNaN = false) (hy : y.isNaN = false)
    (hxz : (x == z) = true) (hyz : (y == z) = true) : ¬x < y := by
  have hz : z.isNaN = false := (Binary64.isNaN_of_beq hxz).2
  rw [Binary64.lt_iff_extended_lt hx hy, (Binary64.beq_iff_extended_eq hx hz).mp hxz,
    (Binary64.beq_iff_extended_eq hy hz).mp hyz]
  exact lt_irrefl _

/-- **Reports are worst first.** A vector of the wrong length is refused. Otherwise, if all amounts
that are found are numbers, the report has each finding once and nothing else, no amount is below a
later one, and findings of the same amount are in the order in which they were found. -/
theorem violations_worst_first {p : Problem Float} (hp : p.Reachable) (values : List Float)
    (tolerance : Float) :
    (values.length ≠ p.size →
      p.violations values tolerance = .error (.dimensionMismatch p.size values.length)) ∧
    (values.length = p.size →
      (∀ w ∈ p.findings values tolerance, w.amount.isNaN = false) →
      ∃ report, p.violations values tolerance = .ok report ∧
        report.Perm (p.findings values tolerance) ∧ report.Nodup ∧
        (report.Pairwise fun v w => w.amount ≤ v.amount) ∧
        ∀ amount, (report.filter fun w => w.amount == amount) =
          (p.findings values tolerance).filter fun w => w.amount == amount) := by
  refine ⟨fun hlength => ?_, fun hlength hnumbers => ?_⟩
  · rw [violations, checkLength, if_neg hlength, error_bind]
  · have hreport : p.violations values tolerance = .ok _ := hp.wellFormed.violations_eq hlength
    have hperm := hp.wellFormed.perm_findings hlength hreport
    refine ⟨_, hreport, hperm,
      hperm.nodup_iff.mpr (hp.wellFormed.findings_nodup hlength), ?_, fun amount => ?_⟩
    · refine (compares_amounts.pairwise_mergeSort hnumbers).imp_of_mem fun hv hw hle => ?_
      have hv := hnumbers _ (hperm.mem_iff.mp hv)
      have hw := hnumbers _ (hperm.mem_iff.mp hw)
      rw [Bool.not_eq_true', decide_eq_false_iff_not, Binary64.lt_iff_extended_lt hv hw,
        not_lt] at hle
      exact (Binary64.le_iff_extended_le hw hv).mpr hle
    · refine compares_amounts.filter_mergeSort hnumbers fun v w hv hw hvamount hwamount => ?_
      simpa using not_lt_of_beq hv hw hvamount hwamount

end Problem

/-- Two binary variables, an integer up to three, and two constraints. -/
def ranking : Problem Float where
  name := "ranking"
  vars := [⟨"x", .binary, 0⟩, ⟨"n", .integer 0 3, 1⟩, ⟨"y", .binary, 2⟩]
  objective := Objective.zero
  constraints := [.ofLinear "cap" (Terms.ofList [(0, 1), (1, 1)]) .le 6,
    .ofLinear "gap" (Terms.ofList [(0, 1), (2, -1)]) .eq 0.5]

/-- At `[3, 6, 0.5]` everything is wrong, twice by the same amount: the integer as much as the bound
on the sum, and less than these the first variable as much as the difference. -/
theorem ranking_worst_first :
    ranking.violations [1] 1e-9 = .error (.dimensionMismatch 3 1) ∧
      ∃ report, ranking.violations [3, 6, 0.5] 1e-9 = .ok report ∧ report.length = 5 ∧
        (report.Pairwise fun v w => w.amount ≤ v.amount) ∧
        (report.filter fun w => w.amount == 3).map Violation.name = ["n", "cap"] ∧
        (report.filter fun w => w.amount == 2).map Violation.name = ["x", "gap"] := by
  have hbuilt : ranking.Built := Problem.built_iff_assemble_eq.mpr rfl
  have hreachable := Problem.reachable_iff_built.mpr hbuilt
  obtain ⟨hrefused, -⟩ := Problem.violations_worst_first hreachable [1] 1e-9
  obtain ⟨-, hsorted⟩ := Problem.violations_worst_first hreachable [3, 6, 0.5] 1e-9
  obtain ⟨report, hreport, hperm, -, hworst, hstable⟩ := hsorted rfl (by decide +kernel)
  refine ⟨hrefused (by decide), report, hreport, ?_, hworst, ?_, ?_⟩
  · rw [hperm.length_eq]
    decide +kernel
  · rw [hstable]
    decide +kernel
  · rw [hstable]
    decide +kernel

end QuboReduction

import Mathlib.Tactic.LinearCombination
import QuboReduction.Proofs.Gap
import QuboReduction.Proofs.Growth
import QuboReduction.Proofs.Record

/-!
# Inequalities become equalities

The stage that introduces slack variables goes through the constraints one after another. At each
point the problem under construction has the variables of the source followed by slack variables,
and a vector of the source satisfies the constraints done so far exactly when slack values can be
found for it.

## Main definitions

* `QuboReduction.Constraint.withSlack` — the equality with its slack variable.
* `QuboReduction.Constraint.Integral` — constraints that are missed by integers only.
* `QuboReduction.Problem.Tightened` — what holds after each constraint.

## Main results

* `QuboReduction.Problem.Tightened.step` — one more constraint.
* `QuboReduction.Problem.addSlacks_ok` — what the stage leaves.
* `QuboReduction.Problem.addSlacks_error` — why the stage is refused.
-/

namespace QuboReduction

/-! ### Equalities with slack variables -/

namespace Constraint

variable {c : Constraint Rat} {x : Nat → Rat} {slack : Slack Rat} {n index : Nat}

/-- The equality that an inequality becomes, with its slack variable. -/
def withSlack (c : Constraint Rat) (slack : Slack Rat) (index : Nat) : Constraint Rat :=
  { c.tightened slack with linear := (c.tightened slack).linear.addTerm index slack.sign }

/-- The sides of a constraint differ by an integer whenever all variables are integers. -/
def Integral (c : Constraint Rat) : Prop :=
  ∀ x : Nat → Rat, (∀ i, IsInteger (x i)) → IsInteger (c.evaluate x - c.rhs)

theorem Below.tightened (h : c.Below n) : (c.tightened slack).Below n := ⟨h.1.scale _, h.2.scale _⟩

theorem Below.withSlack (h : c.Below n) : (c.withSlack slack n).Below (n + 1) :=
  ⟨(h.tightened.1.mono (Nat.le_succ n)).addTerm (Nat.lt_succ_self n) _,
    h.tightened.2.mono (Nat.le_succ n)⟩

theorem isLinear_tightened (h : c.isLinear = true) : (c.tightened slack).isLinear = true := by
  simp [isLinear, tightened, Terms.isEmpty, Terms.scale, toList_quadratic h]

theorem isLinear_withSlack (h : c.isLinear = true) : (c.withSlack slack index).isLinear = true :=
  isLinear_tightened h

theorem evaluate_tightened (upper : Int) :
    (c.tightened (c.slackOf upper)).evaluate x = c.evaluate x / c.divisor := by
  simp only [evaluate_eq, tightened, slackOf, Terms.value_scale]
  ring

theorem evaluate_withSlack (upper : Int) :
    (c.withSlack (c.slackOf upper) index).evaluate x =
      c.evaluate x / c.divisor + c.slackSign * x index := by
  rw [← evaluate_tightened upper]
  simp only [evaluate_eq, withSlack, Terms.value_addTerm]
  simp only [slackOf]
  ring

variable {upper : Int}

/-- Without a slack variable the equality says that the gap is zero. -/
theorem holds_tightened_iff : (c.tightened (c.slackOf upper)).Holds x ↔ c.gap x = 0 := by
  have hsign := c.slackSign_mul_slackSign
  have hiff : c.evaluate x / c.divisor = c.roundedRhs ↔ c.gap x = 0 := by
    have hne : c.slackSign ≠ 0 := fun h => by simp [h] at hsign
    rw [gap, mul_eq_zero, or_iff_right hne, sub_eq_zero, eq_comm]
  rw [← hiff, ← evaluate_tightened upper]
  rfl

/-- With a slack variable the equality says that the slack variable is the gap. -/
theorem holds_withSlack_iff :
    (c.withSlack (c.slackOf upper) index).Holds x ↔ x index = c.gap x := by
  have hsign := c.slackSign_mul_slackSign
  have hiff : c.evaluate x / c.divisor + c.slackSign * x index = c.roundedRhs ↔
      x index = c.gap x := by
    rw [gap]
    constructor
    · intro h
      linear_combination c.slackSign * h - x index * hsign
    · intro h
      linear_combination c.slackSign * h + (c.roundedRhs - c.evaluate x / c.divisor) * hsign
  rw [← hiff, ← evaluate_withSlack upper]
  rfl

theorem integral_tightened (hc : c.IsRegular) : (c.tightened (c.slackOf upper)).Integral := by
  intro x hx
  rw [evaluate_tightened]
  exact (hc.isInteger_evaluate_div hx).sub c.isInteger_roundedRhs

theorem integral_withSlack (hc : c.IsRegular) :
    (c.withSlack (c.slackOf upper) index).Integral := by
  intro x hx
  rw [evaluate_withSlack]
  exact ((hc.isInteger_evaluate_div hx).add (c.isInteger_slackSign.mul (hx index))).sub
    c.isInteger_roundedRhs

theorem gap_append {s u : List Rat} (h : c.Below s.length) :
    c.gap (valueAt (s ++ u)) = c.gap (valueAt s) := by
  rw [gap, gap, evaluate_congr h fun _ hi => valueAt_append_left hi]

end Constraint

/-! ### One more constraint -/

namespace Problem

variable {p q q' : Problem Rat} {c : Constraint Rat} {done : List (Constraint Rat)}
  {slacks : List Nat} {s t : List Rat}

/-- What holds of the problem under construction after the constraints `done` of a problem. -/
structure Tightened (p : Problem Rat) (done : List (Constraint Rat)) (q : Problem Rat) : Prop where
  /-- The problem is well-formed. -/
  wellFormed : q.WellFormed
  /-- The objective stays. -/
  objective_eq : q.objective = p.objective
  /-- The variables stay, and integer variables named for some of the constraints follow. -/
  vars_eq : ∃ extra, q.vars = p.vars ++ extra ∧
    (extra.map Variable.name).Sublist (done.map slackName) ∧ ∀ v ∈ extra, v.isBinary = false
  /-- Some of the constraints remain. -/
  names_sublist : (q.constraints.map Constraint.name).Sublist (done.map Constraint.name)
  /-- They are equalities. -/
  relation_eq : ∀ c ∈ q.constraints, c.relation = .eq
  /-- Each of them comes from a constraint of its name, and is linear if this one is. -/
  origin : ∀ e ∈ q.constraints,
    ∃ c ∈ done, e.name = c.name ∧ (c.isLinear = true → e.isLinear = true)
  /-- Their sides differ by integers if those of the equalities of the source do. -/
  integral : (∀ c ∈ done, c.relation = .eq → c.Integral) → ∀ c ∈ q.constraints, c.Integral
  /-- Satisfying them is enough for satisfying the constraints of the source. -/
  sound : ∀ t, q.Feasible t → ∀ c ∈ done, c.Holds (valueAt t)
  /-- Slack values can be found where the constraints of the source are satisfied. -/
  complete : ∀ s, p.Admissible s → (∀ c ∈ done, c.Holds (valueAt s)) → ∃ u, q.Feasible (s ++ u)

theorem Tightened.size_le (h : p.Tightened done q) : p.size ≤ q.size := by
  obtain ⟨extra, hvars, -⟩ := h.vars_eq
  simp [size, hvars]

theorem Tightened.admissible_take (h : p.Tightened done q) (ht : q.Admissible t) :
    p.Admissible (t.take p.size) := by
  obtain ⟨extra, hvars, -⟩ := h.vars_eq
  exact ht.take hvars

/-- Variables `news` and equalities `es` take care of one more constraint if they say what it
says. -/
private theorem Tightened.extend (h : p.Tightened done q) (hp : p.WellFormed)
    (hdone : ∀ d ∈ done, d ∈ p.constraints) (news : List Variable) (es : List (Constraint Rat))
    (hwellFormed : q'.WellFormed) (hobjective : q'.objective = q.objective)
    (hvars : q'.vars = q.vars ++ news) (hconstraints : q'.constraints = q.constraints ++ es)
    (hnews : (news.map Variable.name).Sublist [slackName c])
    (hinteger : ∀ v ∈ news, v.isBinary = false)
    (hnames : (es.map Constraint.name).Sublist [c.name])
    (hequality : ∀ e ∈ es, e.relation = .eq)
    (hlinear : ∀ e ∈ es, c.isLinear = true → e.isLinear = true)
    (hintegral : (c.relation = .eq → c.Integral) → ∀ e ∈ es, e.Integral)
    (hsound : ∀ t, q'.Feasible t → c.Holds (valueAt t))
    (hcomplete : ∀ s u, p.Admissible s → c.Holds (valueAt s) → q.Feasible (s ++ u) →
      ∃ w, q'.Feasible (s ++ u ++ w)) :
    p.Tightened (done ++ [c]) q' where
  wellFormed := hwellFormed
  objective_eq := hobjective.trans h.objective_eq
  vars_eq := by
    obtain ⟨extra, hextra, hsublist, hbinary⟩ := h.vars_eq
    refine ⟨extra ++ news, by rw [hvars, hextra, List.append_assoc], ?_,
      List.forall_mem_append.mpr ⟨hbinary, hinteger⟩⟩
    simpa using hsublist.append hnews
  names_sublist := by
    rw [hconstraints]
    simpa using h.names_sublist.append hnames
  relation_eq := by
    rw [hconstraints]
    exact List.forall_mem_append.mpr ⟨h.relation_eq, hequality⟩
  origin := by
    rw [hconstraints]
    refine List.forall_mem_append.mpr ⟨fun e he => ?_, fun e he => ⟨c, by simp, ?_, hlinear e he⟩⟩
    · obtain ⟨d, hd, hname⟩ := h.origin e he
      exact ⟨d, List.mem_append_left _ hd, hname⟩
    · simpa using hnames.subset (List.mem_map.mpr ⟨e, he, rfl⟩)
  integral hint := by
    rw [hconstraints]
    obtain ⟨hbefore, hlast⟩ := List.forall_mem_append.mp hint
    exact List.forall_mem_append.mpr ⟨h.integral hbefore, hintegral (hlast c (by simp))⟩
  sound t ht := by
    refine List.forall_mem_append.mpr ⟨fun d hd => ?_, by simpa using hsound t ht⟩
    have hbelow : d.Below q.size := (hp.constraint_below d (hdone d hd)).mono h.size_le
    rw [← Constraint.holds_take_iff hbelow]
    exact h.sound _ (ht.take h.wellFormed hvars hconstraints) d hd
  complete s hs hholds := by
    obtain ⟨hbefore, hlast⟩ := List.forall_mem_append.mp hholds
    obtain ⟨u, hu⟩ := h.complete s hs hbefore
    obtain ⟨w, hw⟩ := hcomplete s u hs (hlast c (by simp)) hu
    exact ⟨u ++ w, by rwa [← List.append_assoc]⟩

/-- An equality remains as it is. -/
private theorem Tightened.step_equality (h : p.Tightened done q) (hp : p.WellFormed)
    (hdone : ∀ d ∈ done, d ∈ p.constraints) (hc : c ∈ p.constraints) (hrelation : c.relation = .eq)
    (hq : q.addConstraint c = .ok q') : p.Tightened (done ++ [c]) q' := by
  have hfeasible := fun t => feasible_addConstraint_iff (t := t) hq
  have hwellFormed := h.wellFormed.of_addConstraint hq
  obtain ⟨-, -, rfl⟩ := (addConstraint_named_eq_ok_iff (hp.constraint_named c hc)).mp hq
  refine h.extend hp hdone [] [c] hwellFormed rfl (by simp) rfl (by simp)
    (by simp) (by simp) (by simpa using hrelation) (by simp) (by simpa using fun h => h hrelation)
    (fun t ht => ((hfeasible t).mp ht).2) fun s u hs hholds hu => ⟨[], ?_⟩
  have hbelow := (hp.constraint_below c hc).mono hs.length_eq.ge
  rw [List.append_nil, hfeasible, Constraint.holds_append_iff hbelow]
  exact ⟨hu, hholds⟩

/-- An inequality that no admissible vector violates is dropped. -/
private theorem Tightened.step_dropped (h : p.Tightened done q) (hp : p.WellFormed)
    (hdone : ∀ d ∈ done, d ∈ p.constraints) (hc : c ∈ p.constraints) (hrelation : c.relation ≠ .eq)
    (hslack : p.slackFor c = .ok none) : p.Tightened (done ++ [c]) q := by
  obtain ⟨hregular, hleast⟩ := slackFor_none hslack
  refine h.extend hp hdone [] [] h.wellFormed rfl (by simp) (by simp) (by simp)
    (by simp) (by simp) (by simp) (by simp) (by simp) (fun t ht => ?_)
    fun s u hs hholds hu => ⟨[], by simpa using hu⟩
  have htake := h.admissible_take ht.1
  rw [← Constraint.holds_take_iff (hp.constraint_below c hc),
    Constraint.holds_iff_gap_nonneg hrelation hregular htake.isInteger]
  exact hleast.trans (leastGap_le_gap htake c)

/-- An inequality whose gap can only be zero becomes an equality. -/
private theorem Tightened.step_tightened (h : p.Tightened done q) (hp : p.WellFormed)
    (hdone : ∀ d ∈ done, d ∈ p.constraints) (hc : c ∈ p.constraints) (hrelation : c.relation ≠ .eq)
    (hregular : c.IsRegular) {upper : Int} (hrange : p.slackRange c ≤ 0)
    (hq : q.addConstraint (c.tightened (c.slackOf upper)) = .ok q') :
    p.Tightened (done ++ [c]) q' := by
  have hfeasible := fun t => feasible_addConstraint_iff (t := t) hq
  have hwellFormed := h.wellFormed.of_addConstraint hq
  have hnamed : (c.tightened (c.slackOf upper)).name ≠ "" := hp.constraint_named c hc
  obtain ⟨-, -, rfl⟩ := (addConstraint_named_eq_ok_iff hnamed).mp hq
  refine h.extend hp hdone [] [c.tightened (c.slackOf upper)] hwellFormed rfl
    (by simp) rfl (by simp) (by simp) (by simp [Constraint.tightened])
    (by simp [Constraint.tightened]) (by simpa using Constraint.isLinear_tightened)
    (by simpa using fun _ => Constraint.integral_tightened hregular) (fun t ht => ?_)
    fun s u hs hholds hu => ⟨[], ?_⟩
  · obtain ⟨ht, hgap⟩ := (hfeasible t).mp ht
    rw [Constraint.holds_tightened_iff] at hgap
    rw [Constraint.holds_iff_gap_nonneg hrelation hregular ht.1.isInteger, hgap]
  · have hbelow := (hp.constraint_below c hc).mono hs.length_eq.ge
    have hnonneg := (Constraint.holds_iff_gap_nonneg hrelation hregular hs.isInteger).mp hholds
    rw [List.append_nil, hfeasible, Constraint.holds_tightened_iff, Constraint.gap_append hbelow]
    exact ⟨hu, le_antisymm ((gap_le_slackRange hs c).trans hrange) hnonneg⟩

/-- Any other inequality becomes an equality with a slack variable. -/
private theorem Tightened.step_withSlack (h : p.Tightened done q) (hp : p.WellFormed)
    (hdone : ∀ d ∈ done, d ∈ p.constraints) (hc : c ∈ p.constraints) (hrelation : c.relation ≠ .eq)
    (hregular : c.IsRegular) {upper : Int} (hrange : (upper : Rat) = p.slackRange c)
    {q₁ : Problem Rat} {index : Nat}
    (hvariable : q.addVariable (slackName c) (.integer 0 upper) = .ok (q₁, index))
    (hq : q₁.addConstraint (c.withSlack (c.slackOf upper) index) = .ok q') :
    p.Tightened (done ++ [c]) q' := by
  have hfeasible := fun t => feasible_addConstraint_iff (t := t) hq
  have hwellFormed := (h.wellFormed.of_addVariable hvariable).of_addConstraint hq
  have hnamed : (c.withSlack (c.slackOf upper) index).name ≠ "" := hp.constraint_named c hc
  obtain ⟨-, -, rfl⟩ := (addConstraint_named_eq_ok_iff hnamed).mp hq
  obtain ⟨-, -, rfl, rfl⟩ := addVariable_eq_ok_iff.mp hvariable
  refine h.extend hp hdone [⟨slackName c, .integer 0 upper, q.size⟩]
    [c.withSlack (c.slackOf upper) q.size] hwellFormed rfl rfl rfl (by simp)
    (by simp [Variable.isBinary, Domain.isBinary])
    (by simp [Constraint.withSlack, Constraint.tightened])
    (by simp [Constraint.withSlack, Constraint.tightened])
    (by simpa using Constraint.isLinear_withSlack)
    (by simpa using fun _ => Constraint.integral_withSlack hregular) (fun t ht => ?_)
    fun s u hs hholds hu => ⟨[c.gap (valueAt s)], ?_⟩
  · obtain ⟨ht, hgap⟩ := (hfeasible t).mp ht
    obtain ⟨r, a, rfl, hr, ha⟩ := (feasible_declare_iff h.wellFormed).mp ht
    have hindex : valueAt (r ++ [a]) q.size = a := by
      rw [← hr.1.length_eq, valueAt_append_right le_rfl]
      simp [valueAt]
    rw [Constraint.holds_withSlack_iff, hindex] at hgap
    rw [Constraint.holds_iff_gap_nonneg hrelation hregular ht.1.isInteger, ← hgap]
    simpa [Domain.lower] using ha.lower_le
  · have hbelow := (hp.constraint_below c hc).mono hs.length_eq.ge
    have hnonneg := (Constraint.holds_iff_gap_nonneg hrelation hregular hs.isInteger).mp hholds
    have hrange := hrange ▸ gap_le_slackRange hs c
    obtain ⟨n, hn⟩ := hregular.isInteger_gap hs.isInteger
    have hindex : valueAt (s ++ u ++ [c.gap (valueAt s)]) q.size = c.gap (valueAt s) := by
      rw [← hu.1.length_eq, valueAt_append_right le_rfl]
      simp [valueAt]
    rw [hfeasible, Constraint.holds_withSlack_iff, hindex, List.append_assoc,
      Constraint.gap_append hbelow, ← List.append_assoc]
    refine ⟨(feasible_declare_iff h.wellFormed).mpr ⟨s ++ u, _, rfl, hu, n, hn, ?_, ?_⟩, rfl⟩
    · rw [hn] at hnonneg
      exact_mod_cast hnonneg
    · rw [hn] at hrange
      exact_mod_cast hrange

/-- **One more constraint.** A step of the stage takes care of the constraint that it is about. -/
theorem Tightened.step (h : p.Tightened done q) (hp : p.WellFormed)
    (hdone : ∀ d ∈ done, d ∈ p.constraints) (hc : c ∈ p.constraints) {slacks' : List Nat}
    (hstep : p.addTightened (q, slacks) c = .ok (q', slacks')) : p.Tightened (done ++ [c]) q' := by
  rcases addTightened_ok hstep with ⟨hrelation, hq, -⟩ | ⟨hrelation, hslack, rfl, -⟩ |
    ⟨hrelation, slack, hslack, hcase⟩
  · exact h.step_equality hp hdone hc hrelation hq
  · exact h.step_dropped hp hdone hc hrelation hslack
  · obtain ⟨hregular, upper, hrange, -, rfl⟩ := slackFor_some hslack
    rcases hcase with ⟨hupper, hq, -⟩ | ⟨-, q₁, index, hvariable, hq, -⟩
    · have hle : p.slackRange c ≤ 0 := by
        rw [← hrange]
        exact_mod_cast hupper
      exact h.step_tightened hp hdone hc hrelation hregular hle hq
    · exact h.step_withSlack hp hdone hc hrelation hregular hrange hvariable hq

/-! ### The stage -/

/-- Before the first constraint. -/
theorem tightened_start (hp : p.WellFormed)
    (hq : p.variablesOnly.setObjective p.objective = .ok q) : p.Tightened [] q := by
  have hwellFormed := hp.variablesOnly.of_setObjective hq
  obtain ⟨-, rfl⟩ := setObjective_eq_ok_iff.mp hq
  exact {
    wellFormed := hwellFormed
    objective_eq := rfl
    vars_eq := ⟨[], by simp [variablesOnly], by simp, by simp⟩
    names_sublist := by simp [variablesOnly]
    relation_eq := by simp [variablesOnly]
    origin := by simp [variablesOnly]
    integral := by simp [variablesOnly]
    sound := by simp
    complete := fun s hs _ => ⟨[], by rw [List.append_nil]; exact ⟨hs, by simp [variablesOnly]⟩⟩ }

/-- What is known of the problem under construction before a constraint of the source. -/
theorem tightened_step (hp : p.WellFormed) {before after : List (Constraint Rat)}
    {state state' : Problem Rat × List Nat} (hsplit : p.constraints = before ++ c :: after)
    (h : p.Tightened before state.1) (hstep : p.addTightened state c = .ok state') :
    p.Tightened (before ++ [c]) state'.1 :=
  h.step hp (fun d hd => by simp [hsplit, hd]) (by simp [hsplit]) hstep

/-- **What the stage leaves.** All constraints are taken care of, and the record forgets the slack
variables. -/
theorem addSlacks_ok (hp : p.WellFormed) {r : Record Rat} (h : p.addSlacks = .ok (q, r)) :
    p.Tightened p.constraints q ∧ r.mappings = Record.keepAll p.size ∧ r.sourceSize = p.size ∧
      r.targetSize = q.size ∧ r.negatesObjective = false := by
  obtain ⟨q₀, slacks, hobjective, hrun, rfl⟩ := addSlacks_steps h
  refine ⟨?_, rfl, rfl, rfl, rfl⟩
  exact foldlM_ok_of_step (motive := fun done state => p.Tightened done state.1)
    (tightened_start hp hobjective)
    (fun _ _ _ _ _ hsplit h hstep => tightened_step hp hsplit h hstep) hrun

/-! ### Refusals -/

theorem slackName_injective {c d : Constraint Rat} (h : slackName c = slackName d) :
    c.name = d.name := by
  simpa [slackName] using h

theorem Tightened.name_fresh (h : p.Tightened done q)
    (hname : c.name ∉ done.map Constraint.name) : c.name ∉ q.constraints.map Constraint.name :=
  fun hmem => hname (h.names_sublist.subset hmem)

theorem Tightened.slackName_fresh (h : p.Tightened done q)
    (hname : c.name ∉ done.map Constraint.name) (hfresh : slackName c ∉ p.variableNames) :
    slackName c ∉ q.variableNames := by
  obtain ⟨extra, hvars, hsublist, -⟩ := h.vars_eq
  rw [variableNames, hvars, List.map_append, List.mem_append, not_or]
  refine ⟨hfresh, fun hmem => hname ?_⟩
  obtain ⟨d, hd, hslack⟩ := List.mem_map.mp (hsublist.subset hmem)
  exact List.mem_map.mpr ⟨d, hd, slackName_injective hslack⟩

/-- A step is refused only when the inequality that it is about has no slack, provided that the
names of slack variables are new. -/
private theorem Tightened.step_error (h : p.Tightened done q) (hp : p.WellFormed)
    (hc : c ∈ p.constraints) (hname : c.name ∉ done.map Constraint.name)
    (hfresh : slackName c ∉ p.variableNames) {e : ConversionError Rat}
    (hstep : p.addTightened (q, slacks) c = .error e) :
    c.relation ≠ .eq ∧ p.slackFor c = .error e := by
  have hnamed := hp.constraint_named c hc
  have hbelow := (hp.constraint_below c hc).mono h.size_le
  have hnew := h.name_fresh hname
  have hadd : ∀ {e : ConversionError Rat} {d : Constraint Rat} {q₁ : Problem Rat},
      d.name = c.name → d.Below q₁.size → q₁.constraints = q.constraints →
      ofBuilding (q₁.addConstraint d) ≠ .error e := by
    intro e d q₁ hd hdbelow hq₁ herror
    obtain ⟨cause, herror, -⟩ := ofBuilding_eq_error.mp herror
    exact addConstraint_ne_error (hd ▸ hnamed) hdbelow (hq₁ ▸ hd ▸ hnew) cause herror
  simp only [addTightened] at hstep
  split at hstep
  · rcases bind_eq_error.mp hstep with hstep | ⟨_, -, hstep⟩
    · exact absurd hstep (hadd rfl hbelow rfl)
    · exact absurd hstep pure_ne_error
  · rename_i hrelation
    refine ⟨hrelation, ?_⟩
    rcases bind_eq_error.mp hstep with hstep | ⟨slack?, hslack, hstep⟩
    · exact hstep
    · cases slack? with
      | none => exact absurd hstep pure_ne_error
      | some slack =>
        dsimp only at hstep
        split at hstep
        · rename_i hupper
          rcases bind_eq_error.mp hstep with hstep | ⟨⟨q₁, index⟩, hvariable, hstep⟩
          · obtain ⟨cause, hstep, -⟩ := ofBuilding_eq_error.mp hstep
            exact absurd (addVariable_eq_error hstep hupper.le) (h.slackName_fresh hname hfresh)
          · obtain ⟨-, -, rfl, rfl⟩ := addVariable_eq_ok_iff.mp (ofBuilding_eq_ok.mp hvariable)
            rcases bind_eq_error.mp hstep with hstep | ⟨_, -, hstep⟩
            · exact absurd hstep
                (hadd (d := c.withSlack slack q.size) rfl (by simpa using hbelow.withSlack) rfl)
            · exact absurd hstep pure_ne_error
        · rcases bind_eq_error.mp hstep with hstep | ⟨_, -, hstep⟩
          · exact absurd hstep (hadd rfl hbelow.tightened rfl)
          · exact absurd hstep pure_ne_error

/-- **Why the stage is refused.** Some inequality has no slack. -/
theorem addSlacks_error (hp : p.WellFormed)
    (hfresh : ∀ c ∈ p.constraints, slackName c ∉ p.variableNames) {e : ConversionError Rat}
    (h : p.addSlacks = .error e) :
    ∃ c ∈ p.constraints, c.relation ≠ .eq ∧ p.slackFor c = .error e := by
  rcases bind_eq_error.mp h with h | ⟨q₀, hobjective, h⟩
  · obtain ⟨cause, h, -⟩ := ofBuilding_eq_error.mp h
    exact absurd h (setObjective_ne_error (p := p.variablesOnly) hp.objective_below cause)
  · rcases bind_eq_error.mp h with h | ⟨_, -, h⟩
    · obtain ⟨before, c, after, state, hsplit, hstate, hstep⟩ :=
        foldlM_error_of_step (motive := fun done state => p.Tightened done state.1)
          (tightened_start hp (ofBuilding_eq_ok.mp hobjective))
          (fun _ _ _ _ _ hsplit h hstep => tightened_step hp hsplit h hstep) h
      have hc : c ∈ p.constraints := by simp [hsplit]
      have hname : c.name ∉ before.map Constraint.name := by
        have hnodup := hp.constraintNames_nodup
        rw [hsplit, List.map_append, List.nodup_append] at hnodup
        exact fun hmem => hnodup.2.2 _ hmem _ (by simp) rfl
      exact ⟨c, hc, hstate.step_error hp hc hname (hfresh c hc) hstep⟩
    · exact absurd h pure_ne_error

end Problem

end QuboReduction

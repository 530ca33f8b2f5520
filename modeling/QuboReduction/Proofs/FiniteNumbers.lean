import QuboReduction.Proofs.Accounting
import QuboReduction.Proofs.StageMagnitudes

/-!
# Finite numbers of conversions

The standard pipeline computes coefficients in floating point, and a coefficient may overflow; no
stage checks what it has computed. A document has null for what is not a finite number, and that is
not read back as a number. So a conversion is read back if and only if its numbers are finite. They
are, if the numbers of the source are not so large that all the products and sums of the stages
together reach `2 ^ 1024`. The limit is one on exponents: on those of the numbers, of the bounds of
variables and of the counts, each times the degree in which the penalties have it.

## Main definitions

* `QuboReduction.QuboSteps` — the problems and records between the stages of the pipeline.
* `QuboReduction.Problem.Sizes` — exponents that bound what a problem is made of.

## Main results

* `QuboReduction.Conversion.allFinite_of_ofJson` — only finite numbers are read back.
* `QuboReduction.QuboSteps.magnitudes` — the magnitudes of the coefficients after the pipeline.
* `QuboReduction.QuboSteps.magnitudes_of_given`, `QuboReduction.QuboSteps.magnitudes_of_estimated` —
  the limits for given and for estimated penalty factors.
* `QuboReduction.convert_quboStages_finite` — which numbers of a conversion are finite.
* `QuboReduction.overflow_not_read_back` — a coefficient that overflows.
-/

namespace QuboReduction

open Binary64 (AtMost)

/-! ### Only finite numbers are read back -/

section Reading

variable {α : Type} [Scalar α]

theorem Json.isFinite_of_toScalar {x y : α} (h : (number x).toScalar = .ok y) :
    Scalar.isFinite x = true := by
  by_contra hx
  rw [number, if_neg hx] at h
  contradiction

theorem Linear.allFinite_of_ofJson {e e' : Linear α} (h : ofJson e.toJson = .ok e') :
    e.AllFinite := by
  obtain ⟨terms, h, -⟩ := map_eq_ok.mp h
  intro t ht
  obtain ⟨u, hu⟩ := exists_ok_of_mapM h (List.mem_map_of_mem ht)
  obtain ⟨_, -, hu⟩ := bind_eq_ok.mp hu
  obtain ⟨_, hscalar, -⟩ := bind_eq_ok.mp hu
  exact Json.isFinite_of_toScalar hscalar

theorem Quadratic.allFinite_of_ofJson {e e' : Quadratic α} (h : ofJson e.toJson = .ok e') :
    e.AllFinite := by
  obtain ⟨terms, h, -⟩ := map_eq_ok.mp h
  intro t ht
  obtain ⟨u, hu⟩ := exists_ok_of_mapM h (List.mem_map_of_mem ht)
  obtain ⟨_, -, hu⟩ := bind_eq_ok.mp hu
  obtain ⟨_, -, hu⟩ := bind_eq_ok.mp hu
  obtain ⟨_, hscalar, -⟩ := bind_eq_ok.mp hu
  exact Json.isFinite_of_toScalar hscalar

theorem Objective.allFinite_of_ofJson {o o' : Objective α} (h : ofJson o.toJson = .ok o') :
    o.polynomial.AllFinite := by
  rw [ofJson, members_toJson, ok_bind] at h
  obtain ⟨_, -, h⟩ := bind_eq_ok.mp h
  obtain ⟨_, hconstant, h⟩ := bind_eq_ok.mp h
  obtain ⟨_, hlinear, h⟩ := bind_eq_ok.mp h
  obtain ⟨_, hquadratic, -⟩ := bind_eq_ok.mp h
  exact ⟨Json.isFinite_of_toScalar hconstant, Linear.allFinite_of_ofJson hlinear,
    Quadratic.allFinite_of_ofJson hquadratic⟩

theorem Constraint.allFinite_of_ofJson {c c' : Constraint α} (h : ofJson c.toJson = .ok c') :
    c.AllFinite := by
  rw [ofJson, members_toJson, ok_bind] at h
  obtain ⟨_, -, h⟩ := bind_eq_ok.mp h
  obtain ⟨_, hlinear, h⟩ := bind_eq_ok.mp h
  obtain ⟨_, hquadratic, h⟩ := bind_eq_ok.mp h
  obtain ⟨_, -, h⟩ := bind_eq_ok.mp h
  obtain ⟨_, hrhs, -⟩ := bind_eq_ok.mp h
  exact ⟨Linear.allFinite_of_ofJson hlinear, Quadratic.allFinite_of_ofJson hquadratic,
    Json.isFinite_of_toScalar hrhs⟩

theorem Problem.allFinite_of_ofJson {p p' : Problem α} (h : ofJson p.toJson = .ok p') :
    p.AllFinite := by
  obtain ⟨parts, hparts, -⟩ := bind_eq_ok.mp h
  rw [ProblemParts.ofJson, members_toJson, ok_bind] at hparts
  obtain ⟨_, -, hparts⟩ := bind_eq_ok.mp hparts
  obtain ⟨_, -, hparts⟩ := bind_eq_ok.mp hparts
  obtain ⟨_, hobjective, hparts⟩ := bind_eq_ok.mp hparts
  obtain ⟨_, hconstraints, -⟩ := bind_eq_ok.mp hparts
  refine ⟨Objective.allFinite_of_ofJson hobjective, fun c hc => ?_⟩
  obtain ⟨_, hc⟩ := exists_ok_of_mapM hconstraints (List.mem_map_of_mem hc)
  exact Constraint.allFinite_of_ofJson hc

/-- **Only finite numbers are read back:** when the document of a conversion is read, whatever comes
of it, the numbers of its problem were finite. -/
theorem Conversion.allFinite_of_ofJson {c c' : Conversion α} (h : ofJson c.toJson = .ok c') :
    c.problem.AllFinite := by
  obtain ⟨fields, hfields, h⟩ := bind_eq_ok.mp h
  obtain rfl := Except.ok.inj hfields
  obtain ⟨_, hrun, -⟩ := bind_eq_ok.mp h
  rw [List.foldlM_cons] at hrun
  obtain ⟨_, hfirst, -⟩ := bind_eq_ok.mp hrun
  obtain ⟨_, hproblem, -⟩ := bind_eq_ok.mp hfirst
  exact Problem.allFinite_of_ofJson hproblem

end Reading

/-! ### From stage to stage -/

/-- The stages of the standard pipeline lead from a problem to a conversion, with the problems
between them and the records of them. -/
structure QuboSteps {α : Type} [Scalar α] (p : Problem α) (given : Option α) (c : Conversion α)
    (q₁ q₂ q₃ q₄ : Problem α) (r₁ r₂ r₃ r₄ r₅ : Record α) : Prop where
  /-- Shapes become penalties. -/
  shapes : p.foldShapes given = .ok (q₁, r₁)
  /-- Inequalities get slack variables. -/
  slacks : q₁.addSlacks = .ok (q₂, r₂)
  /-- Integer variables are replaced by bits. -/
  bits : q₂.binarize = .ok (q₃, r₃)
  /-- Equalities become penalties. -/
  equalities : q₃.foldEqualities given = .ok (q₄, r₄)
  /-- The result is to be minimized. -/
  direction : q₄.orient .minimize .maximizeToMinimize = .ok (c.problem, r₅)
  /-- The conversion has the records of the stages. -/
  records_eq : c.records = [r₁, r₂, r₃, r₄, r₅]

theorem exists_quboSteps {α : Type} [Scalar α] {p : Problem α} {given : Option α}
    {c : Conversion α} (h : convert p (quboStages given) = .ok c) :
    ∃ q₁ q₂ q₃ q₄ r₁ r₂ r₃ r₄ r₅, QuboSteps p given c q₁ q₂ q₃ q₄ r₁ r₂ r₃ r₄ r₅ := by
  obtain ⟨q₁, r₁, c₁, h₁, hrun₁, rfl⟩ := runStages_cons_ok (runStages_of_convert h)
  obtain ⟨q₂, r₂, c₂, h₂, hrun₂, rfl⟩ := runStages_cons_ok hrun₁
  obtain ⟨q₃, r₃, c₃, h₃, hrun₃, rfl⟩ := runStages_cons_ok hrun₂
  obtain ⟨q₄, r₄, c₄, h₄, hrun₄, rfl⟩ := runStages_cons_ok hrun₃
  obtain ⟨q₅, r₅, c₅, h₅, hrun₅, rfl⟩ := runStages_cons_ok hrun₄
  obtain rfl := Except.ok.inj hrun₅
  exact ⟨q₁, q₂, q₃, q₄, r₁, r₂, r₃, r₄, r₅, h₁, h₂, h₃, h₄, h₅, rfl⟩

/-- Lengths and indices of a record fit into 64 bits if the lengths do. -/
theorem Record.Accounts.inWords {α : Type} {r : Record α} (h : r.Accounts)
    (hsource : r.sourceSize < UInt64.size) (htarget : r.targetSize < UInt64.size) : r.InWords := by
  have hbelow : ∀ i ∈ r.mappings.flatMap Mapping.indices ++ r.auxiliary, i < UInt64.size :=
    fun i hi => (List.mem_range.mp (h.mem_iff.mp hi)).trans htarget
  refine ⟨hsource, htarget, fun m hm i hi => ?_, fun i hi => ?_⟩
  · exact hbelow i (List.mem_append_left _ (List.mem_flatMap.mpr ⟨m, hm, hi⟩))
  · exact hbelow i (List.mem_append_right _ hi)

theorem Stage.inWords_of_apply {α : Type} [Scalar α] {q q' : Problem α} {r : Record α}
    (stage : Stage α) (h : stage.apply q = .ok (q', r)) (hq : q.size < UInt64.size)
    (hq' : q'.size < UInt64.size) : r.InWords := by
  obtain ⟨hsource, htarget, -, haccounts⟩ := stage.accounts_of_apply h
  exact haccounts.inWords (hsource ▸ hq) (htarget ▸ hq')

/-- A record that keeps all variables has no scalars. -/
theorem Record.Keeps.allFinite {α : Type} [Scalar α] {p q : Problem α} {r : Record α}
    {kind : StageKind} (h : r.Keeps kind p q) : r.AllFinite := by
  intro m hm
  rw [h.mappings_eq] at hm
  obtain ⟨i, -, rfl⟩ := List.mem_map.mp hm
  trivial

/-- Exponents of powers of two that bound what a problem is made of. -/
structure Problem.Sizes (p : Problem Float) (a b w u s : Nat) : Prop where
  /-- The numbers of the objective are at most `2 ^ a`, and those of the constraints `2 ^ b`. -/
  magnitudes : p.Magnitudes a b b
  /-- The bounds of the variables are between `-2 ^ w` and `2 ^ w`. -/
  within : ∀ v ∈ p.vars, v.domain.Within w
  /-- The slack variables have values below `2 ^ w`. -/
  slacks : p.SlacksBelow w
  /-- The bound on the number of bits is not below four. -/
  two_le : 2 ≤ u
  /-- A variable has at most `2 ^ u` bits. -/
  bits : w < 2 ^ u
  /-- There are at most `2 ^ s` variables. -/
  size_le : p.size ≤ 2 ^ s
  /-- There are at most `2 ^ s` constraints. -/
  length_le : p.constraints.length ≤ 2 ^ s

/-- For bounds of 64 bits the exponents are 63 and 6. -/
theorem Problem.Sizes.of_inWords {p : Problem Float} {a b s : Nat}
    (hwords : ∀ v ∈ p.vars, v.domain.InWords) (hm : p.Magnitudes a b b) (hsize : p.size ≤ 2 ^ s)
    (hcount : p.constraints.length ≤ 2 ^ s) : p.Sizes a b 63 6 s where
  magnitudes := hm
  within v hv := Domain.within_of_inWords (hwords v hv)
  slacks _ _ _ _ hslack := slackFor_upper_lt hslack (by omega)
  two_le := by omega
  bits := by omega
  size_le := hsize
  length_le := hcount

namespace QuboSteps

variable {p q₁ q₂ q₃ q₄ : Problem Float} {given : Option Float} {c : Conversion Float}
  {r₁ r₂ r₃ r₄ r₅ : Record Float} {a b f g k n s u w : Nat}
  (h : QuboSteps p given c q₁ q₂ q₃ q₄ r₁ r₂ r₃ r₄ r₅)

include h

/-- The counts of variables and constraints, and the domains. -/
theorem counts (hwithin : ∀ v ∈ p.vars, v.domain.Within w) (hslacks : q₁.SlacksBelow w) :
    q₁.vars = p.vars ∧ q₁.constraints.length ≤ p.constraints.length ∧
      q₁.SlacksSoFar w q₁.constraints q₂ := by
  obtain ⟨hvars, hlength⟩ := Problem.foldShapes_counts h.shapes
  exact ⟨hvars, hlength, Problem.addSlacks_counts (by rwa [hvars]) hslacks h.slacks⟩

theorem counts_of_inWords (hwords : ∀ v ∈ p.vars, v.domain.InWords) :
    q₁.vars = p.vars ∧ q₁.constraints.length ≤ p.constraints.length ∧
      q₁.SlacksSoFar 63 q₁.constraints q₂ :=
  h.counts (fun v hv => Domain.within_of_inWords (hwords v hv))
    fun _ _ _ _ hslack => Problem.slackFor_upper_lt hslack (by omega)

/-- Slack variables are those of the constraints without a shape. -/
theorem slacksBelow (hp : p.WellFormed) (hslacks : p.SlacksBelow w) : q₁.SlacksBelow w := by
  obtain ⟨hvars, -⟩ := Problem.foldShapes_counts h.shapes
  intro c hc
  rw [Problem.foldShapes_constraints hp h.shapes] at hc
  rw [Problem.slackFor_congr hvars]
  exact hslacks c (List.mem_filter.mp hc).1

/-- Before the stage for bits there are at most as many variables as there were variables and
constraints. -/
theorem size_le (hwords : ∀ v ∈ p.vars, v.domain.InWords) :
    q₂.size ≤ p.size + p.constraints.length := by
  obtain ⟨hvars, hlength, hslacks⟩ := h.counts_of_inWords hwords
  have hsize : q₁.size = p.size := congrArg List.length hvars
  have hle := hslacks.size_le
  omega

theorem records_allFinite (hwords : ∀ v ∈ p.vars, v.domain.InWords) :
    ∀ r ∈ c.records, r.AllFinite := by
  obtain ⟨-, -, hslacks⟩ := h.counts_of_inWords hwords
  have hbits : r₃.AllFinite := fun m hm =>
    ((Problem.binarize_short (u := 6) hslacks.within (by omega) (by omega) h.bits).1 m hm).allFinite
  rw [h.records_eq]
  simp only [List.mem_cons, List.not_mem_nil, or_false, forall_eq_or_imp, forall_eq]
  exact ⟨(Problem.foldShapes_keeps h.shapes).allFinite,
    (Problem.addSlacks_keeps h.slacks).allFinite, hbits,
    (Problem.foldEqualities_keeps h.equalities).allFinite,
    (Problem.orient_keeps h.direction).allFinite⟩

/-- Only binary variables are left, and no constraint. -/
theorem binary_unconstrained (hwords : ∀ v ∈ p.vars, v.domain.InWords) :
    c.problem.vars = q₃.vars ∧ (∀ v ∈ c.problem.vars, v.domain = .binary) ∧
      c.problem.constraints = [] := by
  obtain ⟨-, -, hslacks⟩ := h.counts_of_inWords hwords
  obtain ⟨-, hbinary, -⟩ :=
    Problem.binarize_short (u := 6) hslacks.within (by omega) (by omega) h.bits
  obtain ⟨hvars, hnone⟩ := Problem.foldEqualities_counts h.equalities
  obtain ⟨hvars', hlength⟩ := Problem.orient_counts h.direction
  rw [hnone] at hlength
  have hvars : c.problem.vars = q₃.vars := hvars'.trans hvars
  exact ⟨hvars, by rwa [hvars], List.eq_nil_of_length_eq_zero hlength⟩

theorem wellFormed (hp : p.WellFormed) :
    q₁.WellFormed ∧ q₂.WellFormed ∧ q₃.WellFormed ∧ q₄.WellFormed ∧ c.problem.WellFormed := by
  have h₁ := Stage.wellFormed_of_apply (s := .linearInequalityToPenalty given) hp h.shapes
  have h₂ := Stage.wellFormed_of_apply (s := .inequalityToEquality) h₁ h.slacks
  have h₃ := Stage.wellFormed_of_apply (s := .integerToBinary) h₂ h.bits
  have h₄ := Stage.wellFormed_of_apply (s := .linearEqualityToPenalty given) h₃ h.equalities
  exact ⟨h₁, h₂, h₃, h₄, Stage.wellFormed_of_apply (s := .maximizeToMinimize) h₄ h.direction⟩

/-- Indices and lengths fit into 64 bits if there are not too many variables and constraints. -/
theorem inWords (hp : p.WellFormed) (hwords : ∀ v ∈ p.vars, v.domain.InWords)
    (hcount : 64 * (p.size + p.constraints.length) < UInt64.size) : c.InWords := by
  obtain ⟨hvars, -, hslacks⟩ := h.counts_of_inWords hwords
  obtain ⟨-, -, hbits⟩ :=
    Problem.binarize_short (u := 6) hslacks.within (by omega) (by omega) h.bits
  obtain ⟨hvars', hbinary, hnone⟩ := h.binary_unconstrained hwords
  have hsize₁ : q₁.size = p.size := congrArg List.length hvars
  have hsize₂ := h.size_le hwords
  have hsize₄ : q₄.size = q₃.size :=
    congrArg List.length (Problem.foldEqualities_counts h.equalities).1
  have hsize₅ : c.problem.size = q₃.size := congrArg List.length hvars'
  have hproblem := (h.wellFormed hp).2.2.2.2
  refine ⟨⟨fun v hv => ?_, hproblem.objective_below.mono (by omega), by simp [hnone]⟩, ?_⟩
  · rw [hbinary v hv]
    exact ⟨isWord_iff.mpr (by simp [Domain.lower]), isWord_iff.mpr (by simp [Domain.upper])⟩
  · rw [h.records_eq]
    simp only [List.mem_cons, List.not_mem_nil, or_false, forall_eq_or_imp, forall_eq]
    exact ⟨(Stage.linearInequalityToPenalty given).inWords_of_apply h.shapes (by omega) (by omega),
      Stage.inequalityToEquality.inWords_of_apply h.slacks (by omega) (by omega),
      Stage.integerToBinary.inWords_of_apply h.bits (by omega) (by omega),
      (Stage.linearEqualityToPenalty given).inWords_of_apply h.equalities (by omega) (by omega),
      Stage.maximizeToMinimize.inWords_of_apply h.direction (by omega) (by omega)⟩

/-- The magnitudes and counts before the second penalty stage, for a bound on the first factor. -/
theorem magnitudes_bits (hp : p.WellFormed) (hsizes : p.Sizes a b w u s) (hsu : s + u ≤ 25)
    (hfactor : ∀ x, p.penaltyFactor given = .ok x → AtMost (2 ^ f) x)
    (ha : a + 2 * w + 3 * s + 2 * u + 5 ≤ k) (hf : f + 2 * w + 5 * s + 2 * u + 5 ≤ k)
    (hk : k < 1024) (hb : b + 2 * w + 2 * s + 2 * u + 5 < 1024) :
    q₃.Magnitudes k (b + 2 * w + 2 * s + 2 * u + 5) (b + 2 * w + 2 * s + 2 * u + 5) ∧
      q₃.size ≤ 2 ^ (s + u + 1) ∧ q₃.constraints.length ≤ 2 ^ s ∧
        ∀ v ∈ q₃.vars, v.domain = .binary := by
  obtain ⟨hm, hwithin, hslacks, hu, hw, hsize, hcount⟩ := hsizes
  obtain ⟨hvars, hlength₁, hslacks⟩ := h.counts hwithin (h.slacksBelow hp hslacks)
  obtain ⟨-, hp₂, -⟩ := h.wellFormed hp
  obtain ⟨-, hbinary, hbits⟩ := Problem.binarize_short hslacks.within hw (by omega) h.bits
  have hsize₂ : q₂.size ≤ 2 ^ (s + 1) := by
    have hsize₁ : q₁.size = p.size := congrArg List.length hvars
    have hle := hslacks.size_le
    rw [pow_succ]
    omega
  have hsize₃ : q₃.size ≤ 2 ^ (s + u + 1) := by
    calc q₃.size ≤ q₂.size * 2 ^ u := hbits
      _ ≤ 2 ^ (s + 1) * 2 ^ u := Nat.mul_le_mul_right _ hsize₂
      _ = 2 ^ (s + u + 1) := by rw [← pow_add, add_right_comm]
  have hm₁ : q₁.Magnitudes (k - (2 * w + 2 * s + 2 * u + 4)) b b :=
    Problem.foldShapes_magnitudes hp hm hfactor hsize hcount (by omega) (by omega) (by omega)
      (by omega) (by omega) h.shapes
  have hm₂ : q₂.Magnitudes (k - (2 * w + 2 * s + 2 * u + 4)) (b + 1) b :=
    Problem.addSlacks_magnitudes hm₁ (by omega) (by omega) h.slacks
  obtain ⟨hm₃, hlength₃⟩ := Problem.binarize_magnitudes hp₂ hm₂ hslacks.within hw hu hsize₂
    (by omega) (n := k) (by omega) hk (j := b + 2 * w + 2 * s + 2 * u + 5) (by omega) (by omega) hb
    h.bits
  have hle := hslacks.length_le
  exact ⟨hm₃, hsize₃, by omega, hbinary⟩

/-- **The magnitudes after the pipeline.** Each exponent is the sum of what the stages add. -/
theorem magnitudes (hp : p.WellFormed) (hsu : s + u ≤ 25)
    (hm : q₃.Magnitudes k (b + 2 * w + 2 * s + 2 * u + 5) (b + 2 * w + 2 * s + 2 * u + 5))
    (hsize : q₃.size ≤ 2 ^ (s + u + 1)) (hcount : q₃.constraints.length ≤ 2 ^ s)
    (hfactor : ∀ x, q₃.penaltyFactor given = .ok x → AtMost (2 ^ g) x) (hk : k + s + 1 ≤ n)
    (hg : g + 2 * b + 4 * w + 7 * s + 6 * u + 14 ≤ n) (hn : n < 1024) :
    c.problem.objective.polynomial.AtMost (2 ^ n) := by
  obtain ⟨-, -, hp₃, -, -⟩ := h.wellFormed hp
  have hm₄ : q₄.objective.polynomial.AtMost (2 ^ n) :=
    Problem.foldEqualities_magnitudes hp₃ hm hfactor hsize hcount (by omega) (by omega) hk
      (by omega) hn h.equalities
  exact Problem.orient_magnitudes hm₄ hn h.direction

/-- The magnitudes with a given factor. -/
theorem magnitudes_of_given (hp : p.WellFormed) (hsizes : p.Sizes a b w u s) (hsu : s + u ≤ 25)
    {x : Float} (hgiven : given = some x) (hx : AtMost (2 ^ f) x)
    (ha : a + 2 * w + 4 * s + 2 * u ≤ 1017) (hf : f + 2 * b + 4 * w + 7 * s + 6 * u ≤ 1009) :
    c.problem.objective.polynomial.AtMost (2 ^ 1023) := by
  have hfactor (q : Problem Float) : ∀ y, q.penaltyFactor given = .ok y → AtMost (2 ^ f) y :=
    fun y => Problem.penaltyFactor_atMost (by simpa [hgiven] using hx) (by simp [hgiven])
  obtain ⟨hm, hsize, hcount, -⟩ := h.magnitudes_bits hp hsizes hsu (hfactor p) (k := 1022 - s)
    (by omega) (by omega) (by omega) (by omega)
  exact h.magnitudes hp hsu hm hsize hcount (hfactor q₃) (by omega) (by omega) (by omega)

/-- The magnitudes with estimated factors: the second estimate is made of an objective that has the
first one in it. -/
theorem magnitudes_of_estimated (hp : p.WellFormed) (hsizes : p.Sizes a b w u s)
    (hsu : s + u ≤ 25) (hgiven : given = none)
    (hf : max 17 (a + 2 * w + 2 * s + 2) + 2 * b + 6 * w + 14 * s + 10 * u ≤ 1000) :
    c.problem.objective.polynomial.AtMost (2 ^ 1023) := by
  generalize hfirst : max 17 (a + 2 * w + 2 * s + 2) = f at hf
  obtain ⟨-, -, hp₃, -, -⟩ := h.wellFormed hp
  have hestimated (q : Problem Float) (n : Nat) (hq : AtMost (2 ^ n) q.estimatedFactor) :
      ∀ y, q.penaltyFactor given = .ok y → AtMost (2 ^ n) y :=
    fun y => Problem.penaltyFactor_atMost (by simp [hgiven]) fun _ => hq
  obtain ⟨hm, hsize, hcount, hbinary⟩ := h.magnitudes_bits hp hsizes hsu (f := f)
    (hestimated p f (Problem.estimatedFactor_atMost hsizes.magnitudes.objective hp.objective_below
      hsizes.size_le (fun v hv => (hsizes.within v hv).magnitude_le) (by omega) (by omega)
      (by omega) (by omega)))
    (k := f + 2 * w + 5 * s + 2 * u + 5) (by omega) (by omega) (by omega) (by omega)
  have hbits : ∀ v ∈ q₃.vars, v.domain.magnitude ≤ 2 ^ 0 := fun v hv => by
    simp [hbinary v hv, Domain.magnitude, Domain.lower, Domain.upper]
  exact h.magnitudes hp hsu hm hsize hcount (g := f + 2 * w + 7 * s + 4 * u + 9)
    (hestimated q₃ _ (Problem.estimatedFactor_atMost hm.objective hp₃.objective_below hsize hbits
      (by omega) (by omega) (by omega) (by omega))) (by omega) (by omega) (by omega)

end QuboSteps

theorem Polynomial.AtMost.allFinite {b : Rat} {f : Polynomial Float} (h : f.AtMost b) :
    f.AllFinite :=
  ⟨h.constant.isFinite, fun t ht => (h.linear t ht).isFinite,
    fun t ht => (h.quadratic t ht).isFinite⟩

/-! ### Conversions -/

/-- **Which numbers of a conversion are finite.** The records of the standard pipeline have finite
numbers. Where the indices fit into 64 bits, the conversion is read back from its document if and
only if the problem has finite numbers too. These are finite if the exponents that bound the source
and a given factor add up to less than that of the largest double. The factor counts once, and the
numbers of the constraints twice, as a penalty has squares of them. An estimated factor is bounded
by the objective, and an objective with penalties by the factor. -/
theorem convert_quboStages_finite {p : Problem Float} {given : Option Float} {c : Conversion Float}
    (hp : p.Built) (hwords : ∀ v ∈ p.vars, v.domain.InWords)
    (h : convert p (quboStages given) = .ok c) :
    (∀ r ∈ c.records, r.AllFinite) ∧
      (64 * (p.size + p.constraints.length) < UInt64.size →
        (Conversion.ofJson c.toJson = .ok c ↔ c.problem.AllFinite)) ∧
      ∀ a b w u s, p.Sizes a b w u s → s + u ≤ 25 →
        (∀ x f, given = some x → AtMost (2 ^ f) x → a + 2 * w + 4 * s + 2 * u ≤ 1017 →
          f + 2 * b + 4 * w + 7 * s + 6 * u ≤ 1009 → c.problem.AllFinite) ∧
        (given = none →
          max 17 (a + 2 * w + 2 * s + 2) + 2 * b + 6 * w + 14 * s + 10 * u ≤ 1000 →
            c.problem.AllFinite) := by
  obtain ⟨_, _, _, _, _, _, _, _, _, h⟩ := exists_quboSteps h
  have hrecords := h.records_allFinite hwords
  obtain ⟨-, -, hnone⟩ := h.binary_unconstrained hwords
  have hfinite (hm : c.problem.objective.polynomial.AtMost (2 ^ 1023)) : c.problem.AllFinite :=
    ⟨hm.allFinite, by simp [hnone]⟩
  refine ⟨hrecords, fun hcount => ⟨Conversion.allFinite_of_ofJson, fun hfinite => ?_⟩,
    fun a b w u s hsizes hsu => ⟨fun x f hgiven hx ha hf => ?_, fun hgiven hf => ?_⟩⟩
  · obtain ⟨-, -, -, -, hresult⟩ := h.wellFormed hp.wellFormed
    exact Conversion.ofJson_toJson hresult ⟨hfinite, hrecords⟩
      (h.inWords hp.wellFormed hwords hcount)
  · exact hfinite (h.magnitudes_of_given hp.wellFormed hsizes hsu hgiven hx ha hf)
  · exact hfinite (h.magnitudes_of_estimated hp.wellFormed hsizes hsu hgiven hf)

/-- Two binary variables and an integer one, with a shape and an equality. -/
def rostering : Problem Float where
  name := "rostering"
  vars := [⟨"x", .binary, 0⟩, ⟨"y", .binary, 1⟩, ⟨"n", .integer 0 2, 2⟩]
  objective := ⟨.maximize, 0.5, Terms.ofList [(0, 1), (2, -2)], Terms.empty⟩
  constraints := [.ofLinear "one" (Terms.ofList [(0, 1), (1, 1)]) .le 1,
    .ofLinear "total" (Terms.ofList [(0, 1), (2, 1)]) .eq 2]

theorem rostering_built : rostering.Built := Problem.built_iff_assemble_eq.mpr rfl

/-- With a factor of `1e292` all numbers are finite, and the conversion is read back. With estimated
factors they would be if the integer had any bounds of 64 bits. -/
theorem rostering_read_back :
    (∃ c, convert rostering (quboStages (some 1e292)) = .ok c ∧ c.problem.AllFinite ∧
      Conversion.ofJson c.toJson = .ok c ∧ ∀ r ∈ c.records, r.AllFinite) ∧
    ∃ c, convert rostering (quboStages none) = .ok c ∧ c.problem.AllFinite := by
  have hwords : ∀ v ∈ rostering.vars, v.domain.InWords := by
    simp [rostering, Domain.InWords, isWord_iff, Domain.lower, Domain.upper]
  have hm : rostering.Magnitudes 1 1 1 := by decide +kernel
  constructor
  · have hok : (convert rostering (quboStages (some 1e292))).isOk = true := by decide +kernel
    obtain ⟨c, h⟩ := isOk_iff.mp hok
    have hfactor : AtMost (2 ^ 971) (1e292 : Float) := by decide +kernel
    have hslacks : rostering.SlacksBelow 2 := by
      have hsmall : ∀ c ∈ rostering.constraints, c.relation ≠ .eq →
          (rostering.slackFor c).toOption.join.all (fun slack => slack.upper < 2 ^ 2) = true := by
        decide +kernel
      intro c hc hrelation slack hslack
      simpa [hslack, Except.toOption] using hsmall c hc hrelation
    have hsizes : rostering.Sizes 1 1 2 2 2 :=
      ⟨hm, by decide, hslacks, by decide, by decide, by decide, by decide⟩
    obtain ⟨hrecords, hread, hfinite⟩ := convert_quboStages_finite rostering_built hwords h
    obtain ⟨hgiven, -⟩ := hfinite 1 1 2 2 2 hsizes (by decide)
    have hproblem := hgiven 1e292 971 rfl hfactor (by decide) (by decide)
    exact ⟨c, h, hproblem, (hread (by decide)).mpr hproblem, hrecords⟩
  · have hok : (convert rostering (quboStages none)).isOk = true := by decide +kernel
    obtain ⟨c, h⟩ := isOk_iff.mp hok
    obtain ⟨-, -, hfinite⟩ := convert_quboStages_finite rostering_built hwords h
    obtain ⟨-, hestimated⟩ := hfinite 1 1 63 6 2
      (.of_inWords hwords hm (by decide) (by decide)) (by decide)
    exact ⟨c, h, hestimated rfl (by decide)⟩

/-- A factor may be given that is a finite number, but twice the factor overflows. The conversion is
computed without an error, and nothing is read back from its document. -/
theorem overflow_not_read_back :
    rostering.Built ∧ rostering.AllFinite ∧ (1e308 : Float).isFinite = true ∧ (0 : Float) < 1e308 ∧
      ∃ c, convert rostering (quboStages (some 1e308)) = .ok c ∧ ¬ c.problem.AllFinite ∧
        ∀ d, Conversion.ofJson c.toJson ≠ .ok d := by
  have hoverflow : (convert rostering (quboStages (some 1e308))).toOption.any
      (fun c => decide (¬ c.problem.AllFinite)) = true := by decide +kernel
  refine ⟨rostering_built, by decide +kernel, by decide +kernel, by decide +kernel, ?_⟩
  cases h : convert rostering (quboStages (some 1e308)) with
  | error e => simp [h, Except.toOption] at hoverflow
  | ok c =>
    have hinfinite : ¬ c.problem.AllFinite := by simpa [h, Except.toOption] using hoverflow
    exact ⟨c, rfl, hinfinite, fun d hd => hinfinite (Conversion.allFinite_of_ofJson hd)⟩

end QuboReduction

import QuboReduction.Penalty
import QuboReduction.PenaltyFactor
import QuboReduction.Proofs.Magnitudes

/-!
# Magnitudes of penalties

An estimated penalty factor is a sum over the terms of the objective, each times the magnitudes of
its variables, and a penalty is a sum of multiples of the factor. With each product the exponents of
the bounds are added, and with each sum of at most `2 ^ t` summands `t` is added to the exponent.

## Main definitions

* `QuboReduction.Shape.paired` — the variables of which pairs are counted.

## Main results

* `QuboReduction.Problem.estimatedFactor_atMost`, `QuboReduction.Problem.penaltyFactor_atMost` —
  factors that are estimated or given.
* `QuboReduction.Shape.penalty?_atMost`, `QuboReduction.squaredDeviation_atMost` — single penalties.
* `QuboReduction.foldl_penalties_atMost`, `QuboReduction.Problem.withShapePenalties_atMost` —
  objectives with penalties.
-/

namespace QuboReduction

open Binary64 (AtMost)

/-! ### Penalty factors -/

namespace Problem

variable {p : Problem Float} {given : Option Float} {factor : Float} {i k m n s : Nat}

theorem magnitudeAt_atMost (hvars : ∀ v ∈ p.vars, v.domain.magnitude ≤ 2 ^ m) (hm : m < 1024) :
    AtMost (2 ^ m) (p.magnitudeAt i) := by
  rw [magnitudeAt]
  split
  · rename_i v hv
    have hv : v ∈ p.vars := List.mem_of_getElem? hv
    refine Binary64.ofInt_atMost (.two_pow hm) ?_
    rw [Int.cast_natCast, Nat.abs_cast]
    exact_mod_cast hvars v hv
  · exact one_atMost.mono (one_le_pow₀ one_le_two)

/-- The bound on the objective is below a power of two, the exponent of which has the bits of the
coefficients, those of two variables and those of the number of terms. -/
theorem objectiveBound_atMost (hf : p.objective.polynomial.AtMost (2 ^ k))
    (hbelow : p.objective.polynomial.Below p.size) (hsize : p.size ≤ 2 ^ s)
    (hvars : ∀ v ∈ p.vars, v.domain.magnitude ≤ 2 ^ m) (hs : 2 * s ≤ 53)
    (hn : k + 2 * m + 2 * s + 2 ≤ n) (hlarge : n < 1024) : AtMost (2 ^ n) p.objectiveBound := by
  have hmagnitude (i : Nat) : AtMost (2 ^ m) (p.magnitudeAt i) :=
    magnitudeAt_atMost hvars (by omega)
  have hlinear : AtMost (2 ^ (k + m + s))
      (p.objective.polynomial.linear.total fun i c => Scalar.abs c * p.magnitudeAt i) := by
    refine AtMost.sum (k := k + m) (t := s) (fun x hx => ?_) ?_ (by omega) le_rfl (by omega)
    · obtain ⟨u, hu, rfl⟩ := List.mem_map.mp hx
      exact (hf.linear u hu).abs.mul_two_pow (hmagnitude _) le_rfl (by omega)
    · rw [List.length_map]
      exact (hbelow.length_le hsize).1
  have hquadratic : AtMost (2 ^ (k + 2 * m + 2 * s)) (p.objective.polynomial.quadratic.total
      fun q c => Scalar.abs c * p.magnitudeAt q.low * p.magnitudeAt q.high) := by
    refine AtMost.sum (k := k + 2 * m) (t := 2 * s) (fun x hx => ?_) ?_ hs le_rfl (by omega)
    · obtain ⟨u, hu, rfl⟩ := List.mem_map.mp hx
      exact ((hf.quadratic u hu).abs.mul_two_pow (hmagnitude _) le_rfl (by omega)).mul_two_pow
        (hmagnitude _) (by omega) (by omega)
    · rw [List.length_map]
      exact (hbelow.length_le hsize).2
  have hsum := hlinear.add_two_pow hquadratic (n := k + 2 * m + 2 * s + 1) (by omega) (by omega)
    (by omega)
  have hmargin : AtMost (2 ^ 0) (penaltyMargin : Float) := by
    rw [pow_zero]
    exact one_atMost
  exact hsum.add_two_pow hmargin (by omega) (by omega) hlarge

/-- **Estimated factors** are bounds on the objective, or the least factor for fractional data. -/
theorem estimatedFactor_atMost (hf : p.objective.polynomial.AtMost (2 ^ k))
    (hbelow : p.objective.polynomial.Below p.size) (hsize : p.size ≤ 2 ^ s)
    (hvars : ∀ v ∈ p.vars, v.domain.magnitude ≤ 2 ^ m) (hs : 2 * s ≤ 53)
    (hn : k + 2 * m + 2 * s + 2 ≤ n) (hsmall : 17 ≤ n) (hlarge : n < 1024) :
    AtMost (2 ^ n) p.estimatedFactor := by
  simp only [estimatedFactor]
  split
  · have hfractional : AtMost (2 ^ 17) (fractionalFactor : Float) :=
      Binary64.ofInt_atMost (n := 100000) (.two_pow (by omega)) (by norm_num)
    exact hfractional.mono_two_pow hsmall
  · exact objectiveBound_atMost hf hbelow hsize hvars hs hn hlarge

/-- A factor is the given one or the estimated one. -/
theorem penaltyFactor_atMost (hgiven : ∀ f, given = some f → AtMost (2 ^ n) f)
    (hestimated : given = none → AtMost (2 ^ n) p.estimatedFactor)
    (h : p.penaltyFactor given = .ok factor) : AtMost (2 ^ n) factor := by
  cases given with
  | none =>
    obtain rfl := Except.ok.inj h
    exact hestimated rfl
  | some f =>
    rw [penaltyFactor, validateFactor] at h
    split_ifs at h
    rw [← Except.ok.inj h]
    exact hgiven f rfl

end Problem

/-! ### Penalties of shapes -/

/-- Of `n` elements there are at most `n * n / 2` pairs. -/
theorem two_mul_length_pairsOf {β : Type} (l : List β) :
    2 * (pairsOf l).length ≤ l.length * l.length := by
  induction l with
  | nil => simp [pairsOf]
  | cons b l ih =>
    rw [pairsOf, List.length_append, List.length_map, List.length_cons]
    nlinarith

namespace Shape

variable {shape : Shape} {factor : Float} {f : Polynomial Float} {k n s : Nat}

/-- The variables of which pairs are counted. -/
def paired : Shape → List Nat
  | atMostOne vars => vars
  | atMostOneZero vars => vars
  | _ => []

theorem productsOf_every {vars : List Nat} (hfactor : AtMost (2 ^ k) factor)
    (hvars : vars.length ≤ 2 ^ s) (hs : 2 * s ≤ 53) (hn : k + 2 * s ≤ n) (hlarge : n < 1024) :
    (productsOf vars factor).Every (AtMost (2 ^ n)) := by
  have hpairs := (two_mul_length_pairsOf vars).trans (Nat.mul_le_mul hvars hvars)
  rw [← pow_add, ← two_mul] at hpairs
  refine Quadratic.every_ofProducts (k := k) (t := 2 * s) (fun u hu => ?_) ?_ hs hn hlarge
  · obtain ⟨_, -, rfl⟩ := List.mem_map.mp hu
    exact hfactor
  · rw [List.length_map]
    omega

theorem penalty?_atMost (h : shape.penalty? factor = some f) (hfactor : AtMost (2 ^ k) factor)
    (hvars : shape.paired.length ≤ 2 ^ s) (hs : 2 * s ≤ 53) (hn : k + 2 * s ≤ n)
    (hlarge : n < 1024) : f.AtMost (2 ^ n) := by
  have hzero : AtMost 0 (0 : Float) := Binary64.zero_atMost le_rfl
  have hpos : (0 : Rat) ≤ 2 ^ n := by positivity
  have hfactor' : AtMost (2 ^ n) factor := hfactor.mono_two_pow (by omega)
  have hsingle {κ : Type} [Ord κ] [Std.TransOrd κ] [Std.LawfulEqOrd κ] (key : κ) {a : Float}
      (ha : AtMost (2 ^ n) a) : (Terms.empty.addTerm key a).Every (AtMost (2 ^ n)) :=
    Terms.Every.addTerm (P := fun _ => False) Terms.every_empty (fun _ => False.elim) ha
      fun _ => False.elim
  have hpairs := (two_mul_length_pairsOf shape.paired).trans (Nat.mul_le_mul hvars hvars)
  rw [← pow_add, ← two_mul] at hpairs
  cases shape with
  | implicationLe x y =>
    obtain rfl := Option.some.inj h
    exact ⟨hzero.mono hpos, hsingle x hfactor', hsingle _ hfactor'.neg⟩
  | implicationGe x y =>
    obtain rfl := Option.some.inj h
    exact ⟨hzero.mono hpos, hsingle y hfactor', hsingle _ hfactor'.neg⟩
  | atMostOne vars =>
    obtain rfl := Option.some.inj h
    exact ⟨hzero.mono hpos, Terms.every_empty, productsOf_every hfactor hvars hs hn hlarge⟩
  | atMostOneZero vars =>
    obtain rfl := Option.some.inj h
    refine ⟨?_, ?_, productsOf_every hfactor hvars hs hn hlarge⟩
    · have hfactors : ∀ x ∈ (pairsOf vars).map fun _ => factor, AtMost (2 ^ k) x := by
        simpa using fun _ => hfactor
      have hcount : ((pairsOf vars).map fun _ => factor).length ≤ 2 ^ (2 * s) := by
        rw [List.length_map]
        simp only [paired] at hpairs
        omega
      have hsum := AtMost.foldl_add hzero hfactors hcount hs hn hlarge
      rwa [List.foldl_map] at hsum
    · refine Terms.every_ofList (k := k) (t := 2 * s) (fun u hu => ?_) ?_ hs hn hlarge
      · obtain ⟨_, -, hu⟩ := List.mem_flatMap.mp hu
        simp only [List.mem_cons, List.not_mem_nil, or_false] at hu
        rcases hu with rfl | rfl
        · exact hfactor.neg
        · exact hfactor.neg
      · rw [List.length_flatMap]
        simp only [paired] at hpairs
        simpa [mul_comm] using hpairs
  | generic => contradiction

end Shape

/-! ### Objectives with penalties -/

/-- Penalties of the same magnitude are added or subtracted. -/
theorem foldl_penalties_atMost {cs : List (Constraint Float)} {o : Objective Float}
    {step : Objective Float → Constraint Float → Objective Float} {k n t : Nat}
    (ho : o.polynomial.AtMost (2 ^ k))
    (hstep : ∀ o, ∀ c ∈ cs, step o c = o ∨ ∃ (sense : Sense) (f : Polynomial Float),
      f.AtMost (2 ^ k) ∧ step o c = o.addPenalty sense.sign f)
    (hcount : cs.length ≤ 2 ^ t) (ht : t < 53) (hn : k + t + 1 ≤ n) (hlarge : n < 1024) :
    (cs.foldl step o).polynomial.AtMost (2 ^ n) := by
  have hlimit : 1 + cs.length ≤ 2 ^ (t + 1) := by
    have hpos := Nat.one_le_two_pow (n := t)
    rw [pow_succ]
    omega
  have hstart : o.polynomial.AtMost ((1 : Nat) * 2 ^ k) := by simpa using ho
  have hnext : ∀ (m : Nat) (o : Objective Float), ∀ c ∈ cs, m < 2 ^ (t + 1) →
      o.polynomial.AtMost (m * 2 ^ k) → (step o c).polynomial.AtMost ((m + 1 : Nat) * 2 ^ k) := by
    intro m o c hc hm ho
    rcases hstep o c hc with heq | ⟨sense, f, hf, heq⟩
    · rw [heq]
      refine ho.mono ?_
      gcongr
      exact Nat.le_succ m
    · rw [heq]
      exact ho.addMultiple hf (sign_atMost sense) (.two_pow (by omega))
        (.natCast_mul_two_pow hm (by omega) (by omega)) (by push_cast; rw [add_one_mul])
  have hbound : (cs.foldl step o).polynomial.AtMost ((1 + cs.length : Nat) * 2 ^ k) :=
    foldl_of_step (motive := fun m (o : Objective Float) => o.polynomial.AtMost (m * 2 ^ k)) hstart
      hnext hlimit
  exact hbound.mono (Binary64.mul_two_pow_le hlimit (by omega))

namespace Constraint

variable {α : Type} [Scalar α] {c : Constraint α} {shape : Shape}

theorem paired_of_implication? (h : c.implication? = some shape) : shape.paired = [] := by
  rw [implication?] at h
  split at h
  · split at h
    · rw [← Option.some.inj h]
      rfl
    · rw [← Option.some.inj h]
      rfl
    · contradiction
  · contradiction

theorem paired_of_cardinality? (h : c.cardinality? = some shape) :
    shape.paired = c.linear.keys := by
  simp only [cardinality?] at h
  split at h
  · contradiction
  · split at h
    · split_ifs at h
      rw [← Option.some.inj h]
      rfl
    · split_ifs at h
      rw [← Option.some.inj h]
      rfl
    · contradiction

end Constraint

namespace Problem

/-- The pairs of a shape are pairs of variables of the constraint. -/
theorem length_paired_le {α : Type} [Scalar α] (p : Problem α) (c : Constraint α) :
    (p.shapeOf c).paired.length ≤ c.linear.toList.length := by
  have hkeys : c.linear.keys.length = c.linear.toList.length := List.length_map _
  rw [shapeOf]
  split
  · cases hi : c.implication? with
    | some shape => simp [Constraint.paired_of_implication? hi]
    | none =>
      cases hc : c.cardinality? with
      | some shape => simp [Constraint.paired_of_cardinality? hc, hkeys]
      | none => simp [Shape.paired]
  · simp [Shape.paired]

variable {p : Problem Float} {factor : Float} {k l n s t : Nat}

theorem withShapePenalties_atMost (hf : p.objective.polynomial.AtMost (2 ^ k))
    (hp : p.WellFormed) (hfactor : AtMost (2 ^ l) factor) (hsize : p.size ≤ 2 ^ s)
    (hcount : p.constraints.length ≤ 2 ^ t) (hs : 2 * s ≤ 53) (ht : t < 53)
    (hk : k + t + 1 ≤ n) (hl : l + 2 * s + t + 1 ≤ n) (hlarge : n < 1024) :
    (p.withShapePenalties factor).polynomial.AtMost (2 ^ n) := by
  have hf : p.objective.polynomial.AtMost (2 ^ (n - t - 1)) :=
    hf.mono (pow_le_pow_right₀ one_le_two (by omega))
  refine foldl_penalties_atMost hf (fun o c hc => ?_) hcount ht (by omega) hlarge
  split
  · rename_i f hpenalty
    refine Or.inr ⟨p.objective.sense, f, ?_, rfl⟩
    refine Shape.penalty?_atMost hpenalty hfactor ?_ hs (by omega) (by omega)
    exact (length_paired_le p c).trans ((hp.constraint_below c hc).1.length_le.trans hsize)
  · exact Or.inl rfl

end Problem

/-! ### Squared deviations -/

/-- A square of `n` terms has `n * (n + 1) / 2` terms. -/
theorem two_mul_length_squareTerms {α : Type} [Scalar α] (factor : α) (l : List (Nat × α)) :
    2 * (squareTerms factor l).length = l.length * (l.length + 1) := by
  induction l with
  | nil => rfl
  | cons u l ih =>
    rw [squareTerms, List.length_append, List.length_cons, List.length_map, List.length_cons,
      Nat.mul_add, ih]
    ring

variable {factor rhs : Float} {linear : Linear Float} {k l n s t : Nat}

/-- The factors of the terms of a square. -/
theorem squareTerms_atMost {us : List (Nat × Float)} (hfactor : AtMost (2 ^ k) factor)
    (hus : ∀ u ∈ us, AtMost (2 ^ l) u.2) (hn : k + 2 * l + 1 ≤ n) (hlarge : n < 1024) :
    ∀ u ∈ squareTerms factor us, AtMost (2 ^ n) u.2.2 := by
  have htwo : AtMost (2 ^ 1) (Scalar.ofInt 2 : Float) :=
    Binary64.ofInt_atMost (.two_pow (by omega)) (by norm_num)
  induction us with
  | nil => simp [squareTerms]
  | cons v us ih =>
    obtain ⟨hv, hus⟩ := List.forall_mem_cons.mp hus
    have hfirst : AtMost (2 ^ (k + l + 1)) (Scalar.ofInt 2 * factor * v.2) :=
      ((htwo.mul_two_pow hfactor le_rfl (by omega)).mul_two_pow hv (by omega) (by omega))
    intro u hu
    rw [squareTerms] at hu
    rcases List.mem_append.mp hu with hu | hu
    · rcases List.mem_cons.mp hu with rfl | hu
      · exact (hfactor.mul_two_pow hv le_rfl (by omega)).mul_two_pow hv (by omega) hlarge
      · obtain ⟨w, hw, rfl⟩ := List.mem_map.mp hu
        exact hfirst.mul_two_pow (hus w hw) (by omega) hlarge
    · exact ih hus u hu

/-- **Squared deviations** have products of a factor and two numbers, as many as there are pairs. -/
theorem squaredDeviation_atMost (hfactor : AtMost (2 ^ k) factor) (hrhs : AtMost (2 ^ l) rhs)
    (hlinear : linear.Every (AtMost (2 ^ l))) (hcount : linear.toList.length ≤ 2 ^ s)
    (hs : 2 * s ≤ 53) (hn : k + 2 * l + 2 * s + 1 ≤ n) (hlarge : n < 1024) :
    (squaredDeviation linear rhs factor).AtMost (2 ^ n) := by
  have htwo : AtMost (2 ^ 1) (Scalar.ofInt (-2) : Float) :=
    Binary64.ofInt_atMost (.two_pow (by omega)) (by norm_num)
  refine ⟨?_, ?_, ?_⟩
  · exact (hfactor.mul_two_pow hrhs le_rfl (by omega)).mul_two_pow hrhs (by omega) hlarge
  · refine Terms.every_ofList (k := k + 2 * l + 1) (t := s) (fun x hx => ?_) ?_ (by omega)
      (by omega) hlarge
    · obtain ⟨u, hu, rfl⟩ := List.mem_map.mp hx
      have hfirst : AtMost (2 ^ (k + l + 1)) (Scalar.ofInt (-2) * factor * rhs) :=
        (htwo.mul_two_pow hfactor le_rfl (by omega)).mul_two_pow hrhs (by omega) (by omega)
      exact hfirst.mul_two_pow (hlinear u hu) (by omega) (by omega)
    · rwa [List.length_map]
  · have hpos := Nat.one_le_two_pow (n := s)
    have hlength := two_mul_length_squareTerms factor linear.toList
    have hpairs : linear.toList.length * (linear.toList.length + 1) ≤ 2 ^ s * (2 ^ s + 2 ^ s) :=
      Nat.mul_le_mul hcount (by omega)
    rw [← mul_two, ← mul_assoc, ← pow_add, ← two_mul s] at hpairs
    exact Quadratic.every_ofProducts (k := k + 2 * l + 1) (t := 2 * s)
      (squareTerms_atMost hfactor hlinear le_rfl (by omega)) (by omega) hs (by omega) hlarge

end QuboReduction

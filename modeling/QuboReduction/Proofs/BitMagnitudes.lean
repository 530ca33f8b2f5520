import QuboReduction.Proofs.Documents
import QuboReduction.Proofs.Growth
import QuboReduction.Proofs.Magnitudes
import QuboReduction.Proofs.Weights

/-!
# Magnitudes of substituted expressions

If the bounds of a variable are between `-2 ^ w` and `2 ^ w`, the stage for bits replaces it by at
most `w + 1` binary variables, with an offset of at most `2 ^ w` and weights below `2 ^ (w + 1)`.
For bounds of 64 bits these are 64 variables. Substituting this into an expression multiplies each
coefficient by at most two of these numbers, and collects as many products as there are pairs of
bits for each term.

## Main definitions

* `QuboReduction.Domain.Within` — domains between two powers of two.
* `QuboReduction.Mapping.Short` — mappings to few variables, with bounded weights.

## Main results

* `QuboReduction.Problem.binarize_short` — the mappings of the stage for bits.
* `QuboReduction.Substitution.expand_atMost` — substituted expressions.
-/

namespace QuboReduction

open Binary64 (AtMost)

/-! ### Bits -/

/-- A list of short lists, one after another. -/
theorem length_flatMap_le {β γ : Type} {f : β → List γ} {l : List β} {n : Nat}
    (h : ∀ b ∈ l, (f b).length ≤ n) : (l.flatMap f).length ≤ l.length * n := by
  rw [List.length_flatMap]
  refine (List.sum_le_card_nsmul _ n fun x hx => ?_).trans (by simp)
  obtain ⟨b, hb, rfl⟩ := List.mem_map.mp hx
  exact h b hb

theorem length_bitWeights_le {range t : Nat} (h : range < 2 ^ t) :
    (bitWeights range).length ≤ t := by
  rw [bitWeights]
  split
  · exact Nat.zero_le _
  · rename_i hzero
    have hlog := (Nat.log2_lt hzero).mpr h
    simp only [List.length_append, List.length_map, List.length_range, List.length_singleton]
    omega

theorem le_of_mem_bitWeights {range w : Nat} (h : w ∈ bitWeights range) : w ≤ range :=
  (List.le_sum_of_mem h).trans_eq (sum_bitWeights range)

namespace Domain

variable {d : Domain} {w : Nat}

/-- The bounds are integers from `-2 ^ w` on and below `2 ^ w`. -/
def Within (d : Domain) (w : Nat) : Prop :=
  (-2 ^ w ≤ d.lower ∧ d.lower < 2 ^ w) ∧ -2 ^ w ≤ d.upper ∧ d.upper < 2 ^ w

instance (d : Domain) (w : Nat) : Decidable (d.Within w) :=
  inferInstanceAs (Decidable (_ ∧ _))

theorem within_of_inWords (h : d.InWords) : d.Within 63 :=
  ⟨isWord_iff.mp h.1, isWord_iff.mp h.2⟩

theorem Within.magnitude_le (h : d.Within w) : d.magnitude ≤ 2 ^ w := by
  have hcast : ((2 ^ w : Nat) : Int) = 2 ^ w := by push_cast; rfl
  obtain ⟨⟨_, _⟩, _, _⟩ := h
  rw [magnitude]
  omega

end Domain

/-- A mapping that refers to at most `2 ^ u` variables, the weights of which are at most
`2 ^ (w + 1)`, and has an offset of at most `2 ^ w`. -/
structure Mapping.Short (m : Mapping Float) (w u : Nat) : Prop where
  /-- The offset is bounded. -/
  offset : AtMost (2 ^ w) m.affineForm.1
  /-- There are not many variables. -/
  length_le : m.affineForm.2.length ≤ 2 ^ u
  /-- The weights are bounded. -/
  weight : ∀ t ∈ m.affineForm.2, AtMost (2 ^ (w + 1)) t.2

theorem Mapping.short_identity (i w u : Nat) : (Mapping.identity i).Short w u where
  offset := Binary64.zero_atMost (by positivity)
  length_le := Nat.one_le_two_pow
  weight t ht := by
    rw [List.mem_singleton.mp ht]
    exact one_atMost.mono (one_le_pow₀ one_le_two)

/-- The bits of an integer variable, with the lower bound as the offset. -/
theorem Mapping.short_affine {lower upper : Int} {terms : List (Nat × Float)} {w u : Nat}
    (hwithin : (Domain.integer lower upper).Within w) (hu : w < 2 ^ u) (hw : w + 1 < 1024)
    (hterms : terms.map (fun t => t.2) =
      (bitWeights (upper - lower).toNat).map fun b : Nat => Scalar.ofInt (b : Int)) :
    (Mapping.affine (Scalar.ofInt lower) terms).Short w u := by
  obtain ⟨⟨hlower, hlower'⟩, hupper, hupper'⟩ := hwithin
  simp only [Domain.lower, Domain.upper] at hlower hlower' hupper hupper'
  have hrange : (upper - lower).toNat < 2 ^ (w + 1) := by
    have hcast : ((2 ^ (w + 1) : Nat) : Int) = 2 * 2 ^ w := by push_cast; rw [pow_succ']
    omega
  refine ⟨?_, ?_, fun t ht => ?_⟩
  · refine Binary64.ofInt_atMost (.two_pow (by omega)) (abs_le.mpr ⟨?_, ?_⟩)
    · exact_mod_cast hlower
    · exact_mod_cast hlower'.le
  · have hlength := congrArg List.length hterms
    rw [List.length_map, List.length_map] at hlength
    exact (hlength.trans_le (length_bitWeights_le hrange)).trans hu
  · have hmem : t.2 ∈ terms.map fun t => t.2 := List.mem_map_of_mem ht
    rw [hterms] at hmem
    obtain ⟨b, hb, hweight⟩ := List.mem_map.mp hmem
    rw [← hweight]
    have hle : b ≤ 2 ^ (w + 1) := (le_of_mem_bitWeights hb).trans hrange.le
    refine Binary64.ofInt_atMost (.two_pow hw) ?_
    rw [Int.cast_natCast, Nat.abs_cast]
    exact_mod_cast hle

namespace Problem

section Bits

variable {α : Type} [Scalar α] {q q' : Problem α} {v : Variable} {k : Nat} {ws : List Nat}
  {terms : List (Nat × α)}

/-- The terms of the bits have the weights, and all that is added are binary variables. -/
theorem addBits_terms (h : q.addBits v k ws = .ok (q', terms)) :
    terms.map (fun t => t.2) = ws.map (fun w : Nat => Scalar.ofInt (w : Int)) ∧
      ((∀ v ∈ q.vars, v.domain = .binary) → ∀ v ∈ q'.vars, v.domain = .binary) ∧
      q'.constraints = q.constraints := by
  induction ws generalizing q k terms with
  | nil =>
    simp only [addBits, Except.ok.injEq, Prod.mk.injEq] at h
    obtain ⟨rfl, rfl⟩ := h
    exact ⟨rfl, id, rfl⟩
  | cons w ws ih =>
    obtain ⟨⟨q₁, index⟩, hadd, h⟩ := bind_eq_ok.mp h
    obtain ⟨⟨q₂, rest⟩, hrest, h⟩ := bind_eq_ok.mp h
    rw [pure_eq_ok, Prod.mk.injEq] at h
    obtain ⟨rfl, rfl⟩ := h
    obtain ⟨-, -, rfl, -⟩ := addVariable_eq_ok_iff.mp (ofBuilding_eq_ok.mp hadd)
    obtain ⟨hterms, hbinary, hconstraints⟩ := ih hrest
    refine ⟨by rw [List.map_cons, hterms, List.map_cons], fun hq => hbinary fun v hv => ?_,
      hconstraints⟩
    rcases List.mem_append.mp hv with hv | hv
    · exact hq v hv
    · rw [List.mem_singleton.mp hv]

end Bits

/-- The mapping of a variable is short, and only binary variables are added. -/
theorem addBinarized_short {q q' : Problem Float} {s s' : Substitution Float} {v : Variable}
    {w u : Nat} (hwithin : v.domain.Within w) (hu : w < 2 ^ u) (hw : w + 1 < 1024)
    (hq : ∀ v ∈ q.vars, v.domain = .binary) (hs : ∀ m ∈ s, m.Short w u)
    (h : addBinarized (q, s) v = .ok (q', s')) :
    (∀ v ∈ q'.vars, v.domain = .binary) ∧ (∀ m ∈ s', m.Short w u) ∧
      q'.constraints = q.constraints := by
  simp only [addBinarized] at h
  split at h
  · obtain ⟨⟨q₁, index⟩, hadd, h⟩ := bind_eq_ok.mp h
    rw [pure_eq_ok, Prod.mk.injEq] at h
    obtain ⟨rfl, rfl⟩ := h
    obtain ⟨-, -, rfl, -⟩ := addVariable_eq_ok_iff.mp (ofBuilding_eq_ok.mp hadd)
    refine ⟨fun v hv => ?_, fun m hm => ?_, rfl⟩
    · rcases List.mem_append.mp hv with hv | hv
      · exact hq v hv
      · rw [List.mem_singleton.mp hv]
    · rcases List.mem_append.mp hm with hm | hm
      · exact hs m hm
      · rw [List.mem_singleton.mp hm]
        exact Mapping.short_identity index w u
  · rename_i lower upper hdomain
    obtain ⟨⟨q₁, terms⟩, hadd, h⟩ := bind_eq_ok.mp h
    rw [pure_eq_ok, Prod.mk.injEq] at h
    obtain ⟨rfl, rfl⟩ := h
    obtain ⟨hterms, hbinary, hconstraints⟩ := addBits_terms hadd
    refine ⟨hbinary hq, fun m hm => ?_, hconstraints⟩
    rcases List.mem_append.mp hm with hm | hm
    · exact hs m hm
    · rw [List.mem_singleton.mp hm]
      exact Mapping.short_affine (hdomain ▸ hwithin) hu hw hterms

end Problem

/-! ### The mappings of the stage -/

theorem Mapping.Short.allFinite {m : Mapping Float} {w u : Nat} (h : m.Short w u) :
    m.AllFinite := by
  cases m with
  | identity i => trivial
  | affine offset terms => exact ⟨h.offset.isFinite, fun t ht => (h.weight t ht).isFinite⟩

theorem Mapping.Short.length_indices_le {m : Mapping Float} {w u : Nat} (h : m.Short w u) :
    m.indices.length ≤ 2 ^ u := by
  cases m with
  | identity i => exact h.length_le
  | affine offset terms => exact (List.length_map _).trans_le h.length_le

namespace Problem

variable {p q : Problem Float} {r : Record Float} {w u : Nat}

/-- The variables are binary ones with short mappings, before there is an objective. -/
theorem foldlM_addBinarized_short {s : Substitution Float}
    (hwithin : ∀ v ∈ p.vars, v.domain.Within w) (hu : w < 2 ^ u) (hw : w + 1 < 1024)
    (h : p.vars.foldlM addBinarized (empty p.name, []) = .ok (q, s)) :
    (∀ v ∈ q.vars, v.domain = .binary) ∧ (∀ m ∈ s, m.Short w u) ∧ q.constraints = [] := by
  refine foldlM_ok_of_step (motive := fun _ state => (∀ v ∈ state.1.vars, v.domain = .binary) ∧
    (∀ m ∈ state.2, Mapping.Short m w u) ∧ state.1.constraints = []) ⟨by simp [empty], by simp, rfl⟩
    (fun before v after state state' hsplit hstate hstep => ?_) h
  obtain ⟨hbinary, hshort, hconstraints⟩ :=
    addBinarized_short (hwithin v (by simp [hsplit])) hu hw hstate.1 hstate.2.1 hstep
  exact ⟨hbinary, hshort, hconstraints.trans hstate.2.2⟩

/-- **The mappings of the stage for bits** are short, and only binary variables are left: at most
`2 ^ u` of them for each variable. -/
theorem binarize_short (hwithin : ∀ v ∈ p.vars, v.domain.Within w) (hu : w < 2 ^ u)
    (hw : w + 1 < 1024) (h : p.binarize = .ok (q, r)) :
    (∀ m ∈ r.mappings, m.Short w u) ∧ (∀ v ∈ q.vars, v.domain = .binary) ∧
      q.size ≤ p.size * 2 ^ u := by
  have hreplaces := binarize_replaces h
  obtain ⟨q₁, s, q₂, hrun, hobjective, hconstraints, rfl⟩ := binarize_steps h
  obtain ⟨hbinary, hshort, -⟩ := foldlM_addBinarized_short hwithin hu hw hrun
  refine ⟨hshort, ?_, ?_⟩
  · obtain ⟨-, rfl⟩ := setObjective_eq_ok_iff.mp hobjective
    rw [(vars_of_addConstraints hconstraints).1]
    exact hbinary
  · have hnews : (s.flatMap Mapping.indices).length = q.size := by
      rw [hreplaces.grows.news_eq, List.length_range']
      rfl
    have hlength : s.length = p.size := hreplaces.length_mappings
    rw [← hnews, ← hlength]
    exact length_flatMap_le fun m hm => (hshort m hm).length_indices_le

end Problem

/-! ### Substitution -/

namespace Substitution

variable {s : Substitution Float} {linear : Linear Float} {quadratic : Quadratic Float}
  {k n t w u : Nat}

theorem formAt_short (hs : ∀ m ∈ s, m.Short w u) (i : Nat) :
    AtMost (2 ^ w) (s.formAt i).1 ∧ (s.formAt i).2.length ≤ 2 ^ u ∧
      ∀ t ∈ (s.formAt i).2, AtMost (2 ^ (w + 1)) t.2 := by
  rw [formAt]
  split
  · rename_i m hm
    have hm := hs m (List.mem_of_getElem? hm)
    exact ⟨hm.offset, hm.length_le, hm.weight⟩
  · exact ⟨Binary64.zero_atMost (by positivity), Nat.zero_le _, by simp⟩

/-- The numbers of terms after one another. -/
theorem two_pow_add_two_pow_le {a b t i j : Nat} (ha : a ≤ 2 ^ t) (hb : b ≤ 2 ^ (2 * t))
    (hi : i ≤ 2 ^ j) {m : Nat} (hm : m ≤ 2 ^ j) : a * i + b * m ≤ 2 ^ (2 * t + j + 1) := by
  have hpow : 2 ^ t ≤ 2 ^ (2 * t) := Nat.pow_le_pow_right two_pos (by omega)
  have hleft := Nat.mul_le_mul (ha.trans hpow) hi
  have hright := Nat.mul_le_mul hb hm
  rw [pow_succ, pow_add]
  omega

variable (hs : ∀ m ∈ s, m.Short w u) (hlinear : linear.Every (AtMost (2 ^ k)))
  (hquadratic : quadratic.Every (AtMost (2 ^ k))) (hcount : linear.toList.length ≤ 2 ^ t)
  (hcount' : quadratic.toList.length ≤ 2 ^ (2 * t))

include hs hlinear hquadratic hcount hcount'

theorem constants_atMost (ht : 2 * t + 1 ≤ 53) (hn : k + 2 * w + 2 * t + 1 ≤ n)
    (hlarge : n < 1024) :
    AtMost (2 ^ n) ((s.constants linear quadratic).foldl (fun total a => total + a) 0) := by
  refine AtMost.foldl_add (k := k + 2 * w) (t := 2 * t + 1) (Binary64.zero_atMost le_rfl)
    (fun x hx => ?_) ?_ ht (by omega) hlarge
  · rcases List.mem_append.mp hx with hx | hx
    · obtain ⟨c, hc, rfl⟩ := List.mem_map.mp hx
      exact (hlinear c hc).mul_two_pow (formAt_short hs _).1 (by omega) (by omega)
    · obtain ⟨c, hc, rfl⟩ := List.mem_map.mp hx
      exact ((hquadratic c hc).mul_two_pow (formAt_short hs _).1 le_rfl (by omega)).mul_two_pow
        (formAt_short hs _).1 (by omega) (by omega)
  · have hlength := two_pow_add_two_pow_le hcount hcount' (j := 0) le_rfl le_rfl
    simpa [constants] using hlength

theorem linearTerms_every (ht : 2 * t + u + 2 ≤ 53) (hn : k + 2 * w + 2 * t + u + 3 ≤ n)
    (hlarge : n < 1024) :
    (Terms.ofList (s.linearTerms linear quadratic)).Every (AtMost (2 ^ n)) := by
  refine Terms.every_ofList (k := k + 2 * w + 1) (t := 2 * t + u + 2) (fun x hx => ?_) ?_ ht
    (by omega) hlarge
  · rcases List.mem_append.mp hx with hx | hx
    · obtain ⟨c, hc, hx⟩ := List.mem_flatMap.mp hx
      obtain ⟨v, hv, rfl⟩ := List.mem_map.mp hx
      exact (hlinear c hc).mul_two_pow ((formAt_short hs _).2.2 v hv) (by omega) (by omega)
    · obtain ⟨c, hc, hx⟩ := List.mem_flatMap.mp hx
      have hoffset (i : Nat) : AtMost (2 ^ (k + w)) (c.2 * (s.formAt i).1) :=
        (hquadratic c hc).mul_two_pow (formAt_short hs i).1 le_rfl (by omega)
      rcases List.mem_append.mp hx with hx | hx
      · obtain ⟨v, hv, rfl⟩ := List.mem_map.mp hx
        exact (hoffset _).mul_two_pow ((formAt_short hs _).2.2 v hv) (by omega) (by omega)
      · obtain ⟨v, hv, rfl⟩ := List.mem_map.mp hx
        exact (hoffset _).mul_two_pow ((formAt_short hs _).2.2 v hv) (by omega) (by omega)
  · have hleft : (linear.toList.flatMap fun c =>
        (s.formAt c.1).2.map fun v => (v.1, c.2 * v.2)).length ≤ linear.toList.length * 2 ^ u :=
      length_flatMap_le fun c _ => by
        rw [List.length_map]
        exact (formAt_short hs _).2.1
    have hright : (quadratic.toList.flatMap fun c => s.crossTerms c.1 c.2).length ≤
        quadratic.toList.length * 2 ^ (u + 1) :=
      length_flatMap_le fun c _ => by
        have hlow := (formAt_short hs c.1.low).2.1
        have hhigh := (formAt_short hs c.1.high).2.1
        simp only [crossTerms, List.length_append, List.length_map]
        rw [pow_succ]
        omega
    rw [linearTerms, List.length_append]
    exact (Nat.add_le_add hleft hright).trans (two_pow_add_two_pow_le hcount hcount'
      (j := u + 1) (Nat.pow_le_pow_right two_pos (Nat.le_succ u)) le_rfl)

omit hlinear hcount in
theorem products_every (ht : 2 * t + 2 * u ≤ 53) (hn : k + 2 * w + 2 * t + 2 * u + 2 ≤ n)
    (hlarge : n < 1024) : (Quadratic.ofProducts (s.products quadratic)).Every (AtMost (2 ^ n)) := by
  refine Quadratic.every_ofProducts (k := k + 2 * w + 2) (t := 2 * t + 2 * u) (fun x hx => ?_) ?_ ht
    (by omega) hlarge
  · obtain ⟨c, hc, hx⟩ := List.mem_flatMap.mp hx
    obtain ⟨v, hv, hx⟩ := List.mem_flatMap.mp hx
    obtain ⟨v', hv', rfl⟩ := List.mem_map.mp hx
    have hfirst : AtMost (2 ^ (k + w + 1)) (c.2 * v.2) :=
      (hquadratic c hc).mul_two_pow ((formAt_short hs _).2.2 v hv) (by omega) (by omega)
    exact hfirst.mul_two_pow ((formAt_short hs _).2.2 v' hv') (by omega) (by omega)
  · have hinner (q : Pair) (a : Float) : ((s.formAt q.low).2.flatMap fun v =>
        (s.formAt q.high).2.map fun v' => (v.1, v'.1, a * v.2 * v'.2)).length ≤ 2 ^ (2 * u) := by
      have hle := length_flatMap_le (l := (s.formAt q.low).2) (f := fun v =>
        (s.formAt q.high).2.map fun v' => (v.1, v'.1, a * v.2 * v'.2)) (n := 2 ^ u) fun v _ => by
          rw [List.length_map]
          exact (formAt_short hs _).2.1
      rw [two_mul, pow_add]
      exact hle.trans (Nat.mul_le_mul_right _ (formAt_short hs q.low).2.1)
    calc (s.products quadratic).length ≤ quadratic.toList.length * 2 ^ (2 * u) :=
          length_flatMap_le fun c _ => hinner c.1 c.2
      _ ≤ 2 ^ (2 * t) * 2 ^ (2 * u) := Nat.mul_le_mul_right _ hcount'
      _ = 2 ^ (2 * t + 2 * u) := (pow_add 2 _ _).symm

/-- **Substitution** multiplies coefficients by offsets and weights, and adds up as many products as
there are terms. -/
theorem expand_atMost (hu : 2 ≤ u) (ht : 2 * t + 2 * u ≤ 53)
    (hn : k + 2 * w + 2 * t + 2 * u + 2 ≤ n) (hlarge : n < 1024) :
    (s.expand linear quadratic).AtMost (2 ^ n) where
  constant := constants_atMost hs hlinear hquadratic hcount hcount' (by omega) (by omega) hlarge
  linear := linearTerms_every hs hlinear hquadratic hcount hcount' (by omega) (by omega) hlarge
  quadratic := products_every hs hquadratic hcount' ht hn hlarge

end Substitution

end QuboReduction
